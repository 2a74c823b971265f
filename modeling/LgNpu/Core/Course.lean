import LgNpu.Conv.Correct
import LgNpu.Core.Busy
import LgNpu.Core.Finish
import LgNpu.Gemm.Correct
import LgNpu.Mac.Weight
import LgNpu.Pool.Correct

/-!
# What a command leaves behind

A backend that is between commands with its datapath empty has written all that
the reference operation of its last command writes, and no answer is on its way
to it.
-/

namespace LgNpu

/-! ## The last command is written -/

/-- Between commands the last one has been done. -/
theorem Backend.Performs.log_of_free {S Cmd : Type} {b : Backend S Cmd} {cmd : Cmd}
    {gs : ℕ → Grants} {x : Sys S} {W : Writes} {Free Working Drained Silent Engaged : S → Prop}
    (h : b.Performs cmd gs x W) (hS : b.Shares Free Working Drained Silent)
    (hE : b.Engages Free Engaged) {t : ℕ} (hf : Free (b.run cmd gs x (t + 1)).be) :
    (b.run cmd gs x (t + 1)).log = W := by
  obtain ⟨T, hdone, hlog⟩ := h.finish
  have hstay : ∀ u, t ≤ u → Free (b.run cmd gs x (u + 1)).be := by
    intro u hu
    induction u, hu using Nat.le_induction with
    | base => exact hf
    | succ u _ ih => exact hS.free_step _ _ _ ih
  have hT : T ≤ t + 1 := by
    by_contra hlt
    obtain ⟨u, rfl⟩ : ∃ u, T = u + 1 := ⟨T - 1, by omega⟩
    exact hE.not_free _ (hE.done _ hdone) (hstay u (by omega))
  refine (h.sound (t + 1)).eq_of_length_le ?_
  rw [← hlog]
  exact (log_isPrefix b cmd gs x hT).length_le

/-- With the front end at rest and the datapath empty all elements are
written. -/
theorem MacJob.log_of_drained {F Cmd : Type} {fe : MacFront F Cmd} {cmd : Cmd} {c : MacJob}
    {lat : ℕ} {Rest : F → Prop} {At : Feed → F → Prop} {x : Sys (Mac F)}
    (hF : Feeds fe cmd c lat Rest At) (hpos : c.Positive) (hk : c.Keeps lat)
    (hq : Mac.Quiet Rest x) (hlog : x.log = []) (hdis : c.Disjoint) {t : ℕ}
    (hrest : Rest ((macBackend fe).run cmd (fun _ ↦ .all) x (t + 1)).be.front)
    (hd : ((macBackend fe).run cmd (fun _ ↦ .all) x (t + 1)).be.path.drained = true) :
    ((macBackend fe).run cmd (fun _ ↦ .all) x (t + 1)).log =
      c.writes (c.readsOf x.mem.act) x.mem.wt := by
  rw [run_eq_track c lat] at hrest hd ⊢
  have hinv : MacInv True c At (c.readsOf x.mem.act) x.mem.wt
      (track fe cmd c lat (fun _ ↦ .all) x t) := by
    rcases Nat.le_total t (lat + 1) with ht | ht
    · exact (track_warm hF hpos hq hlog True _ _ ht).1
    · obtain ⟨u, rfl⟩ := Nat.exists_eq_add_of_le ht
      exact (track_timed hF hpos hq hlog hk (fun _ ↦ hdis) u).1
  have hfeed : (track fe cmd c lat (fun _ ↦ .all) x t).feed = .idle := by
    by_contra hne
    have hbusy := hF.ctrlBusy _ _ hinv.front
    rw [hF.rest_busy _ hrest, decide_eq_true hne] at hbusy
    exact Bool.false_ne_true hbusy
  simp only [MacPath.drained, Bool.and_eq_true, decide_eq_true_eq, Bool.not_eq_true'] at hd
  obtain ⟨⟨⟨⟨⟨⟨⟨⟨hload, hpe⟩, htrig⟩, hbias⟩, hrelu⟩, hquant⟩, -⟩, -⟩, hwr⟩ := hd
  exact hinv.log_eq trivial (hinv.length_of_empty hpos hfeed hload hpe
    (MacPath.held_eq_zero.mpr ⟨hwr, hquant, hrelu, hbias, htrig⟩))

/-! ## No read is left over -/

/-- A backend between commands with the ports done read nothing in the cycle
before. -/
def Backend.Rests {S Cmd : Type} (b : Backend S Cmd) (Free Drained : S → Prop) : Prop :=
  ∀ s cmd rsp, Free (b.step s cmd false rsp) → Drained (b.step s cmd false rsp) →
    (b.req s).actRdReq = false ∧ (b.req s).wtRdReq = false ∧ (b.req s).biasRdReq = false

theorem Backend.Rests.of_idle {S Cmd : Type} {b : Backend S Cmd} {Idle Working Silent : S → Prop}
    (hS : b.Shares Idle Working (fun _ ↦ True) Silent) (hE : b.Engages Idle fun s ↦ ¬Idle s)
    (hdone : ∀ s, b.done s = true → (b.req s).raises = false) :
    b.Rests Idle fun _ ↦ True := by
  intro s cmd rsp hf _
  have hraise : (b.req s).raises = false := by
    by_cases hidle : Idle s
    · exact hS.drained_req s hidle trivial
    · by_cases hd : b.done s = true
      · exact hdone s hd
      · exact absurd hf (hE.step s cmd rsp hidle (Bool.eq_false_iff.mpr hd))
  obtain ⟨hact, hwt, -, hbias⟩ := BeReq.raises_eq_false.mp hraise
  exact ⟨hact, hwt, hbias⟩

theorem Mac.rests {F Cmd : Type} (fe : MacFront F Cmd) (Rest : F → Prop) :
    (macBackend fe).Rests (Free Rest) fun s ↦ s.path.drained = true := by
  intro s cmd rsp _ hd
  simp only [MacPath.drained, Bool.and_eq_true, decide_eq_true_eq, Bool.not_eq_true'] at hd
  obtain ⟨⟨⟨⟨⟨⟨⟨⟨hload, hpe⟩, -⟩, -⟩, -⟩, -⟩, -⟩, -⟩, -⟩ := hd
  have hstate : s.path.loader.state ≠ .req := fun hs ↦ by
    simp only [macBackend, MacPath.step, ConvLoader.step, ConvLoader.stateNext, hs] at hload
    repeat' split at hload
    all_goals exact absurd hload (by simp)
  have hacc : s.path.peAccept = false := Bool.eq_false_iff.mpr fun ha ↦ by
    have hvalid : ((macBackend fe).step s cmd false rsp).path.pe.validR = true := if_pos ha
    exact Bool.false_ne_true (hpe.symm.trans hvalid)
  simp [macBackend, MacPath.req, ConvLoader.actMemReq, ConvLoader.wtMemReq, hstate, hacc]

theorem SoftmaxCtrl.rests : softmaxBackend.Rests (fun s ↦ s.state = .idle) fun _ ↦ True :=
  .of_idle shares engages fun s hd ↦ by
    have hs : s.state = .done := of_decide_eq_true hd
    simp [softmaxBackend, BeReq.raises, req, actRdReq, hs]

theorem VecCtrl.rests : vecBackend.Rests (fun s ↦ s.state = .idle) fun _ ↦ True :=
  .of_idle shares engages fun s hd ↦ by
    have hs : s.state = .done := of_decide_eq_true hd
    simp [vecBackend, BeReq.raises, req, hs]

theorem LnormCtrl.rests : lnormBackend.Rests (fun s ↦ s.state = .idle) fun _ ↦ True :=
  .of_idle shares engages fun s hd ↦ by
    have hs : s.state = .done := of_decide_eq_true hd
    simp [lnormBackend, BeReq.raises, req, reading, hs]

theorem PoolCtrl.rests : poolBackend.Rests (fun s ↦ s.state = .idle) fun _ ↦ True :=
  .of_idle shares engages fun s hd ↦ by
    have hs : s.state = .done := of_decide_eq_true hd
    simp [poolBackend, BeReq.raises, req, hs]

namespace NpuCore

theorem rests : (b : BackendId) → (backend b).Rests (Free b) (Drained b)
  | .conv => Mac.rests _ _
  | .gemm => Mac.rests _ _
  | .softmax => SoftmaxCtrl.rests
  | .vec => VecCtrl.rests
  | .lnorm => LnormCtrl.rests
  | .pool => PoolCtrl.rests

/-! ## The reference operation -/

/-- The writes of a command that finds the memory as given.  Rows and vectors
are taken in order, so that their regions may overlap. -/
def refWrites : (b : BackendId) → BeCmd b → (BitVec 13 → Byte) → (BitVec 12 → Byte) → Writes
  | .conv, cmd, act, wt => ConvCmd.tableWrites cmd act wt
  | .gemm, cmd, act, wt => GemmCmd.tableWrites cmd act wt
  | .softmax, cmd, act, _ => (SoftmaxCmd.rowWise cmd).runWrites act (SoftmaxCmd.numRows cmd).toNat
  | .vec, cmd, act, wt => VecCmd.runWrites cmd act wt (VecCmd.length cmd).toNat
  | .lnorm, cmd, act, _ => (LnormCmd.rowWise cmd).runWrites act (LnormCmd.numRows cmd).toNat
  | .pool, cmd, act, _ => PoolCmd.writesOf cmd act
      (if PoolCmd.poolMode cmd then PoolCmd.avgOf (PoolCmd.area cmd) else PoolCmd.maxOf)

/-- Positive sizes; for `conv`, `gemm` and `pool` also regions inside the
buffers, with the output away from the input. -/
def Proper : (b : BackendId) → BeCmd b → Prop
  | .conv => ConvCmd.Valid
  | .gemm => GemmCmd.Valid
  | .softmax => fun cmd ↦ 0 < cmd.numRows.toNat ∧ 0 < cmd.rowLen.toNat
  | .vec => fun cmd ↦ 0 < cmd.length.toNat
  | .lnorm => fun cmd ↦ 0 < cmd.numRows.toNat ∧ 0 < cmd.rowLen.toNat
  | .pool => PoolCmd.Valid

/-- An average has a divisor that serves its windows. -/
def Served : (b : BackendId) → BeCmd b → (BitVec 13 → Byte) → Prop
  | .pool, cmd, act => PoolCmd.poolMode cmd = true → PoolCtrl.AreaServes cmd act
  | _, _, _ => True

variable {b : BackendId} {cmd : BeCmd b} {y : Sys (BeState b)}

/-- A command from a silent backend has written what the reference operation
writes when the backend is between commands and drained. -/
theorem log_of_rest (hp : Proper b cmd) (hs : Silent b y.be) (hn : y.mem.biasPendingR = false)
    (hlog : y.log = []) (hserved : Served b cmd y.mem.act) {t : ℕ}
    (hf : Free b ((backend b).run cmd (fun _ ↦ .all) y (t + 1)).be)
    (hd : Drained b ((backend b).run cmd (fun _ ↦ .all) y (t + 1)).be) :
    ((backend b).run cmd (fun _ ↦ .all) y (t + 1)).log = refWrites b cmd y.mem.act y.mem.wt := by
  cases b with
  | conv =>
      have hv : ConvCmd.Valid cmd := hp
      exact (MacJob.log_of_drained (ConvFront.feeds hv.toLooping) hv.job (ConvCmd.keeps cmd)
        ⟨hs.front, hs.path, hn⟩ hlog hv.disjoint hf.front hd).trans hv.writes_eq
  | gemm =>
      have hv : GemmCmd.Valid cmd := hp
      exact (MacJob.log_of_drained (GemmFront.feeds hv.toPositive) hv.job (GemmCmd.keeps cmd)
        ⟨hs.front, hs.path, hn⟩ hlog hv.disjoint hf.front hd).trans
          (GemmCmd.writes_eq hv.toPositive)
  | softmax =>
      exact (SoftmaxCtrl.performs hp.2 hp.1 fairGrants_all hs hlog).log_of_free
        (shares .softmax) (engages .softmax) hf
  | vec =>
      exact (VecCtrl.performs hp fairGrants_all (fun _ ↦ rfl) hs hlog hn).log_of_free
        (shares .vec) (engages .vec) hf
  | lnorm =>
      exact (LnormCtrl.performs hp.2 hp.1 fairGrants_all hs hlog).log_of_free
        (shares .lnorm) (engages .lnorm) hf
  | pool =>
      exact ((PoolCtrl.performs hp fairGrants_all hs hlog).log_of_free (shares .pool)
        (engages .pool) hf).trans (PoolCtrl.writes_eq hp hserved)

end NpuCore

end LgNpu
