import LgNpu.Softmax.Run
import Mathlib.Data.Prod.Lex

/-!
# Softmax end to end
-/

namespace LgNpu

namespace SoftmaxCtrl

open SoftmaxCmd

/-! ## Termination -/

section Rank

variable (cmd : SoftmaxCmd)

/-- The passes still ahead of element or row. -/
def passesLeft (s : SoftmaxCtrl) : ℕ :=
  match s.state with
  | .findMax => 5
  | .expSum => 4
  | .normRd => 3
  | .normWait => 2
  | .normDiv => 1
  | _ => 0

/-- Work left inside a pass: requests and responses, or divider steps. -/
def stepsLeft (s : SoftmaxCtrl) : ℕ :=
  match s.state with
  | .findMax => 2 * cmd.rowLen.toNat - (s.reqCntR.toNat + s.rcvCntR.toNat)
  | .expSum => 2 * cmd.rowLen.toNat - (s.reqCntR.toNat + s.rcvCntR.toNat)
  | .normDiv => 24 - s.divCntR.toNat
  | _ => 0

/-- Outputs left, passes left, steps left. -/
def rank (x : Sys SoftmaxCtrl) : ℕ ×ₗ ℕ ×ₗ ℕ :=
  toLex (if x.be.state = .loadCfg then cmd.numRows.toNat * cmd.rowLen.toNat + 1
      else cmd.numRows.toNat * cmd.rowLen.toNat - x.log.length,
    toLex (passesLeft x.be, stepsLeft cmd x.be))

def waitsOn (x : Sys SoftmaxCtrl) : Option Port :=
  match x.be.state with
  | .findMax => if x.mem.actBuf.beRdAcceptR then none else some .act
  | .expSum =>
      if x.mem.actBuf.beRdAcceptR ∨ x.be.rcvCntR = x.be.rowLenR then none else some .act
  | .normRd => some .act
  | .normWr => some .out
  | _ => none

variable {cmd} {m : BitVec 13 → Byte} {x y : Sys SoftmaxCtrl} {i j b : ℕ}

theorem rank_lt_of_log (hx : x.be.state ≠ .loadCfg) (hy : y.be.state ≠ .loadCfg)
    (hlt : x.log.length < y.log.length)
    (hle : y.log.length ≤ cmd.numRows.toNat * cmd.rowLen.toNat) : rank cmd y < rank cmd x := by
  simp only [rank, if_neg hx, if_neg hy]
  exact Prod.Lex.toLex_lt_toLex.mpr (.inl (by omega))

theorem rank_lt_of_passes (hx : x.be.state ≠ .loadCfg) (hy : y.be.state ≠ .loadCfg)
    (hlog : y.log = x.log) (hlt : passesLeft y.be < passesLeft x.be) :
    rank cmd y < rank cmd x := by
  simp only [rank, if_neg hx, if_neg hy, hlog]
  exact Prod.Lex.toLex_lt_toLex.mpr (.inr ⟨rfl, Prod.Lex.toLex_lt_toLex.mpr (.inl hlt)⟩)

theorem rank_lt_of_steps (hx : x.be.state ≠ .loadCfg) (hst : y.be.state = x.be.state)
    (hlog : y.log = x.log) (hlt : stepsLeft cmd y.be < stepsLeft cmd x.be) :
    rank cmd y < rank cmd x := by
  have hy : y.be.state ≠ .loadCfg := hst ▸ hx
  simp only [rank, if_neg hx, if_neg hy, hlog]
  refine Prod.Lex.toLex_lt_toLex.mpr (.inr ⟨rfl, Prod.Lex.toLex_lt_toLex.mpr (.inr ⟨?_, hlt⟩)⟩)
  simp only [passesLeft, hst]

theorem rank_eq (hst : y.be.state = x.be.state) (hlog : y.log = x.log)
    (hsteps : stepsLeft cmd y.be = stepsLeft cmd x.be) : rank cmd y = rank cmd x := by
  simp only [rank, hst, hlog, hsteps, passesLeft]

/-- A scanning cycle takes a response, issues a request, or waits for the read
port. -/
theorem scan_progress {R : Reads} (hscan : x.be.scanning) (hr : AtRow cmd x.be i)
    (hp : Scan cmd R (viewOf x) i b) (hb : b < cmd.rowLen.toNat) (g : Grants)
    (hst : y.be.state = x.be.state) (hlog : y.log = x.log) (hlen : y.be.rowLenR = x.be.rowLenR)
    (hacc : y.mem.actBuf.beRdAcceptR = (x.be.actRdReq && g.act))
    (hp' : Scan cmd R (viewOf y) i (b + x.mem.actBuf.beRdAcceptR.toNat)) :
    rank cmd y < rank cmd x ∨ ∃ p, waitsOn x = some p ∧ g.port p = false ∧
      waitsOn y = some p ∧ rank cmd y = rank cmd x := by
  have hne : x.be.state ≠ .loadCfg := by rcases hscan with hs | hs <;> simp [hs]
  have hsteps : ∀ {z : Sys SoftmaxCtrl}, z.be.state = x.be.state → stepsLeft cmd z.be =
      2 * cmd.rowLen.toNat - (z.be.reqCntR.toNat + z.be.rcvCntR.toNat) := by
    intro z hz
    rcases hscan with hs | hs <;> simp [stepsLeft, hz, hs]
  have hrq : x.be.reqCntR.toNat = b + x.mem.actBuf.beRdAcceptR.toNat := hp.req
  have hrc : x.be.rcvCntR.toNat = b := hp.rcv
  have hrq' : y.be.reqCntR.toNat =
      b + x.mem.actBuf.beRdAcceptR.toNat + y.mem.actBuf.beRdAcceptR.toNat := hp'.req
  have hrc' : y.be.rcvCntR.toNat = b + x.mem.actBuf.beRdAcceptR.toNat := hp'.rcv
  have hle : x.be.reqCntR.toNat ≤ cmd.rowLen.toNat := hp.req_le
  have hle' : y.be.reqCntR.toNat ≤ cmd.rowLen.toNat := hp'.req_le
  cases hv : x.mem.actBuf.beRdAcceptR with
  | true =>
      rw [hv, Bool.toNat_true] at hrq hrq' hrc'
      refine .inl (rank_lt_of_steps hne hst hlog ?_)
      rw [hsteps hst, hsteps rfl]
      omega
  | false =>
      rw [hv, Bool.toNat_false] at hrq hrq' hrc'
      have hreq : x.be.actRdReq = true := by
        have hult : x.be.reqCntR.ult x.be.rowLenR = true := by
          rw [BitVec.ult_eq_decide, hr.loaded.rowLen]
          exact decide_eq_true (by omega)
        rcases hscan with hs | hs <;> simp [actRdReq, hs, hult]
      rw [hreq, Bool.true_and] at hacc
      cases hg : g.act with
      | true =>
          rw [hacc, hg, Bool.toNat_true] at hrq'
          refine .inl (rank_lt_of_steps hne hst hlog ?_)
          rw [hsteps hst, hsteps rfl]
          omega
      | false =>
          rw [hacc, hg, Bool.toNat_false] at hrq'
          have hopen : ∀ {z : Sys SoftmaxCtrl}, z.be.rowLenR = x.be.rowLenR →
              z.be.rcvCntR.toNat = b → z.be.rcvCntR ≠ z.be.rowLenR := by
            intro z hzl hz heq
            rw [heq, hzl, hr.loaded.rowLen] at hz
            omega
          refine .inr ⟨.act, ?_, hg, ?_, rank_eq hst hlog ?_⟩
          · rcases hscan with hs | hs <;> simp [waitsOn, hs, hv, hopen rfl hrc]
          · rcases hscan with hs | hs <;> simp [waitsOn, hst, hs, hacc, hg, hopen hlen hrc']
          · rw [hsteps hst, hsteps rfl]
            omega

/-- Every edge lowers the rank or waits for a held request. -/
theorem progress (h : Inv cmd m x) (hdone : x.be.state ≠ .done)
    (hidle : x.be.state ≠ .idle) (g : Grants) :
    rank cmd (x.step softmaxBackend cmd false g) < rank cmd x ∨
      ∃ p, waitsOn x = some p ∧ g.port p = false ∧
        waitsOn (x.step softmaxBackend cmd false g) = some p ∧
        rank cmd (x.step softmaxBackend cmd false g) = rank cmd x := by
  rcases h.phase with ⟨hs, hl, hcount, -, -⟩ | ⟨hs, hr, hp, hb, hd, hsum, hmax⟩ |
    @⟨i, b, hs, hr, hp, hmax, hsum⟩ | ⟨hs, he⟩ | ⟨hs, he, hv, hdata⟩ | ⟨hs, he, hk, hcnt, hdiv⟩ |
    ⟨hs, he, hquot⟩ | ⟨hs, -⟩ | ⟨hs, -⟩
  case loadCfg =>
    replace hs : x.be.state = .loadCfg := hs
    have hbe : x.be.step cmd false (rspOf g x) = _ := step_loadCfg hs
    have hst : (x.step softmaxBackend cmd false g).be.state = .findMax := by rw [be_step, hbe]
    have hlen : (x.step softmaxBackend cmd false g).log.length = x.log.length := by
      rw [log_step (by simp [hs])]
    replace hcount : x.log.length = 0 := hcount
    refine .inl (Prod.Lex.toLex_lt_toLex.mpr (.inl ?_))
    simp only [hs, hst, if_true, reduceCtorEq, if_false]
    omega
  case findMax =>
    replace hs : x.be.state = .findMax := hs
    have hlog' : (x.step softmaxBackend cmd false g).log = x.log := log_step (by simp [hs])
    cases hl : (rspOf g x).actRdRvalid && eqLast x.be.rcvCntR x.be.rowLenR with
    | false =>
        have hbe : x.be.step cmd false (rspOf g x) = _ := step_findMax hs hd hl
        exact scan_progress (.inl hs) hr hp hb g (by rw [be_step, hbe]) hlog'
          (by rw [be_step, hbe]) accept_step
          (hp.step h.next hr (.inl hs) (congrArg reqCntR hbe) (congrArg rcvCntR hbe))
    | true =>
        obtain ⟨hv, heq⟩ := Bool.and_eq_true_iff.mp hl
        have hbe : x.be.step cmd false (rspOf g x) = _ := step_findMax_last hs hd hv heq
        refine .inl (rank_lt_of_passes (by simp [hs]) ?_ hlog' ?_) <;> rw [be_step, hbe]
        · simp
        · simp [passesLeft, hs]
  case expSum =>
    replace hs : x.be.state = .expSum := hs
    have hlog' : (x.step softmaxBackend cmd false g).log = x.log := log_step (by simp [hs])
    by_cases hfull : x.be.rcvCntR = x.be.rowLenR
    · have hst : (x.step softmaxBackend cmd false g).be.state = .normRd := by
        rw [be_step]
        simp [step, stateNext, hs, hfull]
      refine .inl (rank_lt_of_passes (by simp [hs]) (by simp [hst]) hlog' ?_)
      simp [passesLeft, hs, hst]
    · have hbe : x.be.step cmd false (rspOf g x) = _ := step_expSum hs hfull
      have hblt : b < cmd.rowLen.toNat := by
        have hreq := hp.req
        have hle := hp.req_le
        have hne : b ≠ cmd.rowLen.toNat := by
          intro heq
          refine hfull (BitVec.eq_of_toNat_eq (hp.rcv.trans ?_))
          rw [heq, show x.be.rowLenR = _ from hr.loaded.rowLen]
        omega
      exact scan_progress (.inr hs) hr hp hblt g (by rw [be_step, hbe]) hlog'
        (by rw [be_step, hbe]) accept_step
        (hp.step h.next hr (.inr hs) (congrArg reqCntR hbe) (congrArg rcvCntR hbe))
  case normRd =>
    replace hs : x.be.state = .normRd := hs
    have hlog' : (x.step softmaxBackend cmd false g).log = x.log := log_step (by simp [hs])
    have hbe : x.be.step cmd false (rspOf g x) = _ := step_normRd hs he.quiet
    have hgnt : (rspOf g x).actRdGnt = g.act := by rw [rsp_gnt, actRdReq, hs, Bool.true_and]
    cases hg : g.act with
    | true =>
        have hst : (x.step softmaxBackend cmd false g).be.state = .normWait := by
          rw [be_step, hbe, hgnt, hg]
          rfl
        refine .inl (rank_lt_of_passes (by simp [hs]) (by simp [hst]) hlog' ?_)
        simp [passesLeft, hs, hst]
    | false =>
        have hst : (x.step softmaxBackend cmd false g).be.state = .normRd := by
          rw [be_step, hbe, hgnt, hg]
          rfl
        refine .inr ⟨.act, by simp [waitsOn, hs], hg, by simp [waitsOn, hst],
          rank_eq (hst.trans hs.symm) hlog' ?_⟩
        simp [stepsLeft, hs, hst]
  case normWait =>
    replace hs : x.be.state = .normWait := hs
    have hlog' : (x.step softmaxBackend cmd false g).log = x.log := log_step (by simp [hs])
    have hbe : x.be.step cmd false (rspOf g x) = _ := step_normWait hs he.quiet hv
    refine .inl (rank_lt_of_passes (by simp [hs]) ?_ hlog' ?_) <;> rw [be_step, hbe]
    · simp
    · simp [passesLeft, hs]
  case normDiv =>
    replace hs : x.be.state = .normDiv := hs
    replace hcnt : x.be.divCntR.toNat = _ := hcnt
    have hlog' : (x.step softmaxBackend cmd false g).log = x.log := log_step (by simp [hs])
    have hbe : x.be.step cmd false (rspOf g x) = _ := step_normDiv hs he.quiet
    by_cases hlast : x.be.divCntR = 23
    · have hst : (x.step softmaxBackend cmd false g).be.state = .normWr := by
        rw [be_step, hbe]
        exact if_pos hlast
      refine .inl (rank_lt_of_passes (by simp [hs]) (by simp [hst]) hlog' ?_)
      simp [passesLeft, hs, hst]
    · have hst : (x.step softmaxBackend cmd false g).be.state = .normDiv := by
        rw [be_step, hbe]
        exact if_neg hlast
      have hcnt' : (x.step softmaxBackend cmd false g).be.divCntR.toNat =
          x.be.divCntR.toNat + 1 := by
        rw [be_step, hbe]
        exact toNat_add_one (by omega)
      refine .inl (rank_lt_of_steps (by simp [hs]) (hst.trans hs.symm) hlog' ?_)
      simp only [stepsLeft, hs, hst, hcnt']
      omega
  case normWr =>
    replace hs : x.be.state = .normWr := hs
    have hgnt := rspOf_wr (g := g) hs
    have hlog' : (x.step softmaxBackend cmd false g).log = _ := log_step_wr hs
    cases hg : g.out with
    | false =>
        have hbe : x.be.step cmd false (rspOf g x) = _ :=
          step_normWr_hold hs he.quiet (by rw [hgnt, hg])
        rw [hg, if_neg Bool.false_ne_true] at hlog'
        refine .inr ⟨.out, by simp [waitsOn, hs], hg, ?_, rank_eq ?_ hlog' ?_⟩
        · simp [waitsOn, be_step, hbe, hs]
        · rw [be_step, hbe]
        · rw [be_step, hbe]
    | true =>
        rw [hg, if_pos rfl] at hlog'
        have hlen : x.log.length = _ := he.count
        have hlt := LoopNest.join_lt he.row.lt he.lt
        refine .inl (rank_lt_of_log (by simp [hs]) ?_ ?_ ?_)
        · rw [be_step]
          simp only [step, stateNext, hs]
          split <;> (try split) <;> (try split) <;> simp
        · rw [hlog', List.length_append, List.length_singleton]
          omega
        · rw [hlog', List.length_append, List.length_singleton]
          omega
  case done => exact absurd hs hdone
  case idle => exact absurd hs hidle

end Rank

/-! ## Running a command -/

section Performs

variable {cmd : SoftmaxCmd} {x : Sys SoftmaxCtrl} {gs : ℕ → Grants}

theorem inv_run (gs : ℕ → Grants) (hL : 0 < cmd.rowLen.toNat) (hrows : 0 < cmd.numRows.toNat)
    (hs : x.be.state = .idle) (hlog : x.log = []) (t : ℕ) :
    Inv cmd x.mem.act (softmaxBackend.run cmd gs x (t + 1)) :=
  run_induction softmaxBackend cmd gs _ (Inv.accept cmd hs hlog _)
    (fun g _ h ↦ h.step hL g hrows) t

theorem log_eq_of_done {m : BitVec 13 → Byte} {y : Sys SoftmaxCtrl} (h : Inv cmd m y)
    (hd : y.be.state = .done) : y.log = cmd.rowWise.runWrites m cmd.numRows.toNat := by
  refine h.log.eq_of_length ?_
  rw [RowWise.length_runWrites]
  exact h.phase.count_of_done hd

theorem not_idle_step {y : Sys SoftmaxCtrl} (h : y.be.state ≠ .idle) (hd : y.be.state ≠ .done)
    (g : Grants) : (y.step softmaxBackend cmd false g).be.state ≠ .idle := by
  rw [be_step]
  simp only [step, stateNext]
  split <;> (try split) <;> (try split) <;> (try split) <;> simp_all

/-- Under every fair schedule, and wherever the two regions lie, the command
performs the writes of its three passes. -/
theorem performs (hL : 0 < cmd.rowLen.toNat) (hrows : 0 < cmd.numRows.toNat)
    (hfair : FairGrants gs) (hs : x.be.state = .idle) (hlog : x.log = []) :
    softmaxBackend.Performs cmd gs x (cmd.rowWise.runWrites x.mem.act cmd.numRows.toNat) := by
  have hdone : ∀ y : Sys SoftmaxCtrl, softmaxBackend.done y.be = false ↔ y.be.state ≠ .done :=
    fun y ↦ decide_eq_false_iff_not
  refine .of_inv softmaxBackend cmd gs hlog (Inv cmd x.mem.act) (inv_run gs hL hrows hs hlog)
    (fun y h ↦ h.log) (fun y h hd ↦ log_eq_of_done h (of_decide_eq_true hd)) ?_
  refine exists_done softmaxBackend cmd gs wellFounded_lt hfair
    (fun y ↦ Inv cmd x.mem.act y ∧ y.be.state ≠ .idle) (rank cmd) waitsOn
    ⟨inv_run gs hL hrows hs hlog 0, ?_⟩
    (fun g y h hd ↦ ⟨h.1.step hL g hrows, not_idle_step h.2 ((hdone y).mp hd) g⟩)
    fun g y h hd ↦ progress h.1 ((hdone y).mp hd) h.2 g
  have hbe : x.be.step cmd true (rspOf (gs 0) x) = _ := step_accept hs
  rw [be_step, hbe]
  simp

/-- Some loop has no last value. -/
structure Endless (s : SoftmaxCtrl) : Prop where
  ne_idle : s.state ≠ .idle
  ne_done : s.state ≠ .done
  side : s.numRowsR = 0 ∨ s.rowLenR = 0

theorem Endless.step {s : SoftmaxCtrl} (h : Endless s) (rsp : BeRsp) :
    Endless (s.step cmd false rsp) := by
  have hrows : (s.step cmd false rsp).numRowsR = s.numRowsR := if_neg fun ha ↦ h.ne_idle ha.1
  have hlen : (s.step cmd false rsp).rowLenR = s.rowLenR := if_neg fun ha ↦ h.ne_idle ha.1
  have hst : (s.step cmd false rsp).state = s.stateNext false rsp := rfl
  have hlast : eqLast s.normIdxR s.rowLenR = true → eqLast s.rowR s.numRowsR = false := by
    rcases h.side with h0 | h0 <;> simp [h0]
  have hnext : s.stateNext false rsp ≠ .idle ∧ s.stateNext false rsp ≠ .done := by
    cases hs : s.state with
    | idle => exact absurd hs h.ne_idle
    | done => exact absurd hs h.ne_done
    | _ =>
        simp only [stateNext, hs]
        constructor <;> repeat' split
        all_goals simp_all
  refine ⟨hst ▸ hnext.1, hst ▸ hnext.2, ?_⟩
  rw [hrows, hlen]
  exact h.side

/-- A command ends unless it has no rows or no elements. -/
theorem ends_iff (hfair : FairGrants gs) (hs : x.be.state = .idle) (hlog : x.log = []) :
    softmaxBackend.Ends cmd gs x ↔ 0 < cmd.numRows.toNat ∧ 0 < cmd.rowLen.toNat := by
  constructor
  · intro h
    by_contra hside
    refine Backend.not_ends softmaxBackend cmd gs Endless ?_ ?_ (fun s rsp he ↦ he.step rsp)
      (fun s he ↦ decide_eq_false he.ne_done) h
    · exact decide_eq_false (by simp [hs])
    · have hbe : x.be.step cmd true (rspOf (gs 0) x) = _ := step_accept hs
      rw [be_step, hbe]
      refine ⟨by simp, by simp, ?_⟩
      rw [not_and_or, Nat.pos_iff_ne_zero, Nat.pos_iff_ne_zero, not_not, not_not] at hside
      exact hside.imp BitVec.eq_of_toNat_eq BitVec.eq_of_toNat_eq
  · rintro ⟨hrows, hL⟩
    obtain ⟨T, hT, -⟩ := (performs hL hrows hfair hs hlog).finish
    exact ⟨T, hT⟩

/-- The 32-bit sum never wraps. -/
theorem sum_lt (hL : 0 < cmd.rowLen.toNat) (hrows : 0 < cmd.numRows.toNat)
    (hs : x.be.state = .idle) (hlog : x.log = []) (t : ℕ)
    (hd : (softmaxBackend.run cmd gs x (t + 1)).be.expSumRvalidD = true) :
    (softmaxBackend.run cmd gs x (t + 1)).be.sumR.toNat +
      (softmaxBackend.run cmd gs x (t + 1)).be.expSumLutD.toNat < 2 ^ 32 :=
  (inv_run gs hL hrows hs hlog t).phase.sum_lt hd

theorem rowSum_rowMem (hv : cmd.rowWise.Valid) {m : BitVec 13 → Byte} {i : ℕ}
    (hi : i < cmd.numRows.toNat) : cmd.rowSum (cmd.rowWise.rowMem m i) i = cmd.rowSum m i :=
  congrArg Prod.snd (RowWise.stat_rowMem hv cmd.rowWise_local hi)

/-- During a division the divisor is the row's sum, which is not zero. -/
theorem divisor_eq (hv : cmd.rowWise.Valid) (hs : x.be.state = .idle) (hlog : x.log = []) (t : ℕ)
    (hst : (softmaxBackend.run cmd gs x t).be.state = .normDiv) :
    (softmaxBackend.run cmd gs x t).be.sumR.toNat =
        cmd.rowSum x.mem.act (softmaxBackend.run cmd gs x t).be.rowR.toNat ∧
      (softmaxBackend.run cmd gs x t).be.sumR ≠ 0 := by
  cases t with
  | zero => exact absurd (hs.symm.trans hst) (by simp)
  | succ t =>
      have he := (inv_run gs hv.rowLen_pos hv.numRows_pos hs hlog t).phase.of_normDiv hst
      have hsum : (softmaxBackend.run cmd gs x (t + 1)).be.sumR.toNat = _ :=
        he.sum.trans (rowSum_rowMem hv he.row.lt)
      refine ⟨hsum, fun hzero ↦ ?_⟩
      have hle := cmd.le_rowSum x.mem.act hv.rowLen_pos
      rw [hzero] at hsum
      exact absurd (hle _) (by rw [← hsum]; simp)

theorem numerAt_eq (hv : cmd.rowWise.Valid) {m : BitVec 13 → Byte} {i j : ℕ}
    (hi : i < cmd.numRows.toNat) (hj : j < cmd.rowLen.toNat) :
    numerAt cmd m i j = cmd.expAt m i j * 127 := by
  have hstat := RowWise.stat_rowMem (m := m) hv cmd.rowWise_local hi
  have hmax : cmd.rowMax (cmd.rowWise.rowMem m i) i = cmd.rowMax m i := congrArg Prod.fst hstat
  rw [numerAt, RowWise.readAt_eq hv hi hj, hmax]
  exact congrArg (· * 127) (cmd.expAt_eq m hj)

theorem out_readsOf (hv : cmd.rowWise.Valid) {m : BitVec 13 → Byte} {i j : ℕ}
    (hi : i < cmd.numRows.toNat) (hj : j < cmd.rowLen.toNat) :
    (readsOf cmd m).out cmd.rowLen.toNat i j = cmd.expAt m i j * 127 / cmd.rowSum m i := by
  have hnumer : (readsOf cmd m).numer cmd.rowLen.toNat i j = numerAt cmd m i j := rfl
  have hsum : (readsOf cmd m).sumUpTo cmd.rowLen.toNat i cmd.rowLen.toNat =
      cmd.rowSum (cmd.rowWise.rowMem m i) i := rfl
  rw [Reads.out, hnumer, hsum, numerAt_eq hv hi hj, rowSum_rowMem hv hi]

/-- When a division is over its quotient register holds the exact quotient. -/
theorem quotient_eq (hv : cmd.rowWise.Valid) (hs : x.be.state = .idle) (hlog : x.log = []) (t : ℕ)
    (hst : (softmaxBackend.run cmd gs x t).be.state = .normWr) :
    (softmaxBackend.run cmd gs x t).be.divQuotR.toNat =
        cmd.expAt x.mem.act (softmaxBackend.run cmd gs x t).be.rowR.toNat
          (softmaxBackend.run cmd gs x t).be.normIdxR.toNat * 127 /
          cmd.rowSum x.mem.act (softmaxBackend.run cmd gs x t).be.rowR.toNat ∧
      (softmaxBackend.run cmd gs x t).be.divQuotR.toNat ≤ 127 := by
  cases t with
  | zero => exact absurd (hs.symm.trans hst) (by simp)
  | succ t =>
      have hphase := (inv_run gs hv.rowLen_pos hv.numRows_pos hs hlog t).phase
      obtain ⟨he, hquot⟩ := hphase.quot_of_normWr hst
      have heq : (softmaxBackend.run cmd gs x (t + 1)).be.divQuotR.toNat = _ := hquot
      exact ⟨heq.trans (out_readsOf hv he.row.lt he.lt),
        heq.trans_le (Reads.out_le _ hv.rowLen_pos _ _)⟩

end Performs

/-- A softmax command under any fair schedule, in place or onto a disjoint
region: the normalised rows are written once each and nothing else is, and no
sum, divisor or quotient leaves its register. -/
theorem softmax_correct {cmd : SoftmaxCmd} {gs : ℕ → Grants} {x : Sys SoftmaxCtrl}
    (hv : cmd.rowWise.Valid) (hfair : FairGrants gs) (hs : x.be.state = .idle) (hlog : x.log = []) :
    softmaxBackend.Performs cmd gs x (cmd.writesOf x.mem.act) ∧
      ((cmd.writesOf x.mem.act).map Prod.fst).Nodup ∧
      (∀ t a, (∀ e < cmd.numRows.toNat * cmd.rowLen.toNat,
          a ≠ .ofNat 13 (cmd.outAddr.toNat + e)) →
        (softmaxBackend.run cmd gs x t).mem.act a = x.mem.act a) ∧
      (∀ t, (softmaxBackend.run cmd gs x t).mem.wt = x.mem.wt) ∧
      (∀ t, (softmaxBackend.run cmd gs x (t + 1)).be.expSumRvalidD = true →
        (softmaxBackend.run cmd gs x (t + 1)).be.sumR.toNat +
          (softmaxBackend.run cmd gs x (t + 1)).be.expSumLutD.toNat < 2 ^ 32) ∧
      (∀ t, (softmaxBackend.run cmd gs x t).be.state = .normDiv →
        (softmaxBackend.run cmd gs x t).be.sumR.toNat =
            cmd.rowSum x.mem.act (softmaxBackend.run cmd gs x t).be.rowR.toNat ∧
          (softmaxBackend.run cmd gs x t).be.sumR ≠ 0) ∧
      ∀ t, (softmaxBackend.run cmd gs x t).be.state = .normWr →
        (softmaxBackend.run cmd gs x t).be.divQuotR.toNat =
            cmd.expAt x.mem.act (softmaxBackend.run cmd gs x t).be.rowR.toNat
              (softmaxBackend.run cmd gs x t).be.normIdxR.toNat * 127 /
              cmd.rowSum x.mem.act (softmaxBackend.run cmd gs x t).be.rowR.toNat ∧
          (softmaxBackend.run cmd gs x t).be.divQuotR.toNat ≤ 127 := by
  have hL := hv.rowLen_pos
  have hrows := hv.numRows_pos
  have hperf := performs hL hrows hfair hs hlog
  rw [← tableWrites_eq, ← RowWise.runWrites_eq_tableWrites hv cmd.rowWise_local]
  refine ⟨hperf, RowWise.nodup_runWrites hv, fun t a ha ↦ ?_,
    fun t ↦ wt_run softmaxBackend cmd gs x t, sum_lt hL hrows hs hlog, divisor_eq hv hs hlog,
    quotient_eq hv hs hlog⟩
  rw [act_eq_store softmaxBackend cmd gs hlog]
  exact RowWise.store_of_isPrefix (hperf.sound t) ha

/-- Two rows of two elements, in place. -/
def inPlaceCmd : SoftmaxCmd := ⟨16, 16, 2, 2⟩

theorem softmax_correct_inPlace :
    softmaxBackend.Performs inPlaceCmd (fun _ ↦ .all)
      (.reset .reset (fun a ↦ a.setWidth 8) fun _ ↦ 0) [(16, 62), (17, 64), (18, 62), (19, 64)] :=
  (softmax_correct (x := .reset .reset (fun a ↦ a.setWidth 8) fun _ ↦ 0)
    (by constructor <;> decide) fairGrants_all rfl rfl).1

end SoftmaxCtrl

end LgNpu
