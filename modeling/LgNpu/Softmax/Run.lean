import LgNpu.Softmax.Spec
import LgNpu.Softmax.Port

/-!
# Runs of the softmax controller

On the buffers the port answers from the activation SRAM, which holds its first
contents with the outputs so far written over them.  The invariant holds under
every schedule of grants and wherever the two regions lie.
-/

namespace LgNpu

namespace SoftmaxCtrl

open SoftmaxCmd

variable (cmd : SoftmaxCmd) (m : BitVec 13 → Byte)

/-- The values that the hardware's own order of reads and writes returns. -/
def readsOf : Reads where
  scan i j := int8At (cmd.rowWise.rowMem m i) (cmd.inIdx i j)
  last i j := cmd.rowWise.readAt m i j
  scan_ge _ _ := (int8At_bounds _ _).1

def numerAt (i j : ℕ) : ℕ :=
  expOf ((cmd.rowMax (cmd.rowWise.rowMem m i) i - cmd.rowWise.readAt m i j) % 256).toNat * 127

/-- The controller and the port it sees. -/
def viewOf (x : Sys SoftmaxCtrl) : PortView where
  ctl := x.be
  valid := x.mem.actBuf.beRdAcceptR
  data := x.mem.actBuf.sram.bRdata
  count := x.log.length

structure Inv (x : Sys SoftmaxCtrl) : Prop where
  act : x.mem.act = store m x.log
  log : x.log <+: cmd.rowWise.runWrites m cmd.numRows.toNat
  phase : Phase cmd (readsOf cmd m) (viewOf x)

/-! ## What one edge does to the system -/

section Edge

variable {cmd} {m} {x : Sys SoftmaxCtrl} {g : Grants} {v : Bool} {i j b : ℕ}

def rspOf (g : Grants) (x : Sys SoftmaxCtrl) : BeRsp := x.mem.beRsp (x.granted softmaxBackend g)

theorem be_step : (x.step softmaxBackend cmd v g).be = x.be.step cmd v (rspOf g x) := rfl

theorem rsp_gnt : (rspOf g x).actRdGnt = (x.be.actRdReq && g.act) := rfl

theorem accept_step : (x.step softmaxBackend cmd v g).mem.actBuf.beRdAcceptR =
    (x.be.actRdReq && g.act) := rfl

theorem bRdata_step (h : (x.be.actRdReq && g.act) = true) :
    (x.step softmaxBackend cmd v g).mem.actBuf.sram.bRdata =
      x.mem.act (x.be.actRdAddr.setWidth 13) := if_pos h

theorem rspOf_wr (hs : x.be.state = .normWr) : (rspOf g x).outWrGnt = g.out := by
  simp [rspOf, NpuMemTop.beRsp, Sys.granted, BeReq.gate, softmaxBackend, req, hs]

theorem log_step (hs : x.be.state ≠ .normWr) : (x.step softmaxBackend cmd v g).log = x.log := by
  simp [Sys.step, Sys.granted, BeReq.gate, BeReq.write, softmaxBackend, req, hs]

theorem log_step_wr (hs : x.be.state = .normWr) : (x.step softmaxBackend cmd v g).log =
    if g.out then x.log ++ [(x.be.rowBaseOutR + x.be.normIdxR, x.be.normResult)] else x.log := by
  cases hg : g.out <;>
    simp [Sys.step, Sys.granted, BeReq.gate, BeReq.write, softmaxBackend, req, hs, hg]

theorem act_step (h : x.mem.act = store m x.log) : (x.step softmaxBackend cmd v g).mem.act =
    store m (x.step softmaxBackend cmd v g).log := by
  rw [Sys.step, act_step_eq_store, h, store_append]

/-- The SRAM reads the byte at the low address bits. -/
theorem toInt_act (a : ℕ) : (m ((BitVec.ofNat 16 a).setWidth 13)).toInt = int8At m a := by
  rw [setWidth13_ofNat, int8At]

/-! ## The log at a count of outputs -/

theorem Inv.log_eq (h : Inv cmd m x) (hi : i < cmd.numRows.toNat) (hj : j ≤ cmd.rowLen.toNat)
    (hcount : (viewOf x).count = i * cmd.rowLen.toNat + j) : x.log = cmd.rowWise.logAt m i j := by
  have hlen : x.log.length = (cmd.rowWise.logAt m i j).length := by
    rw [RowWise.length_logAt]
    exact hcount
  have hpre := List.prefix_of_prefix_length_le h.log (cmd.rowWise.logAt_isPrefix m hi hj) hlen.le
  exact hpre.eq_of_length hlen

/-- The granted read fetches the element the controller asks for. -/
theorem Inv.answers (h : Inv cmd m x) (hg : (x.be.actRdReq && g.act) = true) :
    Answers (readsOf cmd m) x.be (x.step softmaxBackend cmd false g).mem.actBuf.sram.bRdata := by
  rw [bRdata_step hg]
  constructor
  · intro hscan
    obtain ⟨hr, hcount, haddr⟩ := h.phase.of_scanning hscan
    rw [show x.be.actRdAddr = _ from haddr.trans (hr.inAddr_add _), toInt_act, h.act,
      h.log_eq hr.lt (Nat.zero_le _) hcount, RowWise.logAt_zero]
    rfl
  · intro hs
    obtain ⟨he, haddr⟩ := h.phase.of_normRd hs
    rw [show x.be.actRdAddr = _ from haddr.trans (he.row.inAddr_add _), toInt_act, h.act,
      h.log_eq he.row.lt he.lt.le he.count]
    rfl

theorem Inv.next (h : Inv cmd m x) : (viewOf x).Next cmd (readsOf cmd m) (rspOf g x)
    (viewOf (x.step softmaxBackend cmd false g)) where
  valid := rfl
  data := rfl
  requested hg := (Bool.and_eq_true_iff.mp hg).1
  ctl_eq := rfl
  valid_eq := rfl
  answers := h.answers
  count_eq := by
    change (x.step softmaxBackend cmd false g).log.length = _
    by_cases hs : x.be.state = .normWr
    · rw [log_step_wr hs, rspOf_wr hs]
      cases hg : g.out <;> simp [viewOf, hs]
    · rw [log_step hs]
      simp [viewOf, hs]

/-- The log stays a prefix of the writes of the command. -/
theorem Inv.log_step (h : Inv cmd m x) (hL : 0 < cmd.rowLen.toNat) :
    (x.step softmaxBackend cmd false g).log <+: cmd.rowWise.runWrites m cmd.numRows.toNat := by
  by_cases hs : x.be.state = .normWr
  · cases hg : g.out with
    | false => simpa [log_step_wr hs, hg] using h.log
    | true =>
        obtain ⟨he, hres⟩ := h.phase.of_normWr hL hs
        have hnext : (x.step softmaxBackend cmd false g).log =
            cmd.rowWise.logAt m x.be.rowR.toNat (x.be.normIdxR.toNat + 1) := by
          rw [log_step_wr hs, if_pos hg, h.log_eq he.row.lt he.lt.le he.count,
            cmd.rowWise.logAt_succ, show x.be.normResult = _ from hres,
            show x.be.rowBaseOutR + x.be.normIdxR = _ from he.row.outAddr_add _]
          rfl
        rw [hnext]
        exact cmd.rowWise.logAt_isPrefix m he.row.lt he.lt
  · rw [SoftmaxCtrl.log_step hs]
    exact h.log

theorem Inv.step (hL : 0 < cmd.rowLen.toNat) (g : Grants) (hrows : 0 < cmd.numRows.toNat)
    (h : Inv cmd m x) : Inv cmd m (x.step softmaxBackend cmd false g) :=
  ⟨act_step h.act, h.log_step hL, h.phase.step hL hrows h.next⟩

end Edge

/-- Accepting a command in the idle state establishes the invariant, whatever
the registers held. -/
theorem Inv.accept {x : Sys SoftmaxCtrl} (hs : x.be.state = .idle) (hlog : x.log = [])
    (g : Grants) : Inv cmd x.mem.act (x.step softmaxBackend cmd true g) := by
  have hbe : x.be.step cmd true (rspOf g x) = _ := step_accept hs
  have hlog' : (x.step softmaxBackend cmd true g).log = [] := by
    rw [SoftmaxCtrl.log_step (by simp [hs]), hlog]
  refine ⟨act_step (by simp [hlog]), hlog' ▸ List.nil_prefix, .loadCfg ?_ ?_ ?_ ?_ ?_⟩
  · exact (congrArg SoftmaxCtrl.state hbe).trans rfl
  · change Loaded cmd (x.be.step cmd true (rspOf g x))
    rw [hbe]
    exact ⟨rfl, rfl, rfl, rfl⟩
  · exact congrArg List.length hlog'
  · change (x.step softmaxBackend cmd true g).mem.actBuf.beRdAcceptR = false
    rw [accept_step]
    simp [actRdReq, hs]
  · exact (congrArg SoftmaxCtrl.expSumRvalidD hbe).trans rfl

end SoftmaxCtrl

end LgNpu
