import LgNpu.Vec.Ctrl
import Mathlib.Data.Prod.Lex

/-!
# Runs of the vector controller

The operands are caught in the wait state only, so the two reads of an element
have to be granted together; then every element is written in turn.
-/

namespace LgNpu

namespace VecCmd

variable (cmd : VecCmd) (m : BitVec 13 → Byte) (w : BitVec 12 → Byte)

def resultOf (a b : Byte) : Byte :=
  VecCtrl.result
    { VecCtrl.reset with
      vecOpR := cmd.vecOp, qshiftR := cmd.quantShift, actModeR := cmd.actMode, aDataR := a,
      bDataR := b }

def aAt (i : ℕ) : Addr := cmd.aAddr + .ofNat 16 i

def bAt (i : ℕ) : Addr := cmd.bAddr + .ofNat 16 i

def outAt (i : ℕ) : Addr := cmd.outAddr + .ofNat 16 i

/-- The first `n` writes, each computed from what the ones before have left. -/
def runWrites (n : ℕ) : Writes :=
  WriteLog.program store (fun i m' ↦
    [(cmd.outAt i, cmd.resultOf (m' ((cmd.aAt i).setWidth 13)) (w ((cmd.bAt i).setWidth 12)))]) m n

theorem runWrites_succ (n : ℕ) : cmd.runWrites m w (n + 1) = cmd.runWrites m w n ++
    [(cmd.outAt n, cmd.resultOf (store m (cmd.runWrites m w n) ((cmd.aAt n).setWidth 13))
      (w ((cmd.bAt n).setWidth 12)))] := rfl

theorem length_runWrites (n : ℕ) : (cmd.runWrites m w n).length = n := by
  rw [runWrites, WriteLog.length_program (L := 1) _ _ _ fun _ _ ↦ rfl, Nat.mul_one]

end VecCmd

namespace VecCtrl

/-- The command as latched. -/
structure Loaded (cmd : VecCmd) (s : VecCtrl) : Prop where
  aBase : s.aBaseR = cmd.aAddr
  bBase : s.bBaseR = cmd.bAddr
  outBase : s.outBaseR = cmd.outAddr
  length : s.lengthR = cmd.length
  vecOp : s.vecOpR = cmd.vecOp
  qshift : s.qshiftR = cmd.quantShift
  actMode : s.actModeR = cmd.actMode

theorem Loaded.result_eq {cmd : VecCmd} {s : VecCtrl} (h : Loaded cmd s) :
    s.result = cmd.resultOf s.aDataR s.bDataR := by
  simp only [VecCmd.resultOf, ← h.vecOp, ← h.qshift, ← h.actMode]
  rfl

section

variable (cmd : VecCmd) (m : BitVec 13 → Byte) (w : BitVec 12 → Byte)

/-- The controller is at element `i`. -/
structure AtElem (x : Sys VecCtrl) (i : ℕ) : Prop where
  loaded : Loaded cmd x.be
  lt : i < cmd.length.toNat
  idx : x.be.idxR.toNat = i
  aAddr : x.be.aAddrR = cmd.aAt i
  bAddr : x.be.bAddrR = cmd.bAt i
  outAddr : x.be.outAddrR = cmd.outAt i
  log : x.log = cmd.runWrites m w i

inductive Phase : Sys VecCtrl → Prop
  | loadCfg {x} (hs : x.be.state = .loadCfg) (hl : Loaded cmd x.be) (hlog : x.log = []) : Phase x
  | read {x i} (hs : x.be.state = .read) (he : AtElem cmd m w x i) (ha : x.be.aGntR = false)
      (hb : x.be.bGntR = false) : Phase x
  | wait {x i} (hs : x.be.state = .wait) (he : AtElem cmd m w x i)
      (hva : x.mem.actBuf.beRdAcceptR = true) (hvb : x.mem.wtRvalid = true)
      (ha : x.mem.actBuf.sram.bRdata = store m (cmd.runWrites m w i) ((cmd.aAt i).setWidth 13))
      (hb : x.mem.wtBuf.sram.bRdata = w ((cmd.bAt i).setWidth 12)) : Phase x
  | write {x i} (hs : x.be.state = .write) (he : AtElem cmd m w x i)
      (ha : x.be.aDataR = store m (cmd.runWrites m w i) ((cmd.aAt i).setWidth 13))
      (hb : x.be.bDataR = w ((cmd.bAt i).setWidth 12)) : Phase x
  | done {x} (hs : x.be.state = .done) (hlog : x.log = cmd.runWrites m w cmd.length.toNat) : Phase x
  | idle {x} (hs : x.be.state = .idle) (hlog : x.log = cmd.runWrites m w cmd.length.toNat) : Phase x

structure Inv (x : Sys VecCtrl) : Prop where
  act : x.mem.act = store m x.log
  wt : x.mem.wt = w
  calm : x.mem.biasPendingR = false
  phase : Phase cmd m w x

end

/-! ## What one edge does to the system -/

section Edge

variable {cmd : VecCmd} {m : BitVec 13 → Byte} {w : BitVec 12 → Byte} {x : Sys VecCtrl} {g : Grants}
  {v : Bool} {i : ℕ}

def rspOf (g : Grants) (x : Sys VecCtrl) : BeRsp := x.mem.beRsp (x.granted vecBackend g)

theorem be_step : (x.step vecBackend cmd v g).be = x.be.step cmd v (rspOf g x) := rfl

theorem one_reader :
    ((x.granted vecBackend g).biasRdReq && (x.granted vecBackend g).wtRdReq) = false :=
  rfl

theorem log_step (hs : x.be.state ≠ .write) : (x.step vecBackend cmd v g).log = x.log := by
  simp [Sys.step, Sys.granted, BeReq.gate, BeReq.write, vecBackend, req, hs]

theorem log_step_write (hs : x.be.state = .write) : (x.step vecBackend cmd v g).log =
    if g.out then x.log ++ [(x.be.outAddrR, x.be.result)] else x.log := by
  cases hg : g.out <;>
    simp [Sys.step, Sys.granted, BeReq.gate, BeReq.write, vecBackend, req, hs, hg]

theorem act_step (h : x.mem.act = store m x.log) :
    (x.step vecBackend cmd v g).mem.act = store m (x.step vecBackend cmd v g).log := by
  rw [Sys.step, act_step_eq_store, h, store_append]

theorem rspOf_write (hs : x.be.state = .write) : (rspOf g x).outWrGnt = g.out := by
  simp [rspOf, NpuMemTop.beRsp, Sys.granted, BeReq.gate, vecBackend, req, hs]

theorem rspOf_read (hn : x.mem.biasPendingR = false) (hs : x.be.state = .read)
    (ha : x.be.aGntR = false) (hb : x.be.bGntR = false) :
    (rspOf g x).actRdGnt = g.act ∧ (rspOf g x).wtRdGnt = g.wt := by
  constructor
  · simp [rspOf, NpuMemTop.beRsp, Sys.granted, BeReq.gate, vecBackend, req, hs, ha]
  · refine (NpuMemTop.wtRdGnt_eq hn).trans ?_
    simp [Sys.granted, BeReq.gate, vecBackend, req, hs, hb]

end Edge

/-! ## One edge keeps the invariant -/

section Step

variable {cmd : VecCmd} {m : BitVec 13 → Byte} {w : BitVec 12 → Byte} {x : Sys VecCtrl} {g : Grants}
  {i : ℕ}

/-- An edge outside the write state stays at the same element. -/
theorem AtElem.of_step (he : AtElem cmd m w x i) (hs : x.be.state ≠ .write) {st : VecState}
    {ag bg av bv : Bool} {ad bd : Byte}
    (hbe : x.be.step cmd false (rspOf g x) =
      { x.be with
        state := st, aGntR := ag, bGntR := bg, aValR := av, bValR := bv, aDataR := ad,
        bDataR := bd }) :
    AtElem cmd m w (x.step vecBackend cmd false g) i := by
  obtain ⟨⟨h1, h2, h3, h4, h5, h6, h7⟩, hlt, hidx, ha, hb, hout, hlog⟩ := he
  refine ⟨⟨?_, ?_, ?_, ?_, ?_, ?_, ?_⟩, hlt, ?_, ?_, ?_, ?_, by rw [log_step hs, hlog]⟩ <;>
    rw [be_step, hbe] <;> assumption

theorem phase_loadCfg (hpos : 0 < cmd.length.toNat) (hs : x.be.state = .loadCfg)
    (hl : Loaded cmd x.be) (hlog : x.log = []) : Phase cmd m w (x.step vecBackend cmd false g) := by
  have hbe : x.be.step cmd false (rspOf g x) = _ := step_loadCfg hs
  have hzero : ∀ a : Addr, a = a + BitVec.ofNat 16 0 := fun a ↦ (BitVec.add_zero a).symm
  refine .read (i := 0) (by rw [be_step, hbe]) ⟨?_, hpos, ?_, ?_, ?_, ?_, ?_⟩ ?_ ?_
  · rw [be_step, hbe]
    exact ⟨hl.1, hl.2, hl.3, hl.4, hl.5, hl.6, hl.7⟩
  · rw [be_step, hbe]
    rfl
  · rw [be_step, hbe]
    exact hl.aBase.trans (hzero _)
  · rw [be_step, hbe]
    exact hl.bBase.trans (hzero _)
  · rw [be_step, hbe]
    exact hl.outBase.trans (hzero _)
  · rw [log_step (by simp [hs]), hlog]
    rfl
  · rw [be_step, hbe]
  · rw [be_step, hbe]

/-- Both reads are granted together. -/
theorem phase_read (hg : g.act = g.wt) (hact : x.mem.act = store m x.log) (hwt : x.mem.wt = w)
    (hn : x.mem.biasPendingR = false) (hs : x.be.state = .read) (he : AtElem cmd m w x i)
    (ha : x.be.aGntR = false) (hb : x.be.bGntR = false) :
    Phase cmd m w (x.step vecBackend cmd false g) := by
  obtain ⟨hga, hgb⟩ := rspOf_read (g := g) hn hs ha hb
  have hbe : x.be.step cmd false (rspOf g x) = _ := step_read hs
  have hat := he.of_step (by simp [hs]) hbe
  have hst : (x.step vecBackend cmd false g).be.state = if g.wt then .wait else .read := by
    rw [be_step, hbe, ha, hb, hga, hgb, hg]
    simp
  cases hw : g.wt with
  | true =>
      rw [hw] at hg hst
      have hreqA : (x.granted vecBackend g).actRdReq = true := by
        simp [Sys.granted, BeReq.gate, vecBackend, req, hs, ha, hg]
      have hreqB : (x.granted vecBackend g).wtRdReq = true := by
        simp [Sys.granted, BeReq.gate, vecBackend, req, hs, hb, hw]
      refine .wait hst hat hreqA ((NpuMemTop.wtRvalid_step hn one_reader).trans hreqB) ?_ ?_
      · refine (NpuMemTop.actRdRdata_step x.mem (x.granted vecBackend g) .idle).trans ?_
        rw [if_pos hreqA, hact, he.log]
        exact congrArg (fun a : Addr ↦ store m _ (a.setWidth 13)) he.aAddr
      · refine (NpuMemTop.wtRdata_step (h := .idle) hn one_reader hreqB).trans ?_
        rw [hwt]
        exact congrArg (fun a : Addr ↦ w (a.setWidth 12)) he.bAddr
  | false =>
      rw [hw] at hg hst hgb
      rw [hg] at hga
      refine .read hst hat ?_ ?_
      · rw [be_step, hbe, ha, hga]
        rfl
      · rw [be_step, hbe, hb, hgb]
        rfl

theorem phase_wait (hs : x.be.state = .wait) (he : AtElem cmd m w x i)
    (hva : x.mem.actBuf.beRdAcceptR = true) (hvb : x.mem.wtRvalid = true)
    (ha : x.mem.actBuf.sram.bRdata = store m (cmd.runWrites m w i) ((cmd.aAt i).setWidth 13))
    (hb : x.mem.wtBuf.sram.bRdata = w ((cmd.bAt i).setWidth 12)) :
    Phase cmd m w (x.step vecBackend cmd false g) := by
  have hbe : x.be.step cmd false (rspOf g x) = _ := step_wait hs
  have hra : (rspOf g x).actRdRvalid = true := hva
  have hrb : (rspOf g x).wtRdRvalid = true := hvb
  refine .write ?_ (he.of_step (by simp [hs]) hbe) ?_ ?_
  · rw [be_step, hbe, hra, hrb]
    simp
  · rw [be_step, hbe, hra]
    exact ha
  · rw [be_step, hbe, hrb]
    exact hb

/-- The write of element `i` extends the log by one entry. -/
theorem AtElem.log_succ (he : AtElem cmd m w x i)
    (ha : x.be.aDataR = store m (cmd.runWrites m w i) ((cmd.aAt i).setWidth 13))
    (hb : x.be.bDataR = w ((cmd.bAt i).setWidth 12)) :
    x.log ++ [(x.be.outAddrR, x.be.result)] = cmd.runWrites m w (i + 1) := by
  rw [he.log, he.outAddr, he.loaded.result_eq, ha, hb, VecCmd.runWrites_succ]

theorem phase_write (hs : x.be.state = .write) (he : AtElem cmd m w x i)
    (ha : x.be.aDataR = store m (cmd.runWrites m w i) ((cmd.aAt i).setWidth 13))
    (hb : x.be.bDataR = w ((cmd.bAt i).setWidth 12)) :
    Phase cmd m w (x.step vecBackend cmd false g) := by
  have hlog : (x.step vecBackend cmd false g).log = _ := log_step_write hs
  have hgnt := rspOf_write (g := g) hs
  have hlt := he.lt
  cases hg : g.out with
  | false =>
      have hbe : x.be.step cmd false (rspOf g x) = x.be := step_write_hold hs (by rw [hgnt, hg])
      rw [hg] at hlog
      have hbe' : (x.step vecBackend cmd false g).be = x.be := hbe
      refine .write (i := i) (hbe' ▸ hs) ⟨hbe' ▸ he.loaded, hlt, ?_, ?_, ?_, ?_, ?_⟩ ?_ ?_
      · rw [hbe', he.idx]
      · rw [hbe', he.aAddr]
      · rw [hbe', he.bAddr]
      · rw [hbe', he.outAddr]
      · rw [hlog, ← he.log]
        rfl
      · rw [hbe', ha]
      · rw [hbe', hb]
  | true =>
      rw [hg, if_pos rfl, he.log_succ ha hb] at hlog
      rw [hg] at hgnt
      have hbe : x.be.step cmd false (rspOf g x) = _ := step_write hs hgnt
      have hlast : eqLast x.be.idxR x.be.lengthR = true ↔ i + 1 = cmd.length.toNat := by
        rw [he.loaded.length, eqLast_iff (by omega), he.idx]
      have hnext : ∀ a : Addr, a + BitVec.ofNat 16 i + 1 = a + BitVec.ofNat 16 (i + 1) := fun a ↦ by
        rw [BitVec.ofNat_add, ← BitVec.add_assoc]
        rfl
      by_cases hl : i + 1 = cmd.length.toNat
      · refine .done ?_ (by rw [hlog, hl])
        rw [be_step, hbe, hlast.mpr hl]
        rfl
      · have hne : eqLast x.be.idxR x.be.lengthR = false :=
          Bool.eq_false_iff.mpr fun h ↦ hl (hlast.mp h)
        refine .read (i := i + 1) ?_ ⟨?_, by omega, ?_, ?_, ?_, ?_, hlog⟩ ?_ ?_
        · rw [be_step, hbe, hne]
          rfl
        · obtain ⟨h1, h2, h3, h4, h5, h6, h7⟩ := he.loaded
          rw [be_step, hbe]
          exact ⟨h1, h2, h3, h4, h5, h6, h7⟩
        · rw [be_step, hbe]
          exact toNat_succ_dim he.idx hlt
        · rw [be_step, hbe, he.aAddr]
          exact hnext _
        · rw [be_step, hbe, he.bAddr]
          exact hnext _
        · rw [be_step, hbe, he.outAddr]
          exact hnext _
        · rw [be_step, hbe]
        · rw [be_step, hbe]

theorem Inv.step (hpos : 0 < cmd.length.toNat) (h : Inv cmd m w x) (hg : g.act = g.wt) :
    Inv cmd m w (x.step vecBackend cmd false g) := by
  refine ⟨act_step h.act, (NpuMemTop.wt_step _ _).trans h.wt,
    NpuMemTop.biasPendingR_step h.calm one_reader, ?_⟩
  cases h.phase with
  | loadCfg hs hl hlog => exact phase_loadCfg hpos hs hl hlog
  | read hs he ha hb => exact phase_read hg h.act h.wt h.calm hs he ha hb
  | wait hs he hva hvb ha hb => exact phase_wait hs he hva hvb ha hb
  | write hs he ha hb => exact phase_write hs he ha hb
  | done hs hlog =>
      have hbe : x.be.step cmd false (rspOf g x) = _ := step_done hs
      exact .idle (by rw [be_step, hbe]) (by rw [log_step (by simp [hs]), hlog])
  | idle hs hlog =>
      have hbe : x.be.step cmd false (rspOf g x) = _ := step_idle hs
      exact .idle (by rw [be_step, hbe, hs]) (by rw [log_step (by simp [hs]), hlog])

/-- Accepting a command establishes the invariant, whatever the registers
held. -/
theorem Inv.accept (hs : x.be.state = .idle) (hlog : x.log = []) (hn : x.mem.biasPendingR = false)
    (g : Grants) : Inv cmd x.mem.act x.mem.wt (x.step vecBackend cmd true g) := by
  have hbe : x.be.step cmd true (rspOf g x) = _ := step_accept hs
  have hlog' : (x.step vecBackend cmd true g).log = [] := by rw [log_step (by simp [hs]), hlog]
  refine ⟨act_step (by simp [hlog]), NpuMemTop.wt_step _ _,
    NpuMemTop.biasPendingR_step hn one_reader, .loadCfg (by rw [be_step, hbe]) ?_ hlog'⟩
  rw [be_step, hbe]
  exact ⟨rfl, rfl, rfl, rfl, rfl, rfl, rfl⟩

end Step

end VecCtrl

end LgNpu
