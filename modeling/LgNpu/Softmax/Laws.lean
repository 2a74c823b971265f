import LgNpu.Softmax.Correct
import Mathlib.Algebra.BigOperators.Ring.Finset

/-!
# The laws of the rows softmax writes

`softmax_ctrl` on its own addresses 64 KiB.  Whatever memory answers its reads,
as long as a cell it has not written still holds its first value, the outputs
are those of the integer softmax of each row, and so obey its laws; rows of
every length up to `65535` are covered.  The buffers are one such memory.
-/

namespace LgNpu

namespace SoftmaxCmd

variable (cmd : SoftmaxCmd) (x : Addr → Byte)

/-- Element `j` of row `i` of a 64 KiB memory. -/
def elemAt (i j : ℕ) : ℤ := (x (.ofNat 16 (cmd.inAddr.toNat + i * cmd.rowLen.toNat + j))).toInt

/-- What softmax makes of it. -/
def outByte (i j : ℕ) : Byte := .ofNat 8 (SoftmaxRow.out (cmd.elemAt x i) cmd.rowLen.toNat j)

def entry (e : ℕ) : Addr × Byte :=
  (.ofNat 16 (cmd.outAddr.toNat + e), cmd.outByte x (e / cmd.rowLen.toNat) (e % cmd.rowLen.toNat))

/-- Positive sizes, and no output lands on an input that is still to be read. -/
structure ReadsFirst : Prop where
  numRows_pos : 0 < cmd.numRows.toNat
  rowLen_pos : 0 < cmd.rowLen.toNat
  ahead : ∀ e < cmd.numRows.toNat * cmd.rowLen.toNat, ∀ e' < e,
    BitVec.ofNat 16 (cmd.outAddr.toNat + e') ≠ .ofNat 16 (cmd.inAddr.toNat + e)

theorem elemAt_ge (i j : ℕ) : -128 ≤ cmd.elemAt x i j := BitVec.le_toInt _

variable {cmd}

/-- In place a row may have any length. -/
theorem ReadsFirst.of_inPlace (hrows : 0 < cmd.numRows.toNat) (hL : 0 < cmd.rowLen.toNat)
    (hsize : cmd.numRows.toNat * cmd.rowLen.toNat ≤ 65536) (h : cmd.inAddr = cmd.outAddr) :
    cmd.ReadsFirst := by
  refine ⟨hrows, hL, fun e he e' he' heq ↦ ?_⟩
  have hnat := congrArg BitVec.toNat heq
  simp only [h, BitVec.toNat_ofNat] at hnat
  omega

example : (⟨7, 7, 1, 65535⟩ : SoftmaxCmd).ReadsFirst :=
  .of_inPlace (by decide) (by decide) (by decide) rfl

theorem ReadsFirst.of_valid (hv : cmd.rowWise.Valid) : cmd.ReadsFirst := by
  refine ⟨hv.numRows_pos, hv.rowLen_pos, fun e he e' he' heq ↦ ?_⟩
  have hin : cmd.inAddr.toNat + cmd.numRows.toNat * cmd.rowLen.toNat ≤ 8192 := hv.inRange
  have hout : cmd.outAddr.toNat + cmd.numRows.toNat * cmd.rowLen.toNat ≤ 8192 := hv.outRange
  have hreg : cmd.inAddr.toNat = cmd.outAddr.toNat ∨
      cmd.inAddr.toNat + cmd.numRows.toNat * cmd.rowLen.toNat ≤ cmd.outAddr.toNat ∨
      cmd.outAddr.toNat + cmd.numRows.toNat * cmd.rowLen.toNat ≤ cmd.inAddr.toNat :=
    hv.regions.imp_left (congrArg _)
  have hnat := congrArg BitVec.toNat heq
  simp only [BitVec.toNat_ofNat] at hnat
  omega

end SoftmaxCmd

namespace SoftmaxCtrl

open SoftmaxCmd

/-! ## The controller on any memory -/

section Port

variable (cmd : SoftmaxCmd) (rsp : ℕ → BeRsp) (s : SoftmaxCtrl)

/-- The controller seeing `rsp t` in cycle `t`; the command is offered in
cycle 0. -/
def portRun : ℕ → SoftmaxCtrl := Clocked.run (fun t s ↦ s.step cmd (t == 0) (rsp t)) s

/-- The write granted in cycle `t`, if any. -/
def portWrite (t : ℕ) : Writes :=
  if (portRun cmd rsp s t).req.outWrReq && (rsp t).outWrGnt then
    [((portRun cmd rsp s t).req.outWrAddr, (portRun cmd rsp s t).req.outWrData)]
  else []

/-- The writes granted before cycle `t`. -/
def portWrites : ℕ → Writes
  | 0 => []
  | t + 1 => portWrites t ++ portWrite cmd rsp s t

/-- A read is granted only when asked for and answered in the next cycle; a
cell not written so far still holds its value in `x`. -/
structure Serves (x : Addr → Byte) : Prop where
  requested : ∀ t, (rsp t).actRdGnt = true → (portRun cmd rsp s t).actRdReq = true
  valid : ∀ t, (rsp (t + 1)).actRdRvalid = (rsp t).actRdGnt
  data : ∀ t, (rsp t).actRdGnt = true →
    (∀ w ∈ portWrites cmd rsp s t, w.1 ≠ (portRun cmd rsp s t).actRdAddr) →
      (rsp (t + 1)).actRdRdata = x (portRun cmd rsp s t).actRdAddr

variable {cmd rsp s} {x : Addr → Byte}

theorem portRun_succ (t : ℕ) :
    portRun cmd rsp s (t + 1) = (portRun cmd rsp s t).step cmd (t == 0) (rsp t) := rfl

variable (cmd x) in
/-- Each element is read at its first value. -/
def readsOnce : Reads where
  scan := cmd.elemAt x
  last := cmd.elemAt x
  scan_ge := cmd.elemAt_ge x

theorem out_readsOnce {i j : ℕ} (hj : j < cmd.rowLen.toNat) :
    (readsOnce cmd x).out cmd.rowLen.toNat i j =
      SoftmaxRow.out (cmd.elemAt x i) cmd.rowLen.toNat j := by
  have hmax : (readsOnce cmd x).rowMax cmd.rowLen.toNat i ≤ 127 :=
    SoftmaxRow.maxUpTo_le (by norm_num) fun k _ ↦ Int.le_of_lt_add_one (BitVec.toInt_lt (w := 8))
  rw [Reads.out, Reads.numer, show (readsOnce cmd x).last i j = (readsOnce cmd x).scan i j from rfl,
    Reads.wrap_eq hj hmax]
  rfl

variable (cmd rsp s) in
/-- The controller and the port it sees in cycle `t`. -/
def portView (t : ℕ) : PortView where
  ctl := portRun cmd rsp s t
  valid := (rsp t).actRdRvalid
  data := (rsp t).actRdRdata
  count := (portWrites cmd rsp s t).length

variable (cmd rsp s x) in
structure Served (t : ℕ) : Prop where
  phase : Phase cmd (readsOnce cmd x) (portView cmd rsp s t)
  le : (portWrites cmd rsp s t).length ≤ cmd.numRows.toNat * cmd.rowLen.toNat
  writes : portWrites cmd rsp s t =
    (List.range (portWrites cmd rsp s t).length).map (cmd.entry x)

variable (hread : cmd.ReadsFirst) (hserv : Serves cmd rsp s x)
include hread hserv

/-- The element asked for has not been overwritten. -/
theorem Served.data {t : ℕ} (h : Served cmd rsp s x t) (hg : (rsp t).actRdGnt = true) :
    (rsp (t + 1)).actRdRdata = x (portRun cmd rsp s t).actRdAddr := by
  obtain ⟨e, he, haddr, hcount⟩ := h.phase.of_actRdReq (hserv.requested t hg)
  refine hserv.data t hg fun w hw ↦ ?_
  rw [h.writes] at hw
  obtain ⟨e', he', rfl⟩ := List.mem_map.mp hw
  have hlt : e' < (portWrites cmd rsp s t).length := List.mem_range.mp he'
  exact haddr ▸ hread.ahead e he e' (hlt.trans_le hcount)

theorem Served.answers {t : ℕ} (h : Served cmd rsp s x t) (hg : (rsp t).actRdGnt = true) :
    Answers (readsOnce cmd x) (portRun cmd rsp s t) (rsp (t + 1)).actRdRdata := by
  rw [h.data hread hserv hg]
  constructor
  · intro hscan
    obtain ⟨hr, -, haddr⟩ := h.phase.of_scanning hscan
    rw [show (portRun cmd rsp s t).actRdAddr = _ from haddr.trans (hr.inAddr_add _)]
    rfl
  · intro hs
    obtain ⟨he, haddr⟩ := h.phase.of_normRd hs
    rw [show (portRun cmd rsp s t).actRdAddr = _ from haddr.trans (he.row.inAddr_add _)]
    rfl

theorem Served.next {t : ℕ} (h : Served cmd rsp s x (t + 1)) :
    (portView cmd rsp s (t + 1)).Next cmd (readsOnce cmd x) (rsp (t + 1))
      (portView cmd rsp s (t + 2)) where
  valid := rfl
  data := rfl
  requested := hserv.requested _
  ctl_eq := rfl
  valid_eq := hserv.valid _
  answers := h.answers hread hserv
  count_eq := by
    change (portWrites cmd rsp s (t + 1) ++ portWrite cmd rsp s (t + 1)).length = _
    rw [List.length_append, portWrite]
    cases hg : (rsp (t + 1)).outWrGnt <;>
      by_cases hs : (portRun cmd rsp s (t + 1)).state = .normWr <;> simp [portView, req, hs]

theorem Served.step {t : ℕ} (h : Served cmd rsp s x (t + 1)) : Served cmd rsp s x (t + 2) := by
  have hphase := h.phase.step hread.rowLen_pos hread.numRows_pos (h.next hread hserv)
  have hwrites : portWrites cmd rsp s (t + 2) =
      portWrites cmd rsp s (t + 1) ++ portWrite cmd rsp s (t + 1) := rfl
  by_cases hw : (portRun cmd rsp s (t + 1)).state = .normWr ∧ (rsp (t + 1)).outWrGnt = true
  · obtain ⟨hs, hg⟩ := hw
    obtain ⟨he, hres⟩ := h.phase.of_normWr hread.rowLen_pos hs
    have hcount : (portWrites cmd rsp s (t + 1)).length = _ := he.count
    have hentry : portWrite cmd rsp s (t + 1) =
        [cmd.entry x (portWrites cmd rsp s (t + 1)).length] := by
      have haddr : (portRun cmd rsp s (t + 1)).rowBaseOutR + (portRun cmd rsp s (t + 1)).normIdxR =
          _ := he.row.outAddr_add _
      rw [portWrite, entry, hcount, LoopNest.join_div he.lt, LoopNest.join_mod he.lt, outByte,
        ← out_readsOnce he.lt, ← Nat.add_assoc]
      simp only [req, hs, hg, decide_true, Bool.and_self, if_true]
      rw [haddr]
      exact congrArg (fun d ↦ [(_, d)]) hres
    rw [hentry] at hwrites
    refine ⟨hphase, ?_, ?_⟩
    · have hlt := LoopNest.join_lt he.row.lt he.lt
      rw [hwrites, List.length_append, List.length_singleton, hcount]
      exact hlt
    · rw [hwrites, List.length_append, List.length_singleton, List.range_succ, List.map_append,
        ← h.writes]
      rfl
  · have hnone : portWrite cmd rsp s (t + 1) = [] := by
      rw [portWrite, if_neg]
      simpa [req] using hw
    rw [hnone, List.append_nil] at hwrites
    exact ⟨hphase, hwrites ▸ h.le, hwrites ▸ h.writes⟩

theorem served (hs : s.state = .idle) (t : ℕ) : Served cmd rsp s x (t + 1) := by
  induction t with
  | zero =>
      have hnone : portWrites cmd rsp s 1 = [] := by
        simp [portWrites, portWrite, portRun, req, hs]
      have hbe : portRun cmd rsp s 1 = _ := step_accept hs
      refine ⟨.loadCfg ?_ ?_ ?_ ?_ ?_, ?_, ?_⟩
      · exact (congrArg state hbe).trans rfl
      · change Loaded cmd (portRun cmd rsp s 1)
        rw [hbe]
        exact ⟨rfl, rfl, rfl, rfl⟩
      · exact congrArg List.length hnone
      · refine (hserv.valid 0).trans (Bool.eq_false_iff.mpr fun hg ↦ ?_)
        exact absurd (hserv.requested 0 hg) (by simp [portRun, actRdReq, hs])
      · exact (congrArg expSumRvalidD hbe).trans rfl
      · simp [hnone]
      · simp [hnone]
  | succ t ih => exact ih.step hread hserv

end Port

/-! ## The laws -/

/-- Every INT8 output is in `[0, 127]`, larger inputs have larger outputs, the
outputs of a row sum to at most `127`, and shifting a row changes nothing. -/
theorem softmax_laws {cmd : SoftmaxCmd} {rsp : ℕ → BeRsp} {s : SoftmaxCtrl} {x : Addr → Byte}
    (hread : cmd.ReadsFirst) (hserv : Serves cmd rsp s x) (hs : s.state = .idle) :
    (∀ t, portWrites cmd rsp s t <+:
        (List.range (cmd.numRows.toNat * cmd.rowLen.toNat)).map (cmd.entry x)) ∧
      (∀ t, (portRun cmd rsp s t).state = .done → portWrites cmd rsp s t =
        (List.range (cmd.numRows.toNat * cmd.rowLen.toNat)).map (cmd.entry x)) ∧
      ∀ i < cmd.numRows.toNat,
        (∀ j < cmd.rowLen.toNat, 0 ≤ (cmd.outByte x i j).toInt ∧
          (cmd.outByte x i j).toInt ≤ 127) ∧
        (∀ j < cmd.rowLen.toNat, ∀ k < cmd.rowLen.toNat, cmd.elemAt x i j ≤ cmd.elemAt x i k →
          (cmd.outByte x i j).toInt ≤ (cmd.outByte x i k).toInt) ∧
        ((List.range cmd.rowLen.toNat).map fun j ↦ (cmd.outByte x i j).toInt).sum ≤ 127 ∧
        ∀ (x' : Addr → Byte) (c : ℤ),
          (∀ j < cmd.rowLen.toNat, cmd.elemAt x' i j = cmd.elemAt x i j + c) →
          ∀ j < cmd.rowLen.toNat, cmd.outByte x' i j = cmd.outByte x i j := by
  have hL := hread.rowLen_pos
  have hge := fun i j (_ : j < cmd.rowLen.toNat) ↦ cmd.elemAt_ge x i j
  have htoInt : ∀ i j, (cmd.outByte x i j).toInt =
      SoftmaxRow.out (cmd.elemAt x i) cmd.rowLen.toNat j := by
    intro i j
    have hle := SoftmaxRow.out_le hL (hge i) j
    rw [outByte, BitVec.toInt_eq_toNat_cond, BitVec.toNat_ofNat, Nat.mod_eq_of_lt (by omega),
      if_pos (by omega)]
  refine ⟨fun t ↦ ?_, fun t hdone ↦ ?_, fun i _ ↦ ⟨fun j _ ↦ ?_, fun j _ k _ hle ↦ ?_, ?_, ?_⟩⟩
  · cases t with
    | zero => exact List.nil_prefix
    | succ t =>
        have h := served hread hserv hs t
        rw [h.writes]
        exact WriteLog.map_range_isPrefix _ h.le
  · cases t with
    | zero => exact absurd (hs.symm.trans hdone) (by simp)
    | succ t =>
        have h := served hread hserv hs t
        have hcount : (portWrites cmd rsp s (t + 1)).length = _ := h.phase.count_of_done hdone
        rw [h.writes, hcount]
  · have hle := SoftmaxRow.out_le hL (hge i) j
    rw [htoInt]
    omega
  · have hmono := SoftmaxRow.out_mono (n := cmd.rowLen.toNat) hle
    rw [htoInt, htoInt]
    omega
  · have hsum := SoftmaxRow.sum_out_le hL (hge i)
    have hcast : ((List.range cmd.rowLen.toNat).map fun j ↦ (cmd.outByte x i j).toInt).sum =
        (((List.range cmd.rowLen.toNat).map
          (SoftmaxRow.out (cmd.elemAt x i) cmd.rowLen.toNat)).sum : ℕ) := by
      rw [Nat.cast_list_sum, List.map_map]
      exact congrArg List.sum (List.map_congr_left fun j _ ↦ htoInt i j)
    rw [hcast]
    omega
  · intro x' c hshift j hj
    rw [outByte, outByte,
      SoftmaxRow.out_shift hL (hge i) (fun k _ ↦ cmd.elemAt_ge x' i k) hshift hj]

/-! ## The buffers -/

section Buffers

variable {cmd : SoftmaxCmd} {gs : ℕ → Grants} {x : Sys SoftmaxCtrl}

theorem portRun_buffers (t : ℕ) :
    portRun cmd (fun t ↦ rspOf (gs t) (softmaxBackend.run cmd gs x t)) x.be t =
      (softmaxBackend.run cmd gs x t).be := by
  induction t with
  | zero => rfl
  | succ t ih => rw [portRun_succ, ih, run_succ, be_step]

theorem portWrites_buffers (hlog : x.log = []) (t : ℕ) :
    portWrites cmd (fun t ↦ rspOf (gs t) (softmaxBackend.run cmd gs x t)) x.be t =
      (softmaxBackend.run cmd gs x t).log := by
  induction t with
  | zero => exact hlog.symm
  | succ t ih =>
      rw [portWrites, ih, portWrite, portRun_buffers, run_succ, Sys.step]
      cases hg : (gs t).out <;>
        simp [rspOf, NpuMemTop.beRsp, Sys.granted, BeReq.gate, BeReq.write, softmaxBackend, req,
          hg]

/-- The activation SRAM serves every command whose regions lie inside it. -/
theorem serves_buffers (hv : cmd.rowWise.Valid) (hs : x.be.state = .idle) (hlog : x.log = []) :
    Serves cmd (fun t ↦ rspOf (gs t) (softmaxBackend.run cmd gs x t)) x.be
      fun a ↦ x.mem.act (a.setWidth 13) where
  requested t hg := by
    rw [portRun_buffers]
    exact (Bool.and_eq_true_iff.mp hg).1
  valid _ := rfl
  data t hg hnot := by
    rw [portRun_buffers] at hnot ⊢
    rw [portWrites_buffers hlog] at hnot
    have hdata : (softmaxBackend.run cmd gs x (t + 1)).mem.actBuf.sram.bRdata =
        (softmaxBackend.run cmd gs x t).mem.act
          ((softmaxBackend.run cmd gs x t).be.actRdAddr.setWidth 13) := bRdata_step hg
    refine hdata.trans ?_
    rw [act_eq_store softmaxBackend cmd gs hlog]
    cases t with
    | zero => exact congrArg (fun l ↦ store x.mem.act l _) hlog
    | succ t =>
        have hinv := inv_run gs hv.rowLen_pos hv.numRows_pos hs hlog t
        obtain ⟨q, hq, haddr, -⟩ := hinv.phase.of_actRdReq (Bool.and_eq_true_iff.mp hg).1
        replace haddr : (softmaxBackend.run cmd gs x (t + 1)).be.actRdAddr = _ := haddr
        refine store_of_notMem fun w hw hsame ↦ hnot w hw ?_
        have hmem := List.mem_map_of_mem (f := Prod.fst) (hinv.log.subset hw)
        rw [RowWise.map_fst_runWrites] at hmem
        obtain ⟨e, he, hwe⟩ := List.mem_map.mp hmem
        have hlt := List.mem_range.mp he
        have hin : cmd.inAddr.toNat + cmd.numRows.toNat * cmd.rowLen.toNat ≤ 8192 := hv.inRange
        have hout : cmd.outAddr.toNat + cmd.numRows.toNat * cmd.rowLen.toNat ≤ 8192 := hv.outRange
        change e < cmd.numRows.toNat * cmd.rowLen.toNat at hlt
        change BitVec.ofNat 16 (cmd.outAddr.toNat + e) = w.1 at hwe
        rw [haddr, ← hwe] at hsame ⊢
        have hnat := congrArg BitVec.toNat hsame
        simp only [BitVec.toNat_setWidth, BitVec.toNat_ofNat] at hnat
        congr 1
        omega

end Buffers

theorem softmax_laws_buffers :
    ((List.range 2).map fun j ↦
      (inPlaceCmd.outByte (fun a ↦ (a.setWidth 13).setWidth 8) 0 j).toInt).sum ≤ 127 :=
  have hv : inPlaceCmd.rowWise.Valid := by constructor <;> decide
  ((softmax_laws (.of_valid hv) (@serves_buffers _ (fun _ ↦ .all)
    (.reset .reset (fun a ↦ a.setWidth 8) fun _ ↦ 0) hv rfl rfl) rfl).2.2 0 (by decide)).2.2.1

end SoftmaxCtrl

end LgNpu
