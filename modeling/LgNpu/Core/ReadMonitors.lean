import LgNpu.Core.ReadPort

/-!
# The monitors of the activation read port

Two monitors watch the port: `mem_req_rsp_props` with a single bit, `npu_core`
with a counter.  The counter follows every run.  An answer clears the bit even
in a cycle that grants the next read, so the bit follows only where no two
reads are granted in a row.
-/

namespace LgNpu

/-- `outstanding_r` of `mem_req_rsp_props` and `act_rd_outstanding_r` of
`npu_core`. -/
structure ReadMonitors where
  outstandingR : Bool
  actRdOutstandingR : BitVec 4

namespace ReadMonitors

def reset : ReadMonitors := ⟨false, 0⟩

def step (m : ReadMonitors) (req gnt rvalid : Bool) : ReadMonitors where
  -- The second assignment wins.
  outstandingR := if rvalid then false else if req && gnt then true else m.outstandingR
  actRdOutstandingR :=
    match req && gnt, rvalid with
    | true, false => m.actRdOutstandingR + 1
    | false, true => m.actRdOutstandingR - 1
    | _, _ => m.actRdOutstandingR

end ReadMonitors

/-- A row of two elements or more is asked for in consecutive cycles. -/
theorem SoftmaxCtrl.first_reads {s : SoftmaxCtrl} {cmd cmd' : SoftmaxCmd} {rsp rsp' : BeRsp}
    (hs : s.state = .idle) (hlen : 2 ≤ cmd.rowLen.toNat) :
    ((s.step cmd true rsp).step cmd' false rsp').actRdReq = true ∧
      ∀ cmd'' rsp'', rsp''.actRdGnt = true →
        (((s.step cmd true rsp).step cmd' false rsp').step cmd'' false rsp'').actRdReq = true := by
  have hmore : ∀ n : Dim, n.toNat < 2 → n.ult cmd.rowLen = true := fun n hn ↦ by
    rw [BitVec.ult_eq_decide, decide_eq_true_eq]
    omega
  have hlast : eqLast 0 cmd.rowLen = false := by
    refine Bool.eq_false_iff.mpr fun h ↦ ?_
    have hone := (eqLast_iff (x := 0) (by omega)).mp h
    rw [← hone] at hlen
    exact absurd hlen (by decide)
  obtain ⟨s', hs'⟩ : ∃ s', s' = (s.step cmd true rsp).step cmd' false rsp' := ⟨_, rfl⟩
  rw [step_accept hs, step_loadCfg rfl] at hs'
  have hfind : s'.state = .findMax := by rw [hs']
  have hreq : s'.reqCntR = 0 := by rw [hs']
  have hrcv : s'.rcvCntR = 0 := by rw [hs']
  have hrow : s'.rowLenR = cmd.rowLen := by rw [hs']
  have hcalm : s'.expSumRvalidD = false := by rw [hs']
  rw [step_accept hs, step_loadCfg rfl, ← hs']
  refine ⟨?_, fun cmd'' rsp'' hg ↦ ?_⟩
  · simp only [actRdReq, hfind, hreq, hrow]
    exact hmore 0 (by decide)
  · rw [step_findMax hfind hcalm (by rw [hrcv, hrow, hlast, Bool.and_false])]
    simp only [actRdReq, hfind, hreq, hrow, hg, hmore 0 (by decide), and_self, if_true]
    exact hmore 1 (by decide)

namespace NpuCore

variable (x : NpuCore)

def actRdGnt : Bool := (x.mem.beRsp x.memReq).actRdGnt

def actRdRvalid : Bool := (x.mem.beRsp x.memReq).actRdRvalid

def stepMonitors (m : ReadMonitors) : ReadMonitors :=
  m.step x.memReq.actRdReq x.actRdGnt x.actRdRvalid

def monitors (ins : ℕ → CoreIn) : ℕ → ReadMonitors :=
  Clocked.run (fun t m ↦ (x.run ins t).stepMonitors m) .reset

def aRspRequiresOutstanding (m : ReadMonitors) : Prop :=
  x.actRdRvalid = true → m.outstandingR = true

/-- The assertions of `npu_core` on its counter. -/
structure Counted (m : ReadMonitors) : Prop where
  outstanding : x.actRdRvalid = true → m.actRdOutstandingR ≠ 0
  unsaturated : m.actRdOutstandingR ≠ 15

structure Tracked (m : ReadMonitors) : Prop where
  bit : x.aRspRequiresOutstanding m
  counter : x.Counted m

variable {x} {act : BitVec 13 → Byte} {wt : BitVec 12 → Byte} {ins : ℕ → CoreIn}

theorem monitors_succ (t : ℕ) :
    x.monitors ins (t + 1) = (x.run ins t).stepMonitors (x.monitors ins t) := rfl

theorem actRdRvalid_succ (t : ℕ) :
    (x.run ins (t + 1)).actRdRvalid = (x.run ins t).memReq.actRdReq := rfl

/-- The buffer grants every read at once. -/
theorem actRdGnt_eq : x.actRdGnt = x.memReq.actRdReq := rfl

/-- The counter is the number of answers on the wires. -/
theorem counter_eq (t : ℕ) : ((reset act wt).monitors ins t).actRdOutstandingR =
    if ((reset act wt).run ins t).actRdRvalid then 1 else 0 := by
  induction t with
  | zero => rfl
  | succ t ih =>
      rw [monitors_succ, actRdRvalid_succ]
      simp only [stepMonitors, ReadMonitors.step, actRdGnt_eq, ih]
      cases ((reset act wt).run ins t).memReq.actRdReq <;>
        cases ((reset act wt).run ins t).actRdRvalid <;> rfl

theorem counted (t : ℕ) :
    ((reset act wt).run ins t).Counted ((reset act wt).monitors ins t) := by
  have hcount := @counter_eq act wt ins t
  constructor
  · intro hv
    rw [hcount, hv]
    decide
  · rw [hcount]
    split <;> decide

/-- The bit follows an answer exactly if its read was granted with no answer
on the wires. -/
theorem bit_succ_iff (t : ℕ) :
    ((reset act wt).run ins (t + 1)).aRspRequiresOutstanding
        ((reset act wt).monitors ins (t + 1)) ↔
      (((reset act wt).run ins t).memReq.actRdReq = true →
        ((reset act wt).run ins t).actRdRvalid = false) := by
  rw [aRspRequiresOutstanding, actRdRvalid_succ, monitors_succ]
  refine imp_congr_right fun hr ↦ ?_
  simp only [stepMonitors, ReadMonitors.step, actRdGnt_eq, hr]
  cases ((reset act wt).run ins t).actRdRvalid <;> simp

theorem tracked_iff_alone :
    (∀ t, ((reset act wt).run ins t).Tracked ((reset act wt).monitors ins t)) ↔
      ∀ t, ((reset act wt).run ins t).memReq.actRdReq = true →
        ((reset act wt).run ins t).actRdRvalid = false := by
  constructor
  · exact fun h t ↦ (bit_succ_iff t).mp (h (t + 1)).bit
  · intro h t
    refine ⟨?_, counted t⟩
    cases t with
    | zero => exact fun hv ↦ absurd hv Bool.false_ne_true
    | succ t => exact (bit_succ_iff t).mpr (h t)

/-! ## Softmax streams its reads -/

/-- A command on its way keeps the ports for the next two cycles. -/
theorem sched_step_of_wait (hs : x.sched.state = .wait) (i : CoreIn) :
    (x.step i).sched.state ≠ .issue := by
  cases hd : x.beDone <;> simp [NpuCore.step, NpuScheduler.step, hs, hd]

theorem reads_twice (h : x.accepts .softmax = true)
    (hlen : 2 ≤ (convToSoftmaxCmd x.sched.cmdR).rowLen.toNat) (i j k : CoreIn) :
    ((x.step i).step j).memReq.actRdReq = true ∧
      (((x.step i).step j).step k).memReq.actRdReq = true := by
  obtain ⟨hvalid, hready⟩ := Bool.and_eq_true_iff.mp h
  have hidle : (x.be .softmax).state = .idle := of_decide_eq_true hready
  have hvalid' := hvalid
  rw [cmdValid_eq, decide_eq_true_eq] at hvalid'
  obtain ⟨hs, hdispatch⟩ := hvalid'
  have hissued := issued hs i (by rwa [hdispatch])
  rw [hdispatch] at hissued
  have hquiet1 : (x.step i).sched.state ≠ .issue := by simp [hissued.wait]
  have hquiet2 := sched_step_of_wait hissued.wait j
  have hsel2 := (beSelR_step_of_quiet hquiet1 j).trans hissued.sel
  have hsel3 := (beSelR_step_of_quiet hquiet2 k).trans hsel2
  have hbe1 : (x.step i).be .softmax = (backend .softmax).step (x.be .softmax)
      (beCmd x.sched.cmdR .softmax) true (x.rsp .softmax) := by rw [be_step, hvalid]
  have hbe2 := (be_step_of_quiet hquiet1 j .softmax).trans (by rw [hbe1])
  have hbe3 := (be_step_of_quiet hquiet2 k .softmax).trans (by rw [hbe2])
  obtain ⟨h2, h3⟩ := @SoftmaxCtrl.first_reads _ _ (beCmd (x.step i).sched.cmdR .softmax)
    (x.rsp .softmax) ((x.step i).rsp .softmax) hidle hlen
  have hreq2 : ((x.step i).step j).memReq.actRdReq = true := by
    rw [memReq_of_sel hsel2, beReq, hbe2]
    exact h2
  refine ⟨hreq2, ?_⟩
  rw [memReq_of_sel hsel3, beReq, hbe3]
  apply h3
  rw [rsp, if_pos hsel2]
  exact hreq2

/-! ## Both monitors -/

/-- Whatever is queued and whatever the host does: both monitors hold in every
cycle exactly if no softmax command with two elements or more to a row is ever
taken. -/
theorem read_port_tracked_iff (act : BitVec 13 → Byte) (wt : BitVec 12 → Byte)
    (ins : ℕ → CoreIn) :
    (∀ t, ((reset act wt).run ins t).Tracked ((reset act wt).monitors ins t)) ↔
      ∀ t, ((reset act wt).run ins t).SingleRows := by
  rw [tracked_iff_alone]
  constructor
  · intro h t hacc
    by_contra hlen
    obtain ⟨h2, h3⟩ := reads_twice hacc (by omega) (ins t) (ins (t + 1)) (ins (t + 2))
    have hvalid : ((reset act wt).run ins (t + 3)).actRdRvalid = true := h2
    exact Bool.false_ne_true ((h (t + 3) h3).symm.trans hvalid)
  · exact fun h t ↦ (readInv_run h t).alone

/-- One row of two elements. -/
def softmaxPair : ConvCmd := { (0 : ConvCmd) with opcode := Opcode.opSoftmax, inH := 1, inW := 2 }

theorem not_tracked_softmaxPair :
    ¬∀ t, ((reset (fun _ ↦ 0) fun _ ↦ 0).run (fun _ ↦ ⟨softmaxPair, true, .idle⟩) t).Tracked
      ((reset (fun _ ↦ 0) fun _ ↦ 0).monitors (fun _ ↦ ⟨softmaxPair, true, .idle⟩) t) := by
  intro h
  have hvalid : ((reset (fun _ ↦ 0) fun _ ↦ 0).run
      (fun _ ↦ ⟨softmaxPair, true, .idle⟩) 5).actRdRvalid = true := by decide +kernel
  have hbit : ((reset (fun _ ↦ 0) fun _ ↦ 0).monitors
      (fun _ ↦ ⟨softmaxPair, true, .idle⟩) 5).outstandingR = false := by decide +kernel
  exact Bool.false_ne_true (hbit.symm.trans ((h 5).bit hvalid))

end NpuCore

end LgNpu
