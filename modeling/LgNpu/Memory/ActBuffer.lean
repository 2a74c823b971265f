import LgNpu.Memory
import LgNpu.Lib.AtomicMemory

/-!
# The activation buffer as one atomic memory

`npu_act_buffer` serves the host, the backend reader and the backend writer
from one read/write port and one read port.  Whatever they ask for and when,
the operations it grants take effect one at a time: those of a cycle after
those of the cycles before, its reads before its write.
-/

namespace LgNpu

open AtomicMemory

/-- The inputs of `npu_act_buffer` in one cycle. -/
structure ActPins where
  hostAddr : BitVec 13
  hostWdata : Byte
  hostWe : Bool
  hostReq : Bool
  beRdAddr : BitVec 13
  beRdReq : Bool
  beWrAddr : BitVec 13
  beWrData : Byte
  beWrReq : Bool

namespace ActPins

variable (p : ActPins)

def beWrGnt : Bool := p.beWrReq

def beRdGnt : Bool := p.beRdReq

def hostGnt : Bool := p.hostReq && !p.beWrReq

end ActPins

namespace NpuActBuffer

def edge (s : NpuActBuffer) (p : ActPins) : NpuActBuffer :=
  s.step p.hostAddr p.hostWdata p.hostWe p.hostReq p.beRdAddr p.beRdReq p.beWrAddr p.beWrData
    p.beWrReq

def reset (m : BitVec 13 → Byte) : NpuActBuffer := ⟨⟨m, 0, 0⟩, false, false⟩

variable (s : NpuActBuffer)

def hostRdata : Byte := s.sram.aRdata

def hostRvalid : Bool := s.hostRdAcceptR

def beRdRdata : Byte := s.sram.bRdata

def beRdRvalid : Bool := s.beRdAcceptR

/-! ## The operations and their answers -/

inductive Requester
  | host | backend
  deriving DecidableEq

/-- The granted operations of a cycle, the reads first. -/
def granted (p : ActPins) : List (Op Requester (BitVec 13) Byte) :=
  (if p.beRdGnt then [.read .backend p.beRdAddr] else []) ++
  (if p.hostGnt && !p.hostWe then [.read .host p.hostAddr] else []) ++
  (if p.hostGnt && p.hostWe then [.write .host p.hostAddr p.hostWdata] else []) ++
  (if p.beWrGnt then [.write .backend p.beWrAddr p.beWrData] else [])

def responses : List (Requester × Byte) :=
  (if s.beRdRvalid then [(.backend, s.beRdRdata)] else []) ++
  (if s.hostRvalid then [(.host, s.hostRdata)] else [])

variable (p : ActPins)

theorem mem_edge : (s.edge p).sram.mem = exec s.sram.mem (granted p) := by
  cases hrd : p.beRdReq <;> cases hwr : p.beWrReq <;> cases hq : p.hostReq <;>
    cases hwe : p.hostWe <;>
    simp [edge, step, MemMacro1rw1r.step, granted, ActPins.hostGnt, ActPins.beRdGnt,
      ActPins.beWrGnt, Op.effect, hrd, hwr, hq, hwe]

theorem responses_edge : (s.edge p).responses = answers s.sram.mem (granted p) := by
  cases hrd : p.beRdReq <;> cases hwr : p.beWrReq <;> cases hq : p.hostReq <;>
    cases hwe : p.hostWe <;>
    simp [edge, step, MemMacro1rw1r.step, responses, hostRvalid, hostRdata, beRdRvalid,
      beRdRdata, granted, ActPins.hostGnt, ActPins.beRdGnt, ActPins.beWrGnt, Op.effect,
      Op.answer, hrd, hwr, hq, hwe]

theorem implements (pins : ℕ → ActPins) :
    Implements (fun t s ↦ s.edge (pins t)) (fun s ↦ s.sram.mem) responses
      (fun t _ ↦ granted (pins t)) where
  contents_step t s := s.mem_edge (pins t)
  rsps_step t s := s.responses_edge (pins t)

/-- A host request that is not granted is as good as none. -/
theorem edge_of_not_hostGnt (h : p.hostGnt = false) :
    s.edge p = s.edge { p with hostReq := false } := by
  cases hwr : p.beWrReq <;> cases hq : p.hostReq <;>
    simp_all [edge, step, ActPins.hostGnt]

/-! ## Runs -/

def run (m : BitVec 13 → Byte) (pins : ℕ → ActPins) : ℕ → NpuActBuffer :=
  Clocked.run (fun t s ↦ s.edge (pins t)) (reset m)

/-- The operations granted in cycles `0, …, t - 1`. -/
def grantedBefore (pins : ℕ → ActPins) (t : ℕ) : List (Op Requester (BitVec 13) Byte) :=
  (List.range t).flatMap fun u ↦ granted (pins u)

def responsesUpTo (m : BitVec 13 → Byte) (pins : ℕ → ActPins) (t : ℕ) :
    List (Requester × Byte) :=
  (List.range t).flatMap fun u ↦ (run m pins (u + 1)).responses

/-- The buffer with contents `m` out of reset is one byte memory under the
requests `pins`. -/
structure AtomicUnder (m : BitVec 13 → Byte) (pins : ℕ → ActPins) : Prop where
  contents : ∀ t, (run m pins t).sram.mem = exec m (grantedBefore pins t)
  answered : ∀ t, responsesUpTo m pins t = answers m (grantedBefore pins t)
  quiet_zero : (run m pins 0).responses = []
  beRd_granted : ∀ t, (pins t).beRdGnt = (pins t).beRdReq
  beWr_granted : ∀ t, (pins t).beWrGnt = (pins t).beWrReq
  host_ungranted : ∀ t, (pins t).hostGnt = false →
    run m pins (t + 1) = (run m pins t).edge { pins t with hostReq := false } ∧
      (run m pins (t + 1)).hostRvalid = false
  beRd_response : ∀ t, (run m pins (t + 1)).beRdRvalid = (pins t).beRdGnt ∧
    ((pins t).beRdGnt = true →
      (run m pins (t + 1)).beRdRdata = (run m pins t).sram.mem (pins t).beRdAddr)
  host_response : ∀ t,
    (run m pins (t + 1)).hostRvalid = ((pins t).hostGnt && !(pins t).hostWe) ∧
    ((pins t).hostGnt = true → (pins t).hostWe = false →
      (run m pins (t + 1)).hostRdata = (run m pins t).sram.mem (pins t).hostAddr)

theorem beRdRdata_edge (h : p.beRdGnt = true) :
    (s.edge p).beRdRdata = s.sram.mem p.beRdAddr :=
  if_pos h

theorem hostRvalid_edge : (s.edge p).hostRvalid = (p.hostGnt && !p.hostWe) := by
  cases hwr : p.beWrReq <;> cases hq : p.hostReq <;> cases hwe : p.hostWe <;>
    simp [edge, step, hostRvalid, ActPins.hostGnt, hwr, hq, hwe]

theorem hostRdata_edge (h : p.hostGnt = true) (hwe : p.hostWe = false) :
    (s.edge p).hostRdata = s.sram.mem p.hostAddr := by
  rw [ActPins.hostGnt, Bool.and_eq_true, Bool.not_eq_true'] at h
  simp [edge, step, MemMacro1rw1r.step, hostRdata, h.1, h.2, hwe]

/-- Every granted operation takes effect exactly once, in its grant cycle, and
every granted read is answered in the next. -/
theorem atomic (m : BitVec 13 → Byte) (pins : ℕ → ActPins) : AtomicUnder m pins where
  contents := (implements pins).contents_run (reset m)
  answered := (implements pins).shown_run (reset m)
  quiet_zero := rfl
  beRd_granted _ := rfl
  beWr_granted _ := rfl
  host_ungranted t h := by
    have hvalid := (run m pins t).hostRvalid_edge (pins t)
    rw [h] at hvalid
    exact ⟨(run m pins t).edge_of_not_hostGnt (pins t) h, hvalid⟩
  beRd_response t := ⟨rfl, (run m pins t).beRdRdata_edge (pins t)⟩
  host_response t :=
    ⟨(run m pins t).hostRvalid_edge (pins t), (run m pins t).hostRdata_edge (pins t)⟩

end NpuActBuffer

end LgNpu
