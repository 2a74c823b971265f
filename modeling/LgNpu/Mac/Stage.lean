import LgNpu.Mac.Units

/-!
# Tokens in the post-processing stages

A stage that holds a token holds entry `k` of some stream.  When its input
offers the entry after that, an edge keeps this true, with `k` advanced by what
has left: no token is lost, duplicated or overtaken.
-/

namespace LgNpu

variable {w : ℕ}

/-- The register holds entry `k` of the stream, if anything. -/
def PipelineReg.Holds (s : PipelineReg w) (f : ℕ → BitVec w) (k : ℕ) : Prop :=
  s.valid = true → s.data = f k

namespace PipelineReg

variable {s : PipelineReg w} {f : ℕ → BitVec w} {k : ℕ} {inData : BitVec w}
  {inValid outReady : Bool}

theorem Holds.step (h : s.Holds f k) (hin : inValid = true → inData = f (k + s.valid.toNat)) :
    (s.step inData inValid outReady).Holds f (k + (s.valid && outReady).toNat) := by
  intro hv
  cases hi : inValid <;> cases hs : s.valid <;> cases ho : outReady <;>
    simp_all [PipelineReg.step, inReady, PipelineReg.Holds]

theorem count_step (s : PipelineReg w) (inData : BitVec w) (inValid outReady : Bool) :
    (s.valid && outReady).toNat + (s.step inData inValid outReady).valid.toNat =
    s.valid.toNat + (inValid && s.inReady outReady).toNat := by
  cases hi : inValid <;> cases hs : s.valid <;> cases ho : outReady <;>
    simp [PipelineReg.step, inReady, hs]

theorem valid_step_of_ready (s : PipelineReg w) (inData : BitVec w) (inValid : Bool)
    (h : s.inReady outReady = true) : (s.step inData inValid outReady).valid = inValid := by
  cases hi : inValid <;> cases hs : s.valid <;> cases ho : outReady <;>
    simp_all [PipelineReg.step, inReady]

end PipelineReg

/-- The queue holds entries `k` and, in the spare, `k + 1`. -/
structure SkidBuffer.Holds (s : SkidBuffer w) (f : ℕ → BitVec w) (k : ℕ) : Prop where
  out : s.outValid = true → s.outData = f k
  skid : s.skidValid = true → s.outValid = true ∧ s.skidData = f (k + 1)

namespace SkidBuffer

variable {s : SkidBuffer w} {f : ℕ → BitVec w} {k : ℕ} {inData : BitVec w}
  {inValid outReady : Bool}

def count (s : SkidBuffer w) : ℕ := s.outValid.toNat + s.skidValid.toNat

theorem Holds.step (h : s.Holds f k) (inData : BitVec w) (inValid outReady : Bool)
    (hin : inValid = true → inData = f (k + s.count)) :
    (s.step inData inValid outReady).Holds f (k + (s.outValid && outReady).toNat) := by
  have hout := h.out
  have hskid := h.skid
  cases hi : inValid <;> cases hs : s.outValid <;> cases ho : outReady <;>
    cases hk : s.skidValid <;>
    simp_all [SkidBuffer.step, inReady, count] <;>
    constructor <;> simp_all

/-- The spare is used behind the output register only. -/
theorem spare_step (h : s.skidValid = true → s.outValid = true) (inData : BitVec w)
    (inValid outReady : Bool) : (s.step inData inValid outReady).skidValid = true →
      (s.step inData inValid outReady).outValid = true := by
  cases hi : inValid <;> cases hs : s.outValid <;> cases ho : outReady <;>
    cases hk : s.skidValid <;> simp_all [SkidBuffer.step, inReady]

theorem count_step (h : s.skidValid = true → s.outValid = true) (inData : BitVec w)
    (inValid outReady : Bool) :
    (s.outValid && outReady).toNat + (s.step inData inValid outReady).count =
      s.count + (inValid && s.inReady).toNat := by
  cases hi : inValid <;> cases hs : s.outValid <;> cases ho : outReady <;>
    cases hk : s.skidValid <;> simp_all [SkidBuffer.step, inReady, count]

theorem Holds.count_step (h : s.Holds f k) (inData : BitVec w) (inValid outReady : Bool) :
    (s.outValid && outReady).toNat + (s.step inData inValid outReady).count =
      s.count + (inValid && s.inReady).toNat :=
  SkidBuffer.count_step (fun hs ↦ (h.skid hs).1) inData inValid outReady

theorem Holds.outValid_eq (h : s.Holds f k) : s.outValid = decide (0 < s.count) := by
  have hskid := h.skid
  cases hs : s.outValid <;> cases hk : s.skidValid <;> simp_all [count]

end SkidBuffer

namespace ConvWriter

/-- The writer in its write state holds the address of entry `k`. -/
def HoldsAddr (s : ConvWriter) (addr : ℕ → Addr) (k : ℕ) : Prop :=
  s.state = .write → s.addrR = addr k

/-- The writer in its write state holds the byte of entry `k`. -/
def HoldsData (s : ConvWriter) (data : ℕ → Byte) (k : ℕ) : Prop :=
  s.state = .write → s.dataR = data k

variable {s : ConvWriter} {addr : ℕ → Addr} {data : ℕ → Byte} {k : ℕ} {outAddr : Addr}
  {inData : Byte} {inValid gnt : Bool}

/-- Entries the writer has yet to write, zero or one. -/
def pending (s : ConvWriter) : ℕ := if s.state = .write then 1 else 0

/-! The writer takes an entry, keeps it until it is granted, and then takes a
cycle off. -/

theorem HoldsAddr.step (h : s.HoldsAddr addr k) (inData : Byte) (gnt : Bool)
    (hin : inValid = true → outAddr = addr (k + s.pending)) :
    (s.step outAddr true inData inValid gnt).HoldsAddr addr (k + (s.memReq && gnt).toNat) := by
  intro hw
  cases hs : s.state <;> cases hi : inValid <;> cases hg : gnt <;>
    simp_all [ConvWriter.step, memReq, pending, HoldsAddr]

theorem HoldsData.step (h : s.HoldsData data k) (outAddr : Addr) (gnt : Bool)
    (hin : inValid = true → inData = data (k + s.pending)) :
    (s.step outAddr true inData inValid gnt).HoldsData data (k + (s.memReq && gnt).toNat) := by
  intro hw
  cases hs : s.state <;> cases hi : inValid <;> cases hg : gnt <;>
    simp_all [ConvWriter.step, memReq, pending, HoldsData]

theorem pending_step (s : ConvWriter) (outAddr : Addr) (inData : Byte) (inValid gnt : Bool) :
    (s.memReq && gnt).toNat +
    (s.step outAddr true inData inValid gnt).pending =
      s.pending + (inValid && s.inReady).toNat := by
  cases hs : s.state <;> cases hi : inValid <;> cases hg : gnt <;>
    simp [ConvWriter.step, memReq, pending, inReady, hs]

end ConvWriter

end LgNpu
