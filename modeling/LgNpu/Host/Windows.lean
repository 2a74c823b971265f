import LgNpu.Memory
import LgNpu.Lib.WriteLog

/-!
# The buffer windows as one memory

Seen from the host port, the three buffers are one memory of SRAM entries: an
address selects at most one entry, a granted write stores what the entry can
hold, and a read is answered in the next cycle with the entry's value.
-/

namespace LgNpu

/-- An entry of one of the three buffers. -/
inductive SramLoc
  | wt (i : BitVec 12)
  | act (i : BitVec 13)
  | psum (i : BitVec 12)
  deriving DecidableEq, Inhabited

/-- The entry an address of the host port selects. -/
def locate (a : MmioAddr) : Option SramLoc :=
  if NpuMemTop.hostSelWt a then some (.wt (a.setWidth 12))
  else if NpuMemTop.hostSelAct a then some (.act (a.setWidth 13))
  else if NpuMemTop.hostSelPsum a then some (.psum (a.setWidth 12))
  else none

/-- What an entry keeps of a word: the weight and activation buffers hold
bytes. -/
def SramLoc.trim : SramLoc → MmioData → MmioData
  | psum _, d => d
  | _, d => (d.setWidth 8).setWidth 32

theorem locate_cases (a : MmioAddr) :
    (a.ult weightBufBase = true ∧ locate a = none ∧ NpuMemTop.hostSelWt a = false ∧
        NpuMemTop.hostSelAct a = false ∧ NpuMemTop.hostSelPsum a = false) ∨
      (locate a = some (.wt (a.setWidth 12)) ∧ a.ult weightBufBase = false ∧
        NpuMemTop.hostSelWt a = true ∧ NpuMemTop.hostSelAct a = false ∧
        NpuMemTop.hostSelPsum a = false) ∨
      (locate a = some (.act (a.setWidth 13)) ∧ a.ult weightBufBase = false ∧
        NpuMemTop.hostSelWt a = false ∧ NpuMemTop.hostSelAct a = true ∧
        NpuMemTop.hostSelPsum a = false) ∨
      (locate a = some (.psum (a.setWidth 12)) ∧ a.ult weightBufBase = false ∧
        NpuMemTop.hostSelWt a = false ∧ NpuMemTop.hostSelAct a = false ∧
        NpuMemTop.hostSelPsum a = true) := by
  have hw : a.ult weightBufBase = decide (a.toNat < 0x10000) := rfl
  have ha : a.ult actBufBase = decide (a.toNat < 0x20000) := rfl
  have hp : a.ult psumBufBase = decide (a.toNat < 0x30000) := rfl
  simp only [locate, NpuMemTop.hostSelWt, NpuMemTop.hostSelAct, NpuMemTop.hostSelPsum, hw, ha, hp]
  rcases Nat.lt_or_ge a.toNat 0x10000 with h₁ | h₁
  · have h₂ : a.toNat < 0x20000 := by omega
    have h₃ : a.toNat < 0x30000 := by omega
    simp [h₁, h₂, h₃]
  rcases Nat.lt_or_ge a.toNat 0x20000 with h₂ | h₂
  · have h₃ : a.toNat < 0x30000 := by omega
    simp [Nat.not_lt.mpr h₁, h₂, h₃]
  rcases Nat.lt_or_ge a.toNat 0x30000 with h₃ | h₃
  · simp [Nat.not_lt.mpr h₁, Nat.not_lt.mpr h₂, h₃]
  · simp [Nat.not_lt.mpr h₁, Nat.not_lt.mpr h₂, Nat.not_lt.mpr h₃]

theorem isSome_locate (a : MmioAddr) : (locate a).isSome = !a.ult weightBufBase := by
  rcases locate_cases a with ⟨h, hl, -⟩ | ⟨hl, h, -⟩ | ⟨hl, h, -⟩ | ⟨hl, h, -⟩ <;> rw [hl, h] <;> rfl

namespace HostReq

variable (h : HostReq)

def write? : Option (SramLoc × MmioData) :=
  if h.req && h.wr then (locate h.addr).map fun l ↦ (l, l.trim h.wdata) else none

def read? : Option SramLoc := if h.req && !h.wr then locate h.addr else none

end HostReq

namespace NpuMemTop

variable (s : NpuMemTop) (h : HostReq) (q : BeReq)

/-- The value of an entry, as the host port returns it. -/
def look : SramLoc → MmioData
  | .wt i => (s.wtBuf.sram.mem i).setWidth 32
  | .act i => (s.actBuf.sram.mem i).setWidth 32
  | .psum i => s.psumBuf.sram.mem i

variable {h q}

theorem hostGnt_eq (hq : q.outWrReq = false) (hreq : h.req = true) :
    hostGnt h q = (locate h.addr).isSome := by
  rcases locate_cases h.addr with ⟨-, hl, hw, ha, hp⟩ | ⟨hl, -, hw, ha, hp⟩ | ⟨hl, -, hw, ha, hp⟩ |
    ⟨hl, -, hw, ha, hp⟩ <;> simp [hostGnt, hl, hw, ha, hp, hq, hreq]

theorem hostGnt_of_not_req (hreq : h.req = false) : hostGnt h q = false := by
  simp [hostGnt, hreq]

theorem wtMem_step : (s.step h q).wtBuf.sram.mem =
    if (h.req && hostSelWt h.addr) && h.wr then
      Function.update s.wtBuf.sram.mem (h.addr.setWidth 12) (h.wdata.setWidth 8)
    else s.wtBuf.sram.mem := rfl

theorem actMem_step (hq : q.outWrReq = false) : (s.step h q).actBuf.sram.mem =
    if (h.req && hostSelAct h.addr) && h.wr then
      Function.update s.actBuf.sram.mem (h.addr.setWidth 13) (h.wdata.setWidth 8)
    else s.actBuf.sram.mem := by
  change (if (q.outWrReq || (h.req && hostSelAct h.addr)) &&
      (if q.outWrReq then true else (h.req && hostSelAct h.addr) && h.wr && !q.outWrReq) then
    Function.update s.actBuf.sram.mem (if q.outWrReq then q.outWrAddr.setWidth 13 else _)
      (if q.outWrReq then q.outWrData else _) else _) = _
  rw [hq]
  cases h.req <;> cases hostSelAct h.addr <;> cases h.wr <;> rfl

theorem psumMem_step : (s.step h q).psumBuf.sram.mem =
    if (h.req && hostSelPsum h.addr) && h.wr then
      Function.update s.psumBuf.sram.mem (h.addr.setWidth 12) h.wdata
    else s.psumBuf.sram.mem := rfl

/-- With no backend writing, one cycle of the host port writes the entry
addressed and nothing else. -/
theorem look_step (hq : q.outWrReq = false) :
    (s.step h q).look = WriteLog.replay s.look h.write?.toList := by
  have hwrite : h.write? = if h.req && h.wr then
      (locate h.addr).map fun l ↦ (l, l.trim h.wdata) else none := rfl
  funext l
  cases hreq : h.req with
  | false =>
      rw [hwrite, hreq]
      cases l <;> simp [look, wtMem_step, actMem_step s hq, psumMem_step, hreq]
  | true =>
      cases hwr : h.wr with
      | false =>
          rw [hwrite, hwr]
          cases l <;> simp [look, wtMem_step, actMem_step s hq, psumMem_step, hwr]
      | true =>
          rw [hwrite, hreq, hwr]
          rcases locate_cases h.addr with ⟨-, hl, hw, ha, hp⟩ | ⟨hl, -, hw, ha, hp⟩ |
            ⟨hl, -, hw, ha, hp⟩ | ⟨hl, -, hw, ha, hp⟩ <;> rw [hl] <;> cases l <;>
            simp [look, wtMem_step, actMem_step s hq, psumMem_step, hreq, hwr, hw, ha, hp,
              SramLoc.trim, Function.update_apply] <;> split <;> rfl

/-- A response is valid in the cycle after a read. -/
theorem rvalid_step (hq : q.outWrReq = false) (h' : HostReq) (q' : BeReq) :
    ((s.step h q).hostRsp h' q').rvalid = h.read?.isSome := by
  cases hreq : h.req <;> cases hwr : h.wr <;>
    rcases locate_cases h.addr with ⟨-, hl, hw, ha, hp⟩ | ⟨hl, -, hw, ha, hp⟩ |
      ⟨hl, -, hw, ha, hp⟩ | ⟨hl, -, hw, ha, hp⟩ <;>
    simp [hostRsp, step, HostReq.read?, NpuWeightBuffer.step, NpuActBuffer.step, NpuPsumBuffer.step,
      hreq, hwr, hl, hw, ha, hp, hq]

/-- It carries the value the entry had in the cycle of the read. -/
theorem rdata_step (hq : q.outWrReq = false) {l : SramLoc} (hr : h.read? = some l) (h' : HostReq)
    (q' : BeReq) : ((s.step h q).hostRsp h' q').rdata = s.look l := by
  have hreq : h.req = true ∧ h.wr = false := by
    cases hreq : h.req <;> cases hwr : h.wr <;> simp [HostReq.read?, hreq, hwr] at hr ⊢
  have hloc : locate h.addr = some l := by simpa [HostReq.read?, hreq.1, hreq.2] using hr
  rcases locate_cases h.addr with ⟨-, hl, hw, ha, hp⟩ | ⟨hl, -, hw, ha, hp⟩ | ⟨hl, -, hw, ha, hp⟩ |
    ⟨hl, -, hw, ha, hp⟩ <;> rw [hloc] at hl
  · exact absurd hl (Option.some_ne_none l)
  all_goals
    obtain rfl := Option.some.inj hl
    simp [look, hostRsp, step, NpuWeightBuffer.step, NpuActBuffer.step, NpuPsumBuffer.step,
      MemMacro1rw1r.step, MemMacro.step, hreq, hw, ha, hp, hq]

end NpuMemTop

end LgNpu
