import LgNpu.Core.Course
import LgNpu.Device.Live
import LgNpu.Host.Bus

/-!
# The ideal device

Three memories and a command window.  A buffer write changes one entry, and a
doorbell executes the descriptor in the window at once.
-/

namespace LgNpu

namespace Sram

variable (s : Sram)

def load : SramLoc → MmioData
  | .wt i => (s.wt i).setWidth 32
  | .act i => (s.act i).setWidth 32
  | .psum i => s.psum i

def store (l : SramLoc) (d : MmioData) : Sram :=
  match l with
  | .wt i => { s with wt := Function.update s.wt i (d.setWidth 8) }
  | .act i => { s with act := Function.update s.act i (d.setWidth 8) }
  | .psum i => { s with psum := Function.update s.psum i d }

/-- What a descriptor asks for; one that does not decode asks for nothing. -/
def exec (d : BitVec 4 → MmioData) : Sram :=
  if badOpcode d then s
  else { s with
    act := LgNpu.store s.act (NpuCore.refWrites (dispatchTo (packCmd d).opcode)
      (beCmd (packCmd d) _) s.act s.wt) }

variable {s}

theorem exec_eq {d : BitVec 4 → MmioData} {b : BackendId} (h : (packCmd d).opcode = b.opcode) :
    s.exec d = { s with
      act := LgNpu.store s.act (NpuCore.refWrites b (beCmd (packCmd d) b) s.act s.wt) } := by
  have hgood : badOpcode d = false := by
    have hop : (d 0).setWidth 4 = b.opcode := h
    rw [badOpcode, hop]
    cases b <;> decide
  have hto : dispatchTo (packCmd d).opcode = b := by rw [h, dispatchTo_opcode]
  rw [exec, hgood, if_neg Bool.false_ne_true]
  subst hto
  rfl

end Sram

structure Ideal where
  sram : Sram
  window : BitVec 4 → MmioData
  /-- The doorbells rung. -/
  rung : ℕ

namespace Ideal

def step (m : Mmio) (a : Ideal) : Ideal where
  sram :=
    if m.rings then a.sram.exec a.window
    else if m.writes then (locate m.addr).elim a.sram (a.sram.store · m.wdata)
    else a.sram
  window :=
    if m.writes && m.isCmdQueue then Function.update a.window (windowIdx m.addr) m.wdata
    else a.window
  rung := a.rung + m.rings.toNat

def run (ms : ℕ → Mmio) (a : Ideal) : ℕ → Ideal := Clocked.run (fun t ↦ step (ms t)) a

end Ideal

/-! ## The buffers beside their contents -/

namespace NpuMemTop

variable (s : NpuMemTop) (q : BeReq)

theorem look_eq_load : s.look = s.contents.load := by
  funext l
  cases l <;> rfl

/-- Without a request the port is idle. -/
theorem step_of_not_req {h : HostReq} (hreq : h.req = false) : s.step h q = s.step .idle q := by
  cases hw : q.outWrReq <;> simp [step, NpuWeightBuffer.step, NpuActBuffer.step,
    NpuPsumBuffer.step, MemMacro1rw1r.step, MemMacro.step, HostReq.idle, hreq, hw]

variable {h : HostReq} {q}

theorem contents_step (hq : q.outWrReq = false) : (s.step h q).contents =
    if h.req && h.wr then (locate h.addr).elim s.contents (s.contents.store · h.wdata)
    else s.contents := by
  have hparts : (s.step h q).contents = ⟨(s.step h q).actBuf.sram.mem, (s.step h q).wtBuf.sram.mem,
      (s.step h q).psumBuf.sram.mem⟩ := rfl
  rw [hparts, wtMem_step, actMem_step s hq, psumMem_step]
  rcases locate_cases h.addr with ⟨-, hl, hw, ha, hp⟩ | ⟨hl, -, hw, ha, hp⟩ | ⟨hl, -, hw, ha, hp⟩ |
    ⟨hl, -, hw, ha, hp⟩ <;> rw [hl, hw, ha, hp] <;> cases h.req <;> cases h.wr <;> rfl

theorem psum_step : (s.step .idle q).psumBuf.sram.mem = s.psumBuf.sram.mem := by
  simp [psumMem_step, HostReq.idle]

end NpuMemTop

end LgNpu
