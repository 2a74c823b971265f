import LgNpu.Device.Device

/-!
# Interrupts

The pending latch of `npu_irq_ctrl` over whole runs of the device.  A clear
takes effect one cycle after its write is accepted, and then wins against an
event of the same cycle.
-/

namespace LgNpu

namespace Device

variable (x : Device) (i : DeviceIn)

/-- A completion or error pulse. -/
def event : Bool := x.core.beDone || x.dma.dmaDone || x.fe.decode.decodeErr

def irqOut : Bool := x.shell.irq

theorem pending_step : (x.step i).pending =
    if x.resetting || x.regs.irqClearR then false else x.pending || x.event := by
  change (if x.shell.resetting || x.regs.irqClearR then false
    else x.pending || x.core.beDone || x.dma.dmaDone || x.fe.decode.decodeErr) = _
  simp only [event, resetting, Bool.or_assoc]

variable {x i}

section Run

variable (x) (ins : ℕ → DeviceIn)

variable {x ins}

end Run

/-! ### A poll, and a clear that meets the end of a transfer -/

end Device

end LgNpu
