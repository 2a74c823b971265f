import LgNpu.Core.NpuCore
import LgNpu.Host.Shell

/-!
# The device

`npu_shell` with everything in it: registers, command path, DMA and core.  The
values of the performance counters are inputs.
-/

namespace LgNpu

def NpuCmdFetch.busy (s : NpuCmdFetch) : Bool := s.state ≠ .idle

def NpuCmdDecode.busy (s : NpuCmdDecode) : Bool := s.state ≠ .idle

/-- One cycle of the host, of the external memory and of the counters. -/
structure DeviceIn where
  host : Mmio
  ext : ExtRsp
  perfCycles : MmioData
  perfActive : MmioData
  perfStall : MmioData

/-- The reset of the core, whose buffers keep their contents. -/
def NpuCore.clear (x : NpuCore) : NpuCore where
  sched := .reset
  be b := beClear b (x.be b)
  beSelR := 0
  mem := x.mem.clear

structure Device where
  rst : NpuResetCtrl
  regs : NpuCtrlRegs
  pending : Bool
  dma : NpuDmaFrontend
  fe : FrontEnd
  core : NpuCore

namespace Device

/-- Out of reset; the storages are not reset. -/
def reset (cmdMem : BitVec 4 → MmioData) (queueMem : BitVec 2 → ConvCmd)
    (act : BitVec 13 → Byte) (wt : BitVec 12 → Byte) : Device :=
  ⟨⟨false, false⟩, .reset, false, .reset, .reset cmdMem queueMem, .reset act wt⟩

variable (x : Device) (i : DeviceIn)

/-- What `npu_status` and `npu_irq_ctrl` see. -/
def wires : CoreWires where
  be := x.core.memReq
  beBusy := x.core.beBusy
  queueEmpty := x.fe.queue.empty
  queueFull := x.fe.queue.full
  cmdPipeBusy := x.fe.fetch.busy || x.fe.decode.busy
  cmdDone := x.core.beDone
  decodeErr := x.fe.decode.decodeErr
  perfCycles := i.perfCycles
  perfActive := i.perfActive
  perfStall := i.perfStall

/-- The host side, with the buffers of the core. -/
def shell : NpuShell := ⟨x.rst, x.regs, x.pending, x.dma, x.core.mem⟩

def shellIn : ShellIn := ⟨i.host, i.ext, x.wires i⟩

def resetting : Bool := x.shell.resetting

/-- The port of the core: the queue's output and the buffer port. -/
def coreIn : CoreIn := ⟨x.fe.queue.rdData, x.fe.queue.rdValid, x.shell.bufPort (x.shellIn i)⟩

def mmioRdata : MmioData := x.shell.mmioRdata (x.shellIn i)

def step : Device :=
  let y := x.shell.step (x.shellIn i)
  { rst := y.rst
    regs := y.regs
    pending := y.pending
    dma := y.dma
    fe :=
      let z := x.fe.step i.host x.core.sched.queueReady
      if x.resetting then .reset z.regs.cmdMem z.queue.mem else z
    core := if x.resetting then (x.core.step (x.coreIn i)).clear else x.core.step (x.coreIn i) }

def run (ins : ℕ → DeviceIn) : ℕ → Device := Clocked.run (fun t x ↦ step x (ins t)) x

theorem run_succ (ins : ℕ → DeviceIn) (t : ℕ) : x.run ins (t + 1) = (x.run ins t).step (ins t) :=
  rfl

variable {x i}

theorem core_step (h : x.resetting = false) : (x.step i).core = x.core.step (x.coreIn i) :=
  if_neg (Bool.eq_false_iff.mp h)

theorem fe_step (h : x.resetting = false) :
    (x.step i).fe = x.fe.step i.host x.core.sched.queueReady :=
  if_neg (Bool.eq_false_iff.mp h)

theorem core_step_resetting (h : x.resetting = true) :
    (x.step i).core = (x.core.step (x.coreIn i)).clear := if_pos h

/-- The buffers are the same from both sides. -/
theorem shell_step : (x.step i).shell = x.shell.step (x.shellIn i) := by
  have hmem : (x.step i).core.mem = (x.shell.step (x.shellIn i)).mem := by
    cases hr : x.resetting with
    | true =>
        rw [core_step_resetting hr]
        exact (if_pos hr).symm
    | false =>
        rw [core_step hr]
        exact (if_neg (Bool.eq_false_iff.mp hr)).symm
  rw [shell, hmem]
  rfl

end Device

end LgNpu
