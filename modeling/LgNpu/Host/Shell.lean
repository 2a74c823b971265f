import LgNpu.Host.FrontEnd
import LgNpu.Dma.Engine
import LgNpu.Lib.Clocked
import Mathlib.Data.List.Infix

/-!
# The host side of the shell

The control, interrupt and DMA registers of `npu_reg_block` with its response
mux, `npu_irq_ctrl`, `npu_reset_ctrl`, and their wiring to the DMA front end
and the buffers in `npu_shell`.  The wires of the command path and of the core
are inputs.
-/

namespace LgNpu

def regIrqStatus : MmioAddr := 0x000C
def regIrqEnable : MmioAddr := 0x0010
def regIrqClear : MmioAddr := 0x0014
def regFeatureId : MmioAddr := 0x0018
def regPerfCycles : MmioAddr := 0x0020
def regPerfActive : MmioAddr := 0x0024
def regPerfStall : MmioAddr := 0x0028
def regDmaExtAddr : MmioAddr := 0x0030
def regDmaLocAddr : MmioAddr := 0x0034
def regDmaLen : MmioAddr := 0x0038
def regDmaCtrl : MmioAddr := 0x003C
def regDmaStatus : MmioAddr := 0x0040

/-- `npu_feature_id`: version 0.1, one backend, a 1 × 1 array, INT8. -/
def featureId : MmioData := 0x00011111

namespace Mmio

variable (m : Mmio)

def isBuf : Bool := !m.addr.ult weightBufBase

def writesReg (a : MmioAddr) : Bool := m.writes && m.isReg && m.addr == a

/-- A write that starts a DMA transfer. -/
def startsDma : Bool := m.writesReg regDmaCtrl && m.wdata.getLsbD 0

/-- `buf_req` of the register block. -/
def bufReq : HostReq := ⟨m.addr, m.wdata, m.wr, m.valid && m.isBuf⟩

end Mmio

/-! ## Status and registers -/

/-- The wires of the command path and the core that the host side reads. -/
structure CoreWires where
  be : BeReq
  beBusy : Bool
  queueEmpty : Bool
  queueFull : Bool
  cmdPipeBusy : Bool
  cmdDone : Bool
  decodeErr : Bool
  perfCycles : MmioData
  perfActive : MmioData
  perfStall : MmioData

def CoreWires.idle : CoreWires where
  be := ⟨0, false, 0, false, 0, 0, false, 0, false⟩
  beBusy := false
  queueEmpty := true
  queueFull := false
  cmdPipeBusy := false
  cmdDone := false
  decodeErr := false
  perfCycles := 0
  perfActive := 0
  perfStall := 0

/-- `idle` of `npu_status`, whose `backend_busy` includes the DMA. -/
def CoreWires.coreIdle (c : CoreWires) (dmaBusy : Bool) : Bool :=
  !(c.beBusy || dmaBusy) && c.queueEmpty && !c.cmdPipeBusy

structure NpuCtrlRegs where
  ctrlReg : MmioData
  irqEnReg : MmioData
  irqClearR : Bool
  dmaExtAddrR : BitVec 32
  dmaLocAddrR : MmioAddr
  dmaLenR : BitVec 16
  dmaStartR : Bool
  dmaDirR : Bool
  isBufR : Bool

namespace NpuCtrlRegs

def reset : NpuCtrlRegs := ⟨0, 0, false, 0, 0, 0, false, false, false⟩

variable (s : NpuCtrlRegs)

def softReset : Bool := s.ctrlReg.getLsbD 0

def irqEnable : Bool := s.irqEnReg.getLsbD 0

def dmaCfg : DmaCfg := ⟨s.dmaExtAddrR, s.dmaLocAddrR, s.dmaLenR, s.dmaStartR, s.dmaDirR⟩

def regRdata (addr : MmioAddr) (c : CoreWires) (pending dmaBusy : Bool) : MmioData :=
  if addr = regCtrl then s.ctrlReg
  else if addr = regStatus then
    .ofNat 32 ((c.coreIdle dmaBusy).toNat + 2 * (c.beBusy || dmaBusy).toNat + 4 * c.queueFull.toNat)
  else if addr = regIrqStatus then .ofNat 32 pending.toNat
  else if addr = regIrqEnable then s.irqEnReg
  else if addr = regFeatureId then featureId
  else if addr = regPerfCycles then c.perfCycles
  else if addr = regPerfActive then c.perfActive
  else if addr = regPerfStall then c.perfStall
  else if addr = regDmaExtAddr then s.dmaExtAddrR
  else if addr = regDmaLocAddr then s.dmaLocAddrR.setWidth 32
  else if addr = regDmaLen then s.dmaLenR.setWidth 32
  else if addr = regDmaStatus then .ofNat 32 dmaBusy.toNat
  else 0

def step (m : Mmio) : NpuCtrlRegs where
  ctrlReg := if m.writesReg regCtrl then m.wdata else s.ctrlReg
  irqEnReg := if m.writesReg regIrqEnable then m.wdata else s.irqEnReg
  irqClearR := m.writesReg regIrqClear
  dmaExtAddrR := if m.writesReg regDmaExtAddr then m.wdata else s.dmaExtAddrR
  dmaLocAddrR := if m.writesReg regDmaLocAddr then m.wdata.setWidth 20 else s.dmaLocAddrR
  dmaLenR := if m.writesReg regDmaLen then m.wdata.setWidth 16 else s.dmaLenR
  dmaStartR := m.writesReg regDmaCtrl && m.wdata.getLsbD 0
  dmaDirR := if m.writesReg regDmaCtrl then m.wdata.getLsbD 1 else s.dmaDirR
  isBufR := if m.valid then m.isBuf else s.isBufR

theorem regRdata_dmaStatus (c : CoreWires) (pending dmaBusy : Bool) :
    s.regRdata regDmaStatus c pending dmaBusy = .ofNat 32 dmaBusy.toNat := by
  simp [regRdata, regDmaStatus, regCtrl, regStatus, regIrqStatus, regIrqEnable, regFeatureId,
    regPerfCycles, regPerfActive, regPerfStall, regDmaExtAddr, regDmaLocAddr, regDmaLen]

end NpuCtrlRegs

/-- `npu_reset_ctrl`, the hard reset released. -/
structure NpuResetCtrl where
  softResetSync1 : Bool
  softResetSync2 : Bool

/-! ## The shell -/

/-- The registers below are cleared when `npu_reset_ctrl` asserts the reset;
the SRAM contents are not. -/
structure NpuShell where
  rst : NpuResetCtrl
  regs : NpuCtrlRegs
  pending : Bool
  dma : NpuDmaFrontend
  mem : NpuMemTop

/-- One cycle of the host, of the external memory and of the core. -/
structure ShellIn where
  host : Mmio
  ext : ExtRsp
  core : CoreWires

/-- The reset reaches the flags of the buffers and not their contents. -/
def NpuMemTop.clear (s : NpuMemTop) : NpuMemTop where
  wtBuf := { s.wtBuf with hostRdR := false, beRdR := false }
  actBuf := { s.actBuf with hostRdAcceptR := false, beRdAcceptR := false }
  psumBuf := { s.psumBuf with rvalid := false }
  biasPendingR := false
  biasAddrPendingR := 0
  biasWasSel := false

namespace NpuShell

/-- Out of reset, with the given buffer contents. -/
def reset (act : BitVec 13 → Byte) (wt : BitVec 12 → Byte) : NpuShell :=
  ⟨⟨false, false⟩, .reset, false, .reset, .reset act wt⟩

variable (i : ShellIn) (s : NpuShell)

/-- The port of the buffers: the DMA takes over when busy. -/
def bufPort : HostReq := if s.dma.dmaBusy then s.dma.bufReq else i.host.bufReq

/-- Grant and response go to the register block and to the DMA alike. -/
def bufRsp : HostRsp := s.mem.hostRsp (s.bufPort i) i.core.be

def mmioReady : Bool :=
  if i.host.isBuf then (if i.host.wr then (s.bufRsp i).gnt else (s.bufRsp i).rvalid) else true

def regRdata : MmioData := s.regs.regRdata i.host.addr i.core s.pending s.dma.dmaBusy

def mmioRdata : MmioData := if s.regs.isBufR then (s.bufRsp i).rdata else s.regRdata i

/-- `irq_out` of `npu_irq_ctrl`. -/
def irq : Bool := s.pending && s.regs.irqEnable

/-- The reset is asserted in the next cycle or held at this clock edge. -/
def resetting : Bool := s.rst.softResetSync1 || s.rst.softResetSync2

def step : NpuShell where
  rst := ⟨s.regs.softReset, s.rst.softResetSync1⟩
  regs := if s.resetting then .reset else s.regs.step i.host
  pending :=
    if s.resetting || s.regs.irqClearR then false
    else s.pending || i.core.cmdDone || s.dma.dmaDone || i.core.decodeErr
  dma := if s.resetting then .reset else s.dma.step s.regs.dmaCfg i.ext (s.bufRsp i)
  mem := if s.resetting then (s.mem.step (s.bufPort i) i.core.be).clear
    else s.mem.step (s.bufPort i) i.core.be

def run (ins : ℕ → ShellIn) (s : NpuShell) : ℕ → NpuShell := Clocked.run (fun t ↦ step (ins t)) s

theorem run_succ (ins : ℕ → ShellIn) (t : ℕ) : run ins s (t + 1) = (run ins s t).step (ins t) := rfl

/-- The soft reset is neither requested nor on its way. -/
structure Stable : Prop where
  ctrl : s.regs.softReset = false
  sync1 : s.rst.softResetSync1 = false
  sync2 : s.rst.softResetSync2 = false

/-- A host access that does not request a soft reset. -/
def noSoftReset (m : Mmio) : Prop := m.writesReg regCtrl = true → m.wdata.getLsbD 0 = false

variable {i s}

theorem Stable.resetting (h : s.Stable) : s.resetting = false := by
  rw [NpuShell.resetting, h.sync1, h.sync2, Bool.or_false]

theorem Stable.step (h : s.Stable) (hm : noSoftReset i.host) : (s.step i).Stable where
  ctrl := by
    have hr := h.resetting
    cases hw : i.host.writesReg regCtrl with
    | false => simpa [NpuShell.step, hr, NpuCtrlRegs.softReset, NpuCtrlRegs.step, hw] using h.ctrl
    | true => simpa [NpuShell.step, hr, NpuCtrlRegs.softReset, NpuCtrlRegs.step, hw] using hm hw
  sync1 := h.ctrl
  sync2 := h.sync1

theorem Stable.run {ins : ℕ → ShellIn} (h : s.Stable) (hm : ∀ t, noSoftReset (ins t).host) (t : ℕ) :
    (NpuShell.run ins s t).Stable := by
  induction t with
  | zero => exact h
  | succ t ih => exact ih.step (hm t)

/-! ## One cycle without reset -/

section Running

variable (h : s.Stable)
include h

theorem regs_step : (s.step i).regs = s.regs.step i.host := by
  rw [NpuShell.step, h.resetting]
  rfl

theorem dma_step : (s.step i).dma = s.dma.step s.regs.dmaCfg i.ext (s.bufRsp i) := by
  rw [NpuShell.step, h.resetting]
  rfl

theorem mem_step : (s.step i).mem = s.mem.step (s.bufPort i) i.core.be := by
  rw [NpuShell.step, h.resetting]
  rfl

end Running

end NpuShell

/-! ## Programs on the bus -/

/-- The accesses of the first `n` cycles, oldest first.  A register access
takes one cycle, so this is the program order of a driver whatever the time
between its accesses. -/
def accesses (host : ℕ → Mmio) : ℕ → List Mmio
  | 0 => []
  | n + 1 => accesses host n ++ if (host n).valid then [host n] else []

def Mmio.write (a : MmioAddr) (v : MmioData) : Mmio := ⟨a, v, true, true⟩

def Mmio.read (a : MmioAddr) : Mmio := ⟨a, 0, false, true⟩

section Accesses

variable {host : ℕ → Mmio}

theorem accesses_succ (n : ℕ) :
    accesses host (n + 1) = accesses host n ++ if (host n).valid then [host n] else [] := rfl

theorem accesses_congr {host' : ℕ → Mmio} {n : ℕ} (h : ∀ t < n, host t = host' t) :
    accesses host' n = accesses host n := by
  induction n with
  | zero => rfl
  | succ n ih =>
      rw [accesses_succ, accesses_succ, ih fun t ht ↦ h t (ht.trans n.lt_succ_self),
        h n n.lt_succ_self]

theorem accesses_isPrefix {k n : ℕ} (h : k ≤ n) : accesses host k <+: accesses host n := by
  induction n, h using Nat.le_induction with
  | base => exact List.prefix_refl _
  | succ n _ ih => exact ih.trans ⟨_, rfl⟩

theorem mem_accesses (host : ℕ → Mmio) {n t : ℕ} (ht : t < n) (hv : (host t).valid = true) :
    host t ∈ accesses host n := by
  refine (accesses_isPrefix ht).subset ?_
  rw [accesses_succ, if_pos hv]
  exact List.mem_append_right _ List.mem_cons_self

/-- The cycle of the last access of a program. -/
theorem exists_last_access {n : ℕ} {l : List Mmio} {a : Mmio} (h : accesses host n = l ++ [a]) :
    ∃ k < n, accesses host k = l ∧ host k = a ∧ a.valid = true ∧
      ∀ t, k < t → t < n → (host t).valid = false := by
  induction n with
  | zero => simp [accesses] at h
  | succ n ih =>
      rw [accesses_succ] at h
      cases hv : (host n).valid with
      | true =>
          rw [hv, if_pos rfl] at h
          obtain ⟨hl, ha⟩ := List.append_inj' h rfl
          obtain rfl := List.singleton_inj.mp ha
          exact ⟨n, n.lt_succ_self, hl, rfl, hv, fun t h₁ h₂ ↦ by omega⟩
      | false =>
          rw [hv, if_neg Bool.false_ne_true, List.append_nil] at h
          obtain ⟨k, hk, hl, ha, hva, hrest⟩ := ih h
          refine ⟨k, hk.trans n.lt_succ_self, hl, ha, hva, fun t h₁ h₂ ↦ ?_⟩
          rcases Nat.lt_succ_iff_lt_or_eq.mp h₂ with h₂ | rfl
          exacts [hrest t h₁ h₂, hv]

/-- A program is reached before what follows it. -/
theorem exists_accesses_eq {n : ℕ} {l r : List Mmio} (h : accesses host n = l ++ r) :
    ∃ k ≤ n, accesses host k = l := by
  induction r using List.reverseRecOn generalizing n with
  | nil => exact ⟨n, le_rfl, h.trans (List.append_nil l)⟩
  | append_singleton r a ih =>
      obtain ⟨k, hk, hl, -⟩ := exists_last_access (h.trans (List.append_assoc l r [a]).symm)
      obtain ⟨u, hu, hul⟩ := ih hl
      exact ⟨u, by omega, hul⟩

/-- What comes after a program is among what follows it. -/
theorem mem_of_accesses_append {k t n : ℕ} {l r : List Mmio} (h : accesses host n = l ++ r)
    (hk : accesses host k = l) (hkt : k ≤ t) (htn : t < n) (hv : (host t).valid = true) :
    host t ∈ r := by
  obtain ⟨u, hu⟩ := accesses_isPrefix hkt
  obtain ⟨v, hv'⟩ := accesses_isPrefix (Nat.succ_le_of_lt htn)
  rw [Nat.succ_eq_add_one, accesses_succ, if_pos hv, ← hu, hk, h, List.append_assoc,
    List.append_assoc, List.append_cancel_left_eq] at hv'
  rw [← hv']
  simp

end Accesses

/-! ## Programming the DMA -/

/-- The DMA registers after a bus cycle. -/
def DmaCfg.after (c : DmaCfg) (m : Mmio) : DmaCfg where
  extAddr := if m.writesReg regDmaExtAddr then m.wdata else c.extAddr
  locAddr := if m.writesReg regDmaLocAddr then m.wdata.setWidth 20 else c.locAddr
  len := if m.writesReg regDmaLen then m.wdata.setWidth 16 else c.len
  start := m.writesReg regDmaCtrl && m.wdata.getLsbD 0
  dir := if m.writesReg regDmaCtrl then m.wdata.getLsbD 1 else c.dir

/-- What the registers hold, apart from the start pulse. -/
def DmaCfg.held (c : DmaCfg) : DmaCfg := { c with start := false }

theorem DmaCfg.held_after (c : DmaCfg) (m : Mmio) : (c.held.after m).held = (c.after m).held := rfl

theorem DmaCfg.held_after_of_invalid {c : DmaCfg} {m : Mmio} (h : m.valid = false) :
    (c.after m).held = c.held := by
  simp [DmaCfg.after, DmaCfg.held, Mmio.writesReg, Mmio.writes, h]

namespace NpuShell

variable {s : NpuShell} {ins : ℕ → ShellIn}

theorem dmaCfg_step {i : ShellIn} (h : s.Stable) :
    (s.step i).regs.dmaCfg = s.regs.dmaCfg.after i.host := by
  rw [regs_step h]
  rfl

/-- The DMA registers are those of the program written so far. -/
theorem dmaCfg_run (h : s.Stable) (hm : ∀ t, noSoftReset (ins t).host) (n : ℕ) :
    (run ins s n).regs.dmaCfg.held =
      ((accesses (fun t ↦ (ins t).host) n).foldl DmaCfg.after s.regs.dmaCfg).held := by
  induction n with
  | zero => rfl
  | succ n ih =>
      rw [run_succ, dmaCfg_step (h.run hm n), accesses_succ, List.foldl_append,
        ← DmaCfg.held_after, ih]
      cases hv : (ins n).host.valid with
      | true => rfl
      | false => exact DmaCfg.held_after_of_invalid hv

/-- Neither engine runs and no start is on its way. -/
structure DmaIdle (s : NpuShell) : Prop where
  reader : s.dma.reader.state = .idle
  writer : s.dma.writer.state = .idle
  start : s.regs.dmaStartR = false

theorem DmaIdle.step {i : ShellIn} (h : s.DmaIdle) (hs : s.Stable) :
    (s.step i).dma.reader.state = .idle ∧ (s.step i).dma.writer.state = .idle := by
  rw [dma_step hs]
  simp [NpuDmaFrontend.step, DmaEngine.step, h.reader, h.writer, h.start, NpuCtrlRegs.dmaCfg]

/-- The engines stay idle until they are started. -/
theorem DmaIdle.run (h : s.DmaIdle) (hs : s.Stable) (hm : ∀ t, noSoftReset (ins t).host) {n : ℕ}
    (hno : ∀ t < n, (ins t).host.startsDma = false) : (NpuShell.run ins s n).DmaIdle := by
  induction n with
  | zero => exact h
  | succ n ih =>
      have hidle := ih fun t ht ↦ hno t (ht.trans n.lt_succ_self)
      obtain ⟨hr, hw⟩ := hidle.step (i := ins n) (hs.run hm n)
      refine ⟨hr, hw, ?_⟩
      rw [run_succ, regs_step (hs.run hm n)]
      exact hno n n.lt_succ_self

theorem DmaIdle.dmaBusy (h : s.DmaIdle) : s.dma.dmaBusy = false := by
  rw [NpuDmaFrontend.dmaBusy, DmaEngine.busy_of_idle h.reader, DmaEngine.busy_of_idle h.writer]
  rfl

end NpuShell

/-- The writes that start a transfer. -/
def dmaProgram (ext loc len ctrl : MmioData) : List Mmio :=
  [.write regDmaExtAddr ext, .write regDmaLocAddr loc, .write regDmaLen len, .write regDmaCtrl ctrl]

theorem held_after_dmaProgram (c : DmaCfg) (ext loc len ctrl : MmioData) :
    ((dmaProgram ext loc len ctrl).foldl DmaCfg.after c).held =
      ⟨ext, loc.setWidth 20, len.setWidth 16, false, ctrl.getLsbD 1⟩ := by
  simp [dmaProgram, DmaCfg.after, DmaCfg.held, Mmio.writesReg, Mmio.writes, Mmio.isReg, Mmio.write,
    regDmaExtAddr, regDmaLocAddr, regDmaLen, regDmaCtrl, cmdQueueBase]

/-- A device found idle and programmed: in cycle `k` the host writes
`DMA_CTRL`, and in cycle `k + 1` the start pulse meets idle engines. -/
structure Programmed (ins : ℕ → ShellIn) (s : NpuShell) (ext loc len ctrl : MmioData) (k n : ℕ) :
    Prop where
  lt : k < n
  before : accesses (fun t ↦ (ins t).host) k =
    [.write regDmaExtAddr ext, .write regDmaLocAddr loc, .write regDmaLen len]
  write : (ins k).host = .write regDmaCtrl ctrl
  rest : ∀ t, k < t → t < n → (ins t).host.valid = false
  idle : ∀ t ≤ k, (NpuShell.run ins s t).DmaIdle
  reader : (NpuShell.run ins s (k + 1)).dma.reader.state = .idle
  writer : (NpuShell.run ins s (k + 1)).dma.writer.state = .idle
  cfg : (NpuShell.run ins s (k + 1)).regs.dmaCfg =
    ⟨ext, loc.setWidth 20, len.setWidth 16, true, ctrl.getLsbD 1⟩

/-- Programming takes effect whatever the time between the accesses. -/
theorem exists_programmed {s : NpuShell} (ins : ℕ → ShellIn) {ext loc len ctrl : MmioData} {n : ℕ}
    (hs : s.Stable) (hidle : s.DmaIdle) (hm : ∀ t, NpuShell.noSoftReset (ins t).host)
    (hacc : accesses (fun t ↦ (ins t).host) n = dmaProgram ext loc len ctrl)
    (hstart : ctrl.getLsbD 0 = true) : ∃ k, Programmed ins s ext loc len ctrl k n := by
  obtain ⟨k, hk, hbefore, hlast, -, hrest⟩ := exists_last_access
    (l := [.write regDmaExtAddr ext, .write regDmaLocAddr loc, .write regDmaLen len])
    (a := .write regDmaCtrl ctrl) hacc
  have hno : ∀ t < k, (ins t).host.writesReg regDmaCtrl = false := by
    intro t ht
    cases hv : (ins t).host.valid with
    | false => simp [Mmio.writesReg, Mmio.writes, hv]
    | true =>
        have hmem := mem_accesses (fun t ↦ (ins t).host) ht hv
        rw [hbefore] at hmem
        simp only [List.mem_cons, List.not_mem_nil, or_false] at hmem
        rcases hmem with h | h | h <;> rw [h] <;> rfl
  have hidleAt : ∀ t ≤ k, (NpuShell.run ins s t).DmaIdle := fun t ht ↦
    hidle.run hs hm fun u hu ↦ by rw [Mmio.startsDma, hno u (by omega), Bool.false_and]
  obtain ⟨hr, hw⟩ := (hidleAt k le_rfl).step (i := ins k) (hs.run hm k)
  have hheld : (NpuShell.run ins s (k + 1)).regs.dmaCfg.held =
      ⟨ext, loc.setWidth 20, len.setWidth 16, false, ctrl.getLsbD 1⟩ := by
    rw [NpuShell.dmaCfg_run hs hm, accesses_succ, hbefore, ← held_after_dmaProgram s.regs.dmaCfg,
      show (ins k).host = _ from hlast]
    rfl
  have hpulse : (NpuShell.run ins s (k + 1)).regs.dmaCfg.start = true := by
    rw [NpuShell.run_succ, NpuShell.dmaCfg_step (hs.run hm k), show (ins k).host = _ from hlast]
    simpa [DmaCfg.after, Mmio.writesReg, Mmio.writes, Mmio.isReg, Mmio.write, regDmaCtrl,
      cmdQueueBase] using hstart
  refine ⟨k, hk, hbefore, hlast, hrest, hidleAt, hr, hw, ?_⟩
  cases hc : (NpuShell.run ins s (k + 1)).regs.dmaCfg with
  | mk e l n st d =>
      rw [hc] at hheld hpulse
      obtain ⟨rfl, rfl, rfl, -, rfl⟩ := DmaCfg.mk.inj hheld
      rw [show st = true from hpulse]

end LgNpu
