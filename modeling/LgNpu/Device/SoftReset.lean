import LgNpu.Device.Idle
import LgNpu.Device.Live

/-!
# Soft reset

`npu_shell` with its performance counters, and two of its runs side by side.
Whatever a soft reset interrupts, the two runs cannot be told apart from its
release on, if the buffers and the command window hold the same.
-/

namespace LgNpu

/-! ## Performance counters -/

def counter (count : MmioData) (clr en : Bool) : MmioData :=
  if clr then 0 else if en then count + 1 else count

structure NpuPerfCounters where
  cntCycles : MmioData
  cntActive : MmioData
  cntStall : MmioData

namespace NpuPerfCounters

def reset : NpuPerfCounters := ⟨0, 0, 0⟩

def step (s : NpuPerfCounters) (backendActive backendStall clear : Bool) : NpuPerfCounters where
  cntCycles := counter s.cntCycles clear true
  cntActive := counter s.cntActive clear backendActive
  cntStall := counter s.cntStall clear backendStall

end NpuPerfCounters

namespace NpuCore

variable (x : NpuCore)

def backendStall : Bool :=
  x.beBusy && x.memReq.actRdReq && !(x.mem.beRsp x.memReq).actRdGnt

def backendActive : Bool := x.beBusy && !x.backendStall

theorem backendStall_live : x.live.backendStall = x.backendStall := by
  have hmasked := congrArg BeReq.actRdReq x.memReq_live
  have hreq : x.live.memReq.actRdReq = x.memReq.actRdReq := hmasked
  change (x.live.beBusy && x.live.memReq.actRdReq && !x.live.memReq.actRdReq) = _
  rw [hreq, x.beBusy_live]
  rfl

theorem backendActive_live : x.live.backendActive = x.backendActive := by
  rw [backendActive, backendStall_live, beBusy_live]
  rfl

end NpuCore

/-! ## The chip -/

structure Chip where
  dev : Device
  perf : NpuPerfCounters

/-- One cycle of the host and of the external memory. -/
structure ChipIn where
  host : Mmio
  ext : ExtRsp

/-- The outputs of `npu_shell`. -/
structure Pins where
  mmioReady : Bool
  mmioRdata : MmioData
  extMem : ExtReq
  irq : Bool

namespace Chip

/-- Out of reset; the storages hold zeros. -/
def reset : Chip := ⟨.reset (fun _ ↦ 0) (fun _ ↦ 0) (fun _ ↦ 0) fun _ ↦ 0, .reset⟩

variable (x y : Chip) (i : ChipIn)

def devIn : DeviceIn := ⟨i.host, i.ext, x.perf.cntCycles, x.perf.cntActive, x.perf.cntStall⟩

def pins : Pins where
  mmioReady := x.dev.shell.mmioReady (x.dev.shellIn (x.devIn i))
  mmioRdata := x.dev.mmioRdata (x.devIn i)
  extMem := x.dev.dma.extReq
  irq := x.dev.shell.irq

def step : Chip where
  dev := x.dev.step (x.devIn i)
  perf :=
    if x.dev.resetting then .reset
    else x.perf.step x.dev.core.backendActive x.dev.core.backendStall x.dev.regs.softReset

def run (ins : ℕ → ChipIn) : ℕ → Chip := Clocked.run (fun t x ↦ step x (ins t)) x

theorem run_succ (ins : ℕ → ChipIn) (t : ℕ) : x.run ins (t + 1) = (x.run ins t).step (ins t) := rfl

/-- The counters are one environment of the device. -/
theorem run_dev (ins : ℕ → ChipIn) (t : ℕ) :
    (x.run ins t).dev = x.dev.run (fun u ↦ (x.run ins u).devIn (ins u)) t := by
  induction t with
  | zero => rfl
  | succ t ih =>
      rw [run_succ, Device.run_succ, ← ih]
      rfl

/-- The combined reset, active low. -/
def rstN : Bool := !x.dev.rst.softResetSync2

/-- The storages that no reset reaches. -/
structure SameStorage : Prop where
  sram : x.dev.core.mem.contents = y.dev.core.mem.contents
  cmdMem : x.dev.fe.regs.cmdMem = y.dev.fe.regs.cmdMem

/-- Idle, with an empty queue and no pending interrupt. -/
structure Fresh : Prop where
  rest : x.dev.AtRest
  idle : ∀ i, (x.dev.wires i).coreIdle x.dev.dma.dmaBusy = true
  pending : x.dev.pending = false
  ctrl : x.dev.regs.ctrlReg = 0

section Run

variable (ins : ℕ → ChipIn) (s r : ℕ)

/-- In cycle `s` a write of 1 to `CTRL[0]` is accepted. -/
structure Requests : Prop where
  accepted : (x.run ins s).dev.resetting = false
  write : (ins s).host.writesReg regCtrl = true
  bit : (ins s).host.wdata.getLsbD 0 = true

/-- The reset requested in cycle `s` takes effect and is released in cycle `r`. -/
structure SoftReset : Prop where
  lt : s + 3 < r
  asserted : ∀ t, s + 3 ≤ t → t < r → (x.run ins t).rstN = false
  released : (x.run ins r).rstN = true

end Run

/-- From the releases on the two runs look the same, if they start from the same
storages and have the same inputs. -/
def NoResidue (ins ins' : ℕ → ChipIn) (s s' : ℕ) : Prop :=
  ∃ r r', x.SoftReset ins s r ∧ y.SoftReset ins' s' r' ∧
    (x.run ins r).Fresh ∧ (y.run ins' r').Fresh ∧
    ((x.run ins r).SameStorage (y.run ins' r') → (∀ u, ins (r + u) = ins' (r' + u)) →
      ∀ u, (x.run ins (r + u)).pins (ins (r + u)) = (y.run ins' (r' + u)).pins (ins' (r' + u)) ∧
        (x.run ins (r + u)).dev.core.mem.contents = (y.run ins' (r' + u)).dev.core.mem.contents)

/-! ## Two runs -/

/-- Chips whose devices are alike and whose counters agree. -/
structure Alike (x y : Chip) : Prop where
  dev : x.dev.Alike y.dev
  perf : x.perf = y.perf

namespace Alike

variable {x y : Chip} {i : ChipIn} (h : x.Alike y)
include h

theorem devIn : x.devIn i = y.devIn i := by rw [Chip.devIn, Chip.devIn, h.perf]

theorem pins : x.pins i = y.pins i := by
  rw [Chip.pins, Chip.pins, h.devIn, h.dev.mmioReady, h.dev.mmioRdata, h.dev.dma, h.dev.irq]

theorem step : (x.step i).Alike (y.step i) := by
  have hactive : x.dev.core.backendActive = y.dev.core.backendActive :=
    h.dev.coreField NpuCore.backendActive_live
  have hstall : x.dev.core.backendStall = y.dev.core.backendStall :=
    h.dev.coreField NpuCore.backendStall_live
  refine ⟨?_, ?_⟩
  · change (x.dev.step (x.devIn i)).Alike (y.dev.step (y.devIn i))
    rw [h.devIn]
    exact h.dev.step
  · rw [Chip.step, Chip.step, h.dev.resetting, h.perf, hactive, hstall, h.dev.regs]

end Alike

section Run

variable {x y : Chip} {ins ins' : ℕ → ChipIn} {s s' r r' : ℕ}

/-- From the same inputs on, chips that are alike stay alike. -/
theorem alike_run (h : (x.run ins r).Alike (y.run ins' r'))
    (hins : ∀ u, ins (r + u) = ins' (r' + u)) (u : ℕ) :
    (x.run ins (r + u)).Alike (y.run ins' (r' + u)) := by
  induction u with
  | zero => exact h
  | succ u ih =>
      rw [← Nat.add_assoc, ← Nat.add_assoc, run_succ, run_succ, hins u]
      exact ih.step

/-! ## Release -/

variable {i j : ChipIn}

theorem resetting_eq (x : Chip) : x.dev.resetting =
    (x.dev.rst.softResetSync1 || x.dev.rst.softResetSync2) := rfl

/-- A requested reset is asserted for one or two cycles. -/
theorem exists_softReset (h : x.Requests ins s) : ∃ u, x.SoftReset ins s (u + 1) ∧
    (x.run ins u).dev.resetting = true ∧ (x.run ins (u + 1)).dev.resetting = false := by
  have hsync1 : ∀ t, (x.run ins (t + 1)).dev.rst.softResetSync1 =
      (x.run ins t).dev.regs.softReset := fun _ ↦ rfl
  have hsync2 : ∀ t, (x.run ins (t + 1)).dev.rst.softResetSync2 =
      (x.run ins t).dev.rst.softResetSync1 := fun _ ↦ rfl
  have hclear : ∀ t, (x.run ins t).dev.resetting = true →
      (x.run ins (t + 1)).dev.regs.softReset = false := fun t ht ↦ by
    have hregs : (x.run ins (t + 1)).dev.regs = .reset := if_pos ht
    rw [hregs]
    rfl
  have hctrl : (x.run ins (s + 1)).dev.regs.softReset = true := by
    have hregs : (x.run ins (s + 1)).dev.regs = (x.run ins s).dev.regs.step (ins s).host :=
      if_neg (Bool.eq_false_iff.mp h.accepted)
    rw [hregs]
    change (if (ins s).host.writesReg regCtrl then (ins s).host.wdata else _).getLsbD 0 = true
    rw [h.write, if_pos rfl, h.bit]
  -- The request takes two cycles through the synchroniser, and is cleared by then.
  have hfirst : (x.run ins (s + 2)).dev.resetting = true := by
    rw [resetting_eq, hsync1 (s + 1), hctrl, Bool.true_or]
  have hlow : (x.run ins (s + 3)).dev.rst.softResetSync2 = true :=
    (hsync2 (s + 2)).trans ((hsync1 (s + 1)).trans hctrl)
  have hsecond : (x.run ins (s + 3)).dev.resetting = true := by
    rw [resetting_eq, hlow, Bool.or_true]
  have hone : (x.run ins (s + 4)).dev.rst.softResetSync1 = false := hclear (s + 2) hfirst
  cases hb : (x.run ins (s + 4)).dev.rst.softResetSync2 with
  | false =>
      refine ⟨s + 3, ⟨by omega, fun t h₁ h₂ ↦ ?_, ?_⟩, hsecond, ?_⟩
      · obtain rfl : t = s + 3 := by omega
        rw [rstN, hlow, Bool.not_true]
      · rw [rstN, hb, Bool.not_false]
      · rw [resetting_eq, hone, hb, Bool.or_false]
  | true =>
      have htwo : (x.run ins (s + 5)).dev.rst.softResetSync2 = false := hone
      refine ⟨s + 4, ⟨by omega, fun t h₁ h₂ ↦ ?_, ?_⟩, ?_, ?_⟩
      · obtain rfl | rfl : t = s + 3 ∨ t = s + 4 := by omega
        · rw [rstN, hlow, Bool.not_true]
        · rw [rstN, hb, Bool.not_true]
      · rw [rstN, htwo, Bool.not_false]
      · rw [resetting_eq, hb, Bool.or_true]
      · rw [resetting_eq, hsync1, hclear _ hsecond, htwo, Bool.or_false]

/-- The reset leaves the chip idle. -/
theorem fresh_step (h : x.dev.resetting = true) : (x.step i).Fresh := by
  have hcore : (x.step i).dev.core = NpuCore.clear _ := Device.core_step_resetting h
  have hfe : (x.step i).dev.fe = .reset _ _ := if_pos h
  have hdma : (x.step i).dev.dma = .reset := if_pos h
  have hregs : (x.step i).dev.regs = .reset := if_pos h
  refine ⟨⟨?_, ?_, ?_, ?_, ?_, fun b ↦ ?_, ?_, ?_, ?_⟩, fun i ↦ ?_, ?_, ?_⟩
  · rw [hfe]; rfl
  · rw [hfe]; rfl
  · rw [hfe]; rfl
  · rw [hfe]; rfl
  · rw [hcore]; exact SchedState.noConfusion
  · rw [hcore]; exact (NpuCore.shares b).free_of_silent _ (NpuCore.silent_clear b _)
  · rw [hregs]; rfl
  · rw [hdma]; rfl
  · rw [hdma]; rfl
  · change (!((x.step _).dev.core.beBusy || (x.step _).dev.dma.dmaBusy) &&
      (x.step _).dev.fe.queue.empty &&
      !((x.step _).dev.fe.fetch.busy || (x.step _).dev.fe.decode.busy)) = true
    rw [hcore, hdma, hfe]
    rfl
  · change (if x.dev.resetting || x.dev.regs.irqClearR then false else _) = false
    rw [h, Bool.true_or, if_pos rfl]
  · rw [hregs]; rfl

/-- Resets of chips with the same storages leave them alike. -/
theorem alike_step (hx : x.dev.resetting = true) (hy : y.dev.resetting = true)
    (hx' : (x.step i).dev.resetting = false) (hy' : (y.step j).dev.resetting = false)
    (hstore : (x.step i).SameStorage (y.step j)) : (x.step i).Alike (y.step j) := by
  obtain ⟨hsram, hcmdMem⟩ := hstore
  have hrst : ∀ z : Chip, z.dev.resetting = false → z.dev.rst = ⟨false, false⟩ := fun z hz ↦ by
    obtain ⟨hone, htwo⟩ := Bool.or_eq_false_iff.mp ((resetting_eq z).symm.trans hz)
    exact congrArg₂ NpuResetCtrl.mk hone htwo
  have hfex : (x.step i).dev.fe = .reset _ _ := if_pos hx
  have hfey : (y.step j).dev.fe = .reset _ _ := if_pos hy
  have hcorex : (x.step i).dev.core = NpuCore.clear _ := Device.core_step_resetting hx
  have hcorey : (y.step j).dev.core = NpuCore.clear _ := Device.core_step_resetting hy
  rw [hfex, hfey] at hcmdMem
  rw [hcorex, hcorey] at hsram
  refine ⟨⟨?_, ?_, ?_, ?_, ?_, ?_, ?_, ?_, ?_⟩, ?_⟩
  · rw [hrst _ hx', hrst _ hy']
  · exact (if_pos hx).trans (if_pos hy).symm
  · rw [(fresh_step hx).pending, (fresh_step hy).pending]
  · exact (if_pos hx).trans (if_pos hy).symm
  · rw [hfex, hfey]
    exact congrArg (NpuRegBlock.mk false · false 0) hcmdMem
  · rw [hfex, hfey]
    rfl
  · rw [hfex, hfey]
    rfl
  · rw [hfex, hfey]
    exact ⟨rfl, [], Fifo.holds_nil, Fifo.holds_nil⟩
  · rw [hcorex, hcorey]
    exact NpuCore.live_clear hsram
  · exact (if_pos hx).trans (if_pos hy).symm

theorem soft_reset_no_residue (hx : x.Requests ins s) (hy : y.Requests ins' s') :
    x.NoResidue y ins ins' s s' := by
  obtain ⟨u, hsoft, hin, hout⟩ := exists_softReset hx
  obtain ⟨u', hsoft', hin', hout'⟩ := exists_softReset hy
  refine ⟨u + 1, u' + 1, hsoft, hsoft', fresh_step hin, fresh_step hin', fun hstore hins v ↦ ?_⟩
  have hrelease : (x.run ins (u + 1)).Alike (y.run ins' (u' + 1)) :=
    alike_step hin hin' hout hout' hstore
  have halike := alike_run hrelease hins v
  have hcontents := NpuCore.contents_of_live halike.dev.core
  refine ⟨?_, hcontents⟩
  rw [hins v]
  exact halike.pins

end Run

/-! ### A reset at rest, and one in the middle of a transfer -/

def withHost (m : Mmio) : ChipIn := ⟨m, ⟨true, 7, true⟩⟩

def resetAtRest (t : ℕ) : ChipIn := withHost (([.write regCtrl 1] : List Mmio).getD t .idle)

/-- A transfer is running and a doorbell has been rung. -/
def resetInTransfer (t : ℕ) : ChipIn :=
  withHost (([.write regDmaLocAddr 0x20000, .write regDmaLen 4, .write regDmaCtrl 1,
    .write regDoorbell 1, .idle, .write regCtrl 1] : List Mmio).getD t .idle)

theorem soft_reset_no_residue_inTransfer :
    reset.NoResidue reset resetAtRest resetInTransfer 0 5 :=
  soft_reset_no_residue ⟨rfl, rfl, by decide⟩ ⟨by decide +kernel, rfl, by decide⟩

end Chip

end LgNpu
