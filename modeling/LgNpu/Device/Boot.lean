import LgNpu.Device.Driven
import LgNpu.Device.SoftReset

/-!
# Boot

`lgnpu_hw_init` requests a soft reset, waits, enables the device and reads its
identification.  Whatever the device is doing before, it is at rest afterwards,
where the ideal device may take its place and the driver may start.
-/

namespace LgNpu

namespace NpuCore

theorem settled_clear (x : NpuCore) : x.clear.Settled where
  silent b := silent_clear b _
  act := rfl
  wt := rfl
  bias := rfl
  calm := rfl

end NpuCore

namespace Device

variable {x : Device} {i : DeviceIn}

/-- What a cycle of an asserted reset leaves. -/
theorem ready_of_resetting (h : x.resetting = true) (hnext : (x.step i).resetting = false)
    (s : Sram) (n : ℕ) : (x.step i).Ready ⟨s, (x.step i).fe.regs.cmdMem, n⟩ := by
  have hregs : (x.step i).regs = .reset := if_pos h
  have hdma : (x.step i).dma = .reset := if_pos h
  have hfe : (x.step i).fe = .reset _ _ := if_pos h
  have hcore : (x.step i).core = NpuCore.clear _ := core_step_resetting h
  obtain ⟨hsync1, hsync2⟩ := Bool.or_eq_false_iff.mp hnext
  refine ⟨⟨⟨?_, hsync1, hsync2⟩, ⟨?_, ?_, ?_⟩, rfl⟩, ⟨⟨?_, ?_, ?_⟩, ?_⟩, ?_, ?_⟩
  · change (x.step i).regs.softReset = false
    rw [hregs]
    rfl
  · change (x.step i).dma.reader.state = .idle
    rw [hdma]
    rfl
  · change (x.step i).dma.writer.state = .idle
    rw [hdma]
    rfl
  · change (x.step i).regs.dmaStartR = false
    rw [hregs]
    rfl
  · rw [hfe]
    rfl
  · rw [hfe]
    rfl
  · rw [hfe]
    rfl
  · rw [hfe]
    exact Fifo.holds_nil
  · rw [hcore]
    rfl
  · rw [hcore]
    exact NpuCore.settled_clear _

end Device

namespace Chip

/-- The result of `lgnpu_hw_init`, which fails with `-ENODEV`. -/
def lgnpuHwInit (featureId : MmioData) : ℤ := if featureId = 0 then -19 else 0

/-- The accesses of `lgnpu_hw_init` in the cycles `s`, `e` and `f`; `udelay` lasts
four cycles at least. -/
structure HwInit (ins : ℕ → ChipIn) (s e f : ℕ) : Prop where
  reset : (ins s).host = .write regCtrl 1
  delay : s + 5 ≤ e
  enable : (ins e).host = .write regCtrl 2
  lt : e < f
  featureId : (ins f).host = .read regFeatureId
  quiet : ∀ t, s < t → t < f → t ≠ e → (ins t).host = .idle

theorem plain_enable : Mmio.Plain (.write regCtrl 2) :=
  ⟨⟨fun _ ↦ rfl, rfl, rfl, rfl, rfl⟩, rfl, rfl⟩

theorem plain_featureId : Mmio.Plain (.read regFeatureId) :=
  ⟨⟨nofun, rfl, rfl, rfl, rfl⟩, rfl, rfl⟩

/-- At rest with no interrupt pending or enabled, `FEATURE_ID` being readable. -/
structure Booted (x : Chip) (s : Sram) (w : BitVec 4 → MmioData) : Prop where
  ready : x.dev.Ready ⟨s, w, 0⟩
  sram : x.dev.core.mem.contents = s
  pending : x.dev.pending = false
  irqEnable : x.dev.regs.irqEnReg = 0
  irqClear : x.dev.regs.irqClearR = false
  isBufR : x.dev.regs.isBufR = false

/-- What `lgnpu_hw_init` has achieved after cycle `f`. -/
structure Recovered (x : Chip) (ins : ℕ → ChipIn) (s f : ℕ) : Prop where
  returns : lgnpuHwInit ((x.run ins f).dev.mmioRdata ((x.run ins f).devIn (ins f))) = 0
  /-- The ideal device takes over. -/
  rest : ∀ n q, Watched.Rest ⟨(x.run ins (f + 1)).dev, n, q⟩
    ⟨(x.run ins (s + 4)).dev.core.mem.contents, (x.run ins (s + 4)).dev.fe.regs.cmdMem, n⟩
  enabled : (x.run ins (f + 1)).dev.regs.ctrlReg = 2
  driver : ∀ q, Driven.Start ⟨.init, ⟨(x.run ins (f + 1)).dev, 0, q⟩,
    ⟨(x.run ins (s + 4)).dev.core.mem.contents, (x.run ins (s + 4)).dev.fe.regs.cmdMem, 0⟩, []⟩
  silent : ∀ t, s + 4 ≤ t → t ≤ f + 1 → (x.run ins t).dev.shell.irq = false

variable {x : Chip} {ins : ℕ → ChipIn} {s e f : ℕ} {i : ChipIn} {c : Sram}
  {w : BitVec 4 → MmioData}

theorem Booted.step (h : x.Booted c w) (hm : i.host.Plain) : (x.step i).Booted c w := by
  have hready := h.ready.step (i := x.devIn i) hm.noReset hm.noDma hm.noRing
  have hsram := h.ready.contents_step (i := x.devIn i) h.sram hm.noRing
  have hideal : Ideal.step (x.devIn i).host ⟨c, w, 0⟩ = ⟨c, w, 0⟩ := hm.ideal_step _
  rw [hideal] at hready hsram
  have hregs : (x.step i).dev.regs = x.dev.regs.step i.host := NpuShell.regs_step h.ready.stable
  refine ⟨hready, hsram, ?_, ?_, ?_, ?_⟩
  · change (x.dev.step (x.devIn i)).pending = false
    rw [Device.pending_step, h.ready.event, h.pending, Bool.or_false, ite_self]
  · rw [hregs]
    change (if i.host.writesReg regIrqEnable then _ else x.dev.regs.irqEnReg) = 0
    rw [hm.noEnable, if_neg Bool.false_ne_true, h.irqEnable]
  · rw [hregs]
    exact hm.noClear
  · rw [hregs]
    change (if i.host.valid then i.host.isBuf else x.dev.regs.isBufR) = false
    have hbuf := hm.noBuf
    cases hv : i.host.valid with
    | true => simpa [hv] using hbuf
    | false => exact h.isBufR

/-- The release of the reset. -/
theorem booted_of_resetting (h : x.dev.resetting = true) (hnext : (x.step i).dev.resetting = false)
    : (x.step i).Booted (x.step i).dev.core.mem.contents (x.step i).dev.fe.regs.cmdMem := by
  have hregs : (x.step i).dev.regs = .reset := if_pos h
  refine ⟨Device.ready_of_resetting h hnext _ _, rfl, (fresh_step h).pending, ?_, ?_, ?_⟩ <;>
    rw [hregs] <;> rfl

/-- A cycle more of the reset leaves the storages. -/
theorem sameStorage_step {j : ChipIn} (h : x.dev.resetting = true)
    (h' : (x.step i).dev.resetting = true) (hj : j.host = .idle) :
    ((x.step i).step j).SameStorage (x.step i) := by
  have hfe : ((x.step i).step j).dev.fe = .reset _ _ := if_pos h'
  have hcore : ((x.step i).step j).dev.core = NpuCore.clear _ := Device.core_step_resetting h'
  have hclear : (x.step i).dev.core = NpuCore.clear _ := Device.core_step_resetting h
  have hdma : (x.step i).dev.dma = .reset := if_pos h
  have hsettled : (x.step i).dev.core.Settled := by
    rw [hclear]
    exact NpuCore.settled_clear _
  have hport : ((x.step i).dev.coreIn ((x.step i).devIn j)).host = .idle := by
    change (if (x.step i).dev.dma.dmaBusy then _ else j.host.bufReq) = _
    rw [hdma, hj]
    rfl
  constructor
  · rw [hcore]
    have hcontents := hsettled.contents_step ((x.step i).dev.coreIn ((x.step i).devIn j)).queueCmd
      ((x.step i).dev.coreIn ((x.step i).devIn j)).queueValid
    rw [← hcontents, ← hport]
    rfl
  · rw [hfe]
    change (if j.host.writes && j.host.isCmdQueue then _ else (x.step i).dev.fe.regs.cmdMem) = _
    rw [hj]
    rfl

/-- A step of the reset, and what it leaves for the synchroniser. -/
theorem softReset_of_resetting {t : ℕ} (h : (x.run ins t).dev.resetting = true) :
    (x.run ins (t + 2)).dev.rst.softResetSync1 = false := by
  have hregs : (x.run ins (t + 1)).dev.regs = .reset := if_pos h
  change (x.run ins (t + 1)).dev.regs.softReset = false
  rw [hregs]
  rfl

theorem resetting_of_requests (h : x.Requests ins s) :
    (x.run ins (s + 2)).dev.resetting = true ∧ (x.run ins (s + 3)).dev.resetting = true := by
  obtain ⟨u, hsoft, -, -⟩ := exists_softReset h
  have hsync : (x.run ins (s + 3)).dev.rst.softResetSync2 = true := by
    have hlow := hsoft.asserted (s + 3) le_rfl hsoft.lt
    rwa [rstN, Bool.not_eq_false'] at hlow
  constructor
  · have hsync1 : (x.run ins (s + 2)).dev.rst.softResetSync1 = true := hsync
    rw [resetting_eq, hsync1, Bool.true_or]
  · rw [resetting_eq, hsync, Bool.or_true]

/-- Five cycles after the request the reset has been released. -/
theorem booted_of_requests (h : x.Requests ins s) (hquiet : (ins (s + 4)).host = .idle) :
    (x.run ins (s + 5)).Booted (x.run ins (s + 4)).dev.core.mem.contents
      (x.run ins (s + 4)).dev.fe.regs.cmdMem := by
  obtain ⟨hfirst, hsecond⟩ := resetting_of_requests h
  have hlast : (x.run ins (s + 5)).dev.resetting = false := by
    have hsync2 : (x.run ins (s + 5)).dev.rst.softResetSync2 = false :=
      softReset_of_resetting hfirst
    rw [resetting_eq, hsync2, softReset_of_resetting hsecond, Bool.or_false]
  cases hthird : (x.run ins (s + 4)).dev.resetting with
  | false =>
      refine (booted_of_resetting hsecond hthird).step ?_
      rw [hquiet]
      exact Mmio.plain_idle
  | true =>
      have hbooted := booted_of_resetting hthird hlast
      have hsame := sameStorage_step hsecond hthird hquiet
      rw [run_succ] at hbooted
      rwa [hsame.sram, hsame.cmdMem] at hbooted

theorem Booted.run {t v : ℕ} (h : (x.run ins t).Booted c w)
    (hm : ∀ u, t ≤ u → u < v → (ins u).host.Plain) {u : ℕ} (hu : t ≤ u) (hv : u ≤ v) :
    (x.run ins u).Booted c w := by
  induction u, hu using Nat.le_induction with
  | base => exact h
  | succ u hu ih => exact (ih (by omega)).step (hm u hu (by omega))

theorem Booted.featureId (h : x.Booted c w) (hi : i.host = .read regFeatureId) :
    x.dev.mmioRdata (x.devIn i) = featureId := by
  have hread : x.dev.mmioRdata (x.devIn i) =
      x.dev.regs.regRdata i.host.addr (x.dev.wires (x.devIn i)) x.dev.pending x.dev.dma.dmaBusy :=
    if_neg (Bool.eq_false_iff.mp h.isBufR)
  rw [hread, hi]
  rfl

theorem Booted.ctrlReg_step (h : x.Booted c w) : (x.step i).dev.regs.ctrlReg =
    if i.host.writesReg regCtrl then i.host.wdata else x.dev.regs.ctrlReg := by
  have hregs : (x.step i).dev.regs = x.dev.regs.step i.host := NpuShell.regs_step h.ready.stable
  rw [hregs]
  rfl

theorem Booted.rest (h : x.Booted c w) (n q : ℕ) : Watched.Rest ⟨x.dev, n, q⟩ ⟨c, w, n⟩ :=
  ⟨⟨⟨h.ready.stable, h.ready.dma, h.ready.window⟩, h.ready.front, h.ready.sched, h.ready.core⟩,
    h.sram, rfl⟩

theorem Booted.driver (h : x.Booted c w) (q : ℕ) :
    Driven.Start ⟨.init, ⟨x.dev, 0, q⟩, ⟨c, w, 0⟩, []⟩ := by
  refine ⟨rfl, h.rest 0 q, rfl, ?_, h.isBufR, rfl⟩
  change (⟨x.dev.pending, x.dev.regs.irqEnReg.getLsbD 0, x.dev.regs.irqClearR⟩ : IrqCtrl) = _
  rw [h.pending, h.irqEnable, h.irqClear]
  rfl

namespace HwInit

variable (h : HwInit ins s e f)
include h

theorem requests (hx : (x.run ins s).dev.resetting = false) : x.Requests ins s := by
  refine ⟨hx, ?_, ?_⟩ <;> rw [h.reset] <;> rfl

theorem plain {t : ℕ} (hs : s < t) (hf : t ≤ f) : (ins t).host.Plain := by
  rcases Nat.lt_or_eq_of_le hf with hlt | rfl
  · by_cases he : t = e
    · subst he
      rw [h.enable]
      exact plain_enable
    · rw [h.quiet t hs hlt he]
      exact Mmio.plain_idle
  · rw [h.featureId]
    exact plain_featureId

theorem booted (hx : (x.run ins s).dev.resetting = false) {t : ℕ} (hs : s + 5 ≤ t)
    (hf : t ≤ f + 1) : (x.run ins t).Booted (x.run ins (s + 4)).dev.core.mem.contents
      (x.run ins (s + 4)).dev.fe.regs.cmdMem := by
  have hdelay := h.delay
  have hlt := h.lt
  have hidle : (ins (s + 4)).host = .idle := h.quiet _ (by omega) (by omega) (by omega)
  have hreleased := booted_of_requests (h.requests hx) hidle
  exact hreleased.run (v := f + 1) (fun u hu hv ↦ h.plain (by omega) (by omega)) hs hf

theorem enabled (hx : (x.run ins s).dev.resetting = false) {t : ℕ} (he : e < t) (hf : t ≤ f + 1) :
    (x.run ins t).dev.regs.ctrlReg = 2 := by
  have hdelay := h.delay
  induction t, he using Nat.le_induction with
  | base =>
      rw [Nat.succ_eq_add_one, run_succ, (h.booted hx (t := e) hdelay (by omega)).ctrlReg_step,
        h.enable]
      rfl
  | succ t he ih =>
      have hmild : (ins t).host.writesReg regCtrl = false := by
        rcases Nat.lt_or_eq_of_le (Nat.le_of_succ_le_succ hf) with hlt | rfl
        · rw [h.quiet t (by omega) hlt (by omega)]
          rfl
        · rw [h.featureId]
          rfl
      rw [run_succ, (h.booted hx (t := t) (by omega) (by omega)).ctrlReg_step, hmild,
        if_neg Bool.false_ne_true, ih (by omega)]

end HwInit

/-- Whatever the device is doing, `lgnpu_hw_init` brings it to rest. -/
theorem hw_init_recovers (hx : (x.run ins s).dev.resetting = false) (h : HwInit ins s e f) :
    x.Recovered ins s f := by
  have hdelay := h.delay
  have hlt := h.lt
  have hend := h.booted hx (t := f + 1) (by omega) le_rfl
  refine ⟨?_, hend.rest, h.enabled hx (by omega) le_rfl, hend.driver, fun t hs hf ↦ ?_⟩
  · rw [(h.booted hx (t := f) (by omega) (by omega)).featureId h.featureId]
    decide
  · have hen : (x.run ins t).dev.regs.irqEnable = false := by
      rcases Nat.lt_or_eq_of_le hs with h5 | rfl
      · rw [NpuCtrlRegs.irqEnable, (h.booted hx h5 hf).irqEnable]
        rfl
      · have hregs : (x.run ins (s + 4)).dev.regs = .reset :=
          if_pos (resetting_of_requests (h.requests hx)).2
        rw [hregs]
        rfl
    change ((x.run ins t).dev.pending && (x.run ins t).dev.regs.irqEnable) = false
    rw [hen, Bool.and_false]

/-! ### In the middle of a transfer -/

def bootInTransfer (t : ℕ) : ChipIn :=
  withHost (([.write regDmaLocAddr 0x20000, .write regDmaLen 4, .write regDmaCtrl 1,
    .write regDoorbell 1, .idle, .write regCtrl 1, .idle, .idle, .idle, .idle, .write regCtrl 2,
    .read regFeatureId] : List Mmio).getD t .idle)

theorem hw_init_recovers_inTransfer : reset.Recovered bootInTransfer 5 11 := by
  refine hw_init_recovers (e := 10) (by decide +kernel) ⟨rfl, le_rfl, rfl, by decide, rfl, ?_⟩
  intro t hs hf he
  interval_cases t <;> first | rfl | exact absurd rfl he

end Chip

end LgNpu
