import LgNpu.Device.Turns
import LgNpu.Host.Submit
import LgNpu.Sw.Command

/-!
# The driver on the device

`lgnpu_cmd_submit` and the interrupt handler on the device itself: the bus
cycles of the driver are cycles of the device, which supplies the values read
and the ends of commands.  No wait gives up and no transfer is made.
-/

namespace LgNpu

/-! ## Driver and device -/

/-- A device cycle without an access, or an operation of the thread or the
handler. -/
inductive Move
  | cycle
  | lockSubmit (words : ℕ → MmioData)
  | thread
  | reinit
  | wake
  | unlock
  | enterIsr
  | isr
  | complete

def descOf (words : ℕ → MmioData) : NpuCmdDesc := fun i ↦ words i.toNat

namespace Move

/-- The bus cycle a move takes. -/
def access (s : DriverSys) : Move → Option Mmio
  | cycle => some .idle
  | thread => s.holder.bind Holder.access
  | isr =>
      match s.handler with
      | .readStatus => some (.read regIrqStatus)
      | .clear => some (.write regIrqClear 1)
      | _ => none
  | _ => none

/-- The move with what the device supplies. -/
def act (rdata : MmioData) (e : Ends) : Move → Act
  | cycle => .cycle e
  | lockSubmit words => .lockSubmit words
  | thread => .thread rdata e
  | reinit => .reinit
  | wake => .wake
  | unlock => .unlock
  | enterIsr => .enterIsr
  | isr => .isr e
  | complete => .complete

def submits : Move → List NpuCmdDesc
  | lockSubmit words => [descOf words]
  | _ => []

end Move

/-- The driver and the device, beside the ideal device and the descriptors
submitted so far. -/
structure Driven where
  sw : DriverSys
  hw : Watched
  ideal : Ideal
  submitted : List NpuCmdDesc

namespace Driven

/-- An event ends the oldest command. -/
def endsOf (event : Bool) (running : List ℕ) : Ends := ⟨if event then running.take 1 else [], 0⟩

variable (x : Driven)

def step (mv : Move) (env : DeviceIn) : Option Driven :=
  match mv.access x.sw with
  | none =>
      (x.sw.step (mv.act 0 ⟨[], 0⟩)).map fun s ↦
        { x with sw := s, submitted := x.submitted ++ mv.submits }
  | some m =>
      let i := { env with host := m }
      (x.sw.step (mv.act (x.hw.dev.mmioRdata i) (endsOf x.hw.dev.event x.sw.running))).map fun s ↦
        { x with sw := s, hw := x.hw.step i, ideal := x.ideal.step m }

/-- The handler does not read `IRQ_STATUS` in the cycle after a clear, and only
what can be served is submitted. -/
structure Allowed (mv : Move) : Prop where
  gap : mv = .isr → x.sw.handler = .readStatus → x.sw.irq.clearR = false
  servable : ∀ words, mv = .lockSubmit words → x.ideal.sram.Servable (descOf words)

/-- A device at rest that has no interrupt pending or enabled, and no driver. -/
structure Start : Prop where
  sw : x.sw = .init
  rest : Watched.Rest x.hw x.ideal
  rung : x.ideal.rung = 0
  irq : x.hw.dev.shell.irqCtrl = ⟨false, false, false⟩
  isBufR : x.hw.dev.regs.isBufR = false
  submitted : x.submitted = []

inductive Reached (x₀ : Driven) : Driven → Prop
  | start : x₀.Start → Reached x₀ x₀
  | step {x y : Driven} {mv : Move} {env : DeviceIn} : Reached x₀ x → x.Allowed mv →
      x.step mv env = some y → Reached x₀ y

/-! ## What a move can do -/

/-- A bus cycle, after which the thread and the handler are where they are. -/
def bus (m : Mmio) (env : DeviceIn) (holder : Option Holder) (handler : HandlerPc) : Driven where
  sw := { x.sw.tick m (endsOf x.hw.dev.event x.sw.running) with holder, handler }
  hw := x.hw.step { env with host := m }
  ideal := x.ideal.step m
  submitted := x.submitted

def withSw (s : DriverSys) : Driven := { x with sw := s }

inductive Moved (env : DeviceIn) : Move → Driven → Prop
  | cycle : Moved env .cycle (x.bus .idle env x.sw.holder x.sw.handler)
  | lock {words} (hh : x.sw.holder = none) : Moved env (.lockSubmit words)
      { x.withSw { x.sw with holder := some (.submit words .readStatus) } with
        submitted := x.submitted ++ [descOf words] }
  | thread {h m} (hh : x.sw.holder = some h) (hm : h.access = some m) : Moved env .thread
      (x.bus m env (some (h.next (x.hw.dev.mmioRdata { env with host := m }) x.sw.rung))
        x.sw.handler)
  | reinit {words} (hh : x.sw.holder = some (.submit words .reinitCompletion)) :
      Moved env .reinit
        (x.withSw { x.sw with done := 0, holder := some (.submit words .irqEnable) })
  | wake {words cmd} (hh : x.sw.holder = some (.submit words (.waitForCompletion cmd)))
      (hd : 0 < x.sw.done) : Moved env .wake (x.withSw { x.sw with
        done := x.sw.done - 1, holder := some (.submit words (.irqDisable cmd .ok)) })
  | unlock {words cmd ret} (hh : x.sw.holder = some (.submit words (.unlock cmd ret))) :
      Moved env .unlock (x.withSw { x.sw with
        holder := none, returned := x.sw.returned ++ [(cmd, ret)] })
  | unlockDma {d ret} (hh : x.sw.holder = some (.dma d (.unlock ret))) :
      Moved env .unlock (x.withSw { x.sw with holder := none })
  | enterIsr (hk : x.sw.handler = .idle) :
      Moved env .enterIsr (x.withSw { x.sw with handler := .readStatus })
  | isrRead (hk : x.sw.handler = .readStatus) : Moved env .isr
      (x.bus (.read regIrqStatus) env x.sw.holder (if x.sw.irq.pending then .clear else .idle))
  | isrClear (hk : x.sw.handler = .clear) : Moved env .isr
      (x.bus (.write regIrqClear 1) env x.sw.holder .complete)
  | complete (hk : x.sw.handler = .complete) : Moved env .complete
      (x.withSw { x.sw with done := x.sw.done + 1, handler := .idle })

variable {x} {y : Driven} {mv : Move} {env : DeviceIn}

theorem canEnd (s : DriverSys) (event : Bool) : s.CanEnd (endsOf event s.running) := by
  refine ⟨fun c hc ↦ ?_, Nat.zero_le _⟩
  cases event with
  | false => exact absurd hc List.not_mem_nil
  | true => exact List.mem_of_mem_take hc

theorem step_silent (ha : mv.access x.sw = none) (hs : mv.submits = [])
    (h : x.step mv env = some y) : ∃ s, x.sw.step (mv.act 0 ⟨[], 0⟩) = some s ∧ y = x.withSw s := by
  simp only [step, ha, hs, List.append_nil, Option.map_eq_some_iff] at h
  obtain ⟨s, hs, rfl⟩ := h
  exact ⟨s, hs, rfl⟩

theorem step_bus {m : Mmio} (ha : mv.access x.sw = some m) (h : x.step mv env = some y) :
    ∃ s, x.sw.step (mv.act (x.hw.dev.mmioRdata { env with host := m })
        (endsOf x.hw.dev.event x.sw.running)) = some s ∧
      y = { x.bus m env x.sw.holder x.sw.handler with sw := s } := by
  simp only [step, ha, Option.map_eq_some_iff] at h
  obtain ⟨s, hs, rfl⟩ := h
  exact ⟨s, hs, rfl⟩

theorem threadStep_of_none {s : DriverSys} (ha : Move.access s .thread = none) (rdata : MmioData)
    (e : Ends) : s.threadStep rdata e = none := by
  rw [Move.access] at ha
  unfold DriverSys.threadStep
  cases hh : s.holder with
  | none => rfl
  | some k =>
      have hnone : k.access = none := by rwa [hh] at ha
      simp [hnone]

/-- A move does one of these. -/
theorem moved (h : x.step mv env = some y) : x.Moved env mv y := by
  have hends := canEnd x.sw x.hw.dev.event
  cases mv with
  | cycle =>
      obtain ⟨s, hs, rfl⟩ := step_bus (m := .idle) rfl h
      obtain rfl := Option.some.inj ((if_pos hends).symm.trans hs)
      exact .cycle
  | lockSubmit words =>
      obtain ⟨s, hs, rfl⟩ := Option.map_eq_some_iff.mp h
      obtain ⟨hfree, hs⟩ := Option.ite_none_left_eq_some.mp hs
      obtain rfl := Option.some.inj hs
      exact .lock (by simpa using hfree)
  | thread =>
      cases ha : Move.access x.sw .thread with
      | none =>
          obtain ⟨s, hs, rfl⟩ := step_silent ha rfl h
          exact absurd hs (by simp [Move.act, DriverSys.step, threadStep_of_none ha])
      | some m =>
          obtain ⟨s, hs, rfl⟩ := step_bus ha h
          obtain ⟨k, hh, hm⟩ := Option.bind_eq_some_iff.mp ha
          obtain ⟨-, hs⟩ := Option.ite_none_right_eq_some.mp hs
          simp only [DriverSys.threadStep, hh, hm] at hs
          obtain ⟨-, hs⟩ := Option.ite_none_left_eq_some.mp hs
          obtain rfl := Option.some.inj hs
          exact .thread hh hm
  | reinit =>
      obtain ⟨s, hs, rfl⟩ := step_silent rfl rfl h
      simp only [Move.act, DriverSys.step, DriverSys.reinitStep] at hs
      split at hs
      · next words hh =>
          obtain rfl := Option.some.inj hs
          exact .reinit hh
      · cases hs
  | wake =>
      obtain ⟨s, hs, rfl⟩ := step_silent rfl rfl h
      simp only [Move.act, DriverSys.step, DriverSys.waitStep] at hs
      split at hs
      · next words cmd hh =>
          obtain ⟨hd, hs⟩ := Option.ite_none_right_eq_some.mp hs
          obtain rfl := Option.some.inj hs
          exact .wake hh hd
      · cases hs
  | unlock =>
      obtain ⟨s, hs, rfl⟩ := step_silent rfl rfl h
      simp only [Move.act, DriverSys.step, DriverSys.unlockStep] at hs
      split at hs
      · next words cmd ret hh =>
          obtain rfl := Option.some.inj hs
          exact .unlock hh
      · next d ret hh =>
          obtain rfl := Option.some.inj hs
          exact .unlockDma hh
      · cases hs
  | enterIsr =>
      obtain ⟨s, hs, rfl⟩ := step_silent rfl rfl h
      obtain ⟨hk, hs⟩ := Option.ite_none_right_eq_some.mp hs
      obtain rfl := Option.some.inj hs
      exact .enterIsr hk
  | isr =>
      cases hk : x.sw.handler with
      | readStatus =>
          obtain ⟨s, hs, rfl⟩ := step_bus (m := .read regIrqStatus) (by rw [Move.access, hk]) h
          obtain ⟨-, hs⟩ := Option.ite_none_right_eq_some.mp hs
          simp only [DriverSys.isrStep, hk] at hs
          obtain rfl := Option.some.inj hs
          exact .isrRead hk
      | clear =>
          obtain ⟨s, hs, rfl⟩ := step_bus (m := .write regIrqClear 1) (by rw [Move.access, hk]) h
          obtain ⟨-, hs⟩ := Option.ite_none_right_eq_some.mp hs
          simp only [DriverSys.isrStep, hk] at hs
          obtain rfl := Option.some.inj hs
          exact .isrClear hk
      | idle =>
          obtain ⟨s, hs, rfl⟩ := step_silent (by rw [Move.access, hk]) rfl h
          simp [Move.act, DriverSys.step, DriverSys.isrStep, hk] at hs
      | complete =>
          obtain ⟨s, hs, rfl⟩ := step_silent (by rw [Move.access, hk]) rfl h
          simp [Move.act, DriverSys.step, DriverSys.isrStep, hk] at hs
  | complete =>
      obtain ⟨s, hs, rfl⟩ := step_silent rfl rfl h
      obtain ⟨hk, hs⟩ := Option.ite_none_right_eq_some.mp hs
      obtain rfl := Option.some.inj hs
      exact .complete hk

/-! ## What driver and device agree on -/

/-- The driver's view of the device. -/
structure Joined (s : DriverSys) (x : Watched) (a : Ideal) : Prop where
  linked : x.Linked a
  irq : s.irq = x.dev.shell.irqCtrl
  rung : s.rung = a.rung
  running : s.running = if x.events = a.rung then [] else [x.events]
  transfers : s.transfers = 0
  isBufR : x.dev.regs.isBufR = false

namespace Joined

variable {s : DriverSys} {x : Watched} {a : Ideal} {env : DeviceIn} {m : Mmio}
  (h : Joined s x a)
include h

theorem event_eq : (endsOf x.dev.event s.running).event = x.dev.event := by
  cases hev : x.dev.event with
  | false => rfl
  | true =>
      have hne : x.events ≠ a.rung := fun heq ↦
        Bool.false_ne_true ((h.linked.event heq).symm.trans hev)
      rw [h.running, if_neg hne]
      rfl

theorem running_tick (hp : Polite { env with host := m } x a) :
    (s.tick m (endsOf x.dev.event s.running)).running =
      if x.events + x.dev.event.toNat = a.rung + m.rings.toNat then []
      else [x.events + x.dev.event.toNat] := by
  have honce := h.linked.once
  simp only [DriverSys.tick, h.running, h.rung]
  by_cases heq : x.events = a.rung
  · rw [h.linked.event heq, if_pos heq, heq]
    cases m.rings <;> simp
  · have hr : m.rings = false := (hp.elsewhere heq).1
    rw [if_neg heq, hr]
    cases x.dev.event with
    | false => simp [endsOf, heq]
    | true =>
        have hnext : x.events + 1 = a.rung := by omega
        simp [endsOf, hnext]

/-- A polite bus cycle that leaves the buffers alone. -/
theorem tick (hp : Polite { env with host := m } x a) (hb : (m.valid && m.isBuf) = false)
    (hd : m.startsDma = false) : Joined (s.tick m (endsOf x.dev.event s.running))
      (x.step { env with host := m }) (a.step m) where
  linked := h.linked.step hp
  irq := by
    have hstep := NpuShell.irqCtrl_step (i := x.dev.shellIn { env with host := m })
      h.linked.still.stable
    have hevent := h.event_eq
    change s.irq.step m (endsOf x.dev.event s.running).event = (x.dev.step _).shell.irqCtrl
    rw [Device.shell_step, hstep, hevent, h.irq, Device.event, Bool.or_assoc, Bool.or_assoc]
    rfl
  rung := by
    rw [DriverSys.tick, h.rung]
    rfl
  running := h.running_tick hp
  transfers := by
    rw [DriverSys.tick, h.transfers, hd]
    rfl
  isBufR := by
    have hregs : (x.dev.step { env with host := m }).regs = x.dev.regs.step m :=
      NpuShell.regs_step h.linked.still.stable
    change (x.dev.step _).regs.isBufR = false
    rw [hregs]
    change (if m.valid then m.isBuf else x.dev.regs.isBufR) = false
    cases hv : m.valid with
    | true => simpa [hv] using hb
    | false => exact h.isBufR

/-- The queue never looks full. -/
theorem status (hev : x.events = a.rung) :
    (x.dev.mmioRdata { env with host := .read regStatus }).getLsbD 2 = false := by
  have hfull : x.dev.fe.queue.full = false := Bool.eq_false_iff.mpr fun hf ↦
    absurd ((h.linked.vacant hev).queue.full_iff.mp hf) (by decide)
  have hread : x.dev.mmioRdata { env with host := .read regStatus } =
      x.dev.regs.regRdata regStatus (x.dev.wires { env with host := .read regStatus })
        x.dev.pending x.dev.dma.dmaBusy := if_neg (Bool.eq_false_iff.mp h.isBufR)
  rw [hread]
  change BitVec.getLsbD (BitVec.ofNat 32 (_ + _ + 4 * x.dev.fe.queue.full.toNat)) 2 = _
  rw [hfull]
  generalize (x.dev.wires { env with host := .read regStatus }).coreIdle x.dev.dma.dmaBusy = b
  cases b <;> cases ((x.dev.wires { env with host := .read regStatus }).beBusy ||
    x.dev.dma.dmaBusy) <;> rfl

end Joined

/-! ## The course of a submission -/

/-- The first `n` submissions have returned 0 in their order. -/
def okReturns (n : ℕ) : List (Option ℕ × Ret) := (List.range n).map fun k ↦ (some k, .ok)

variable (s₀ : Sram) (x : Driven)

/-- The ideal device has executed the descriptors `ds`. -/
structure Books (ds : List NpuCmdDesc) : Prop where
  rung : x.ideal.rung = ds.length
  sram : x.ideal.sram = ds.foldl Sram.exec s₀

/-- Nothing is outstanding, and a pending bit is about to be cleared. -/
structure Calm : Prop where
  answered : x.hw.events = x.ideal.rung
  handler : x.sw.handler = .idle ∨ x.sw.handler = .readStatus
  fading : x.sw.irq.pending = false ∨ x.sw.irq.clearR = true

/-- What a submission has done before its doorbell. -/
def Asking (w : ℕ → MmioData) : SubmitPc → Prop
  | .readStatus => True
  | .writeWord i => i < 16 ∧ i < x.hw.quiet ∧ x.sw.irq.pending = false ∧
      ∀ j < i, x.ideal.window (.ofNat 4 j) = w j
  | .reinitCompletion => 16 ≤ x.hw.quiet ∧ x.sw.irq.pending = false ∧ x.ideal.window = descOf w
  | .irqEnable => 16 ≤ x.hw.quiet ∧ x.sw.irq.pending = false ∧ x.ideal.window = descOf w
  | .ringDoorbell => 16 ≤ x.hw.quiet ∧ x.sw.irq.pending = false ∧ x.ideal.window = descOf w ∧
      x.sw.irq.enable = true
  | _ => False

/-- How far the end of the last command has come to the waiting thread. -/
inductive Sign : Prop
  | none (hev : x.hw.events + 1 = x.ideal.rung)
      (hk : x.sw.handler = .idle ∨ x.sw.handler = .readStatus) (hp : x.sw.irq.pending = false)
      (hc : x.sw.irq.clearR = false) (hd : x.sw.done = 0)
  | pending (hev : x.hw.events = x.ideal.rung)
      (hk : x.sw.handler = .idle ∨ x.sw.handler = .readStatus ∨ x.sw.handler = .clear)
      (hp : x.sw.irq.pending = true) (hc : x.sw.irq.clearR = false) (hd : x.sw.done = 0)
  | cleared (hev : x.hw.events = x.ideal.rung) (hk : x.sw.handler = .complete)
      (hp : x.sw.irq.pending = false ∨ x.sw.irq.clearR = true) (hd : x.sw.done = 0)
  | completed (hcalm : x.Calm) (hd : x.sw.done = 1)

inductive Phase : Prop
  | free (hh : x.sw.holder = .none) (hcalm : x.Calm) (hd : x.sw.done = 0)
      (hbooks : x.Books s₀ x.submitted) (hret : x.sw.returned = okReturns x.ideal.rung)
  | asking {w pc ds} (hh : x.sw.holder = some (.submit w pc)) (hcalm : x.Calm)
      (hd : x.sw.done = 0) (hpc : x.Asking w pc) (hok : x.ideal.sram.Servable (descOf w))
      (hsub : x.submitted = ds ++ [descOf w]) (hbooks : x.Books s₀ ds)
      (hret : x.sw.returned = okReturns x.ideal.rung)
  | waiting {w c} (hh : x.sw.holder = some (.submit w (.waitForCompletion c)))
      (hc : x.ideal.rung = c + 1) (hen : x.sw.irq.enable = true) (hsign : x.Sign)
      (hbooks : x.Books s₀ x.submitted) (hret : x.sw.returned = okReturns c)
  | leaving {w c pc} (hh : x.sw.holder = some (.submit w pc))
      (hpc : pc = .irqDisable c .ok ∨ pc = .unlock (some c) .ok) (hc : x.ideal.rung = c + 1)
      (hcalm : x.Calm) (hd : x.sw.done = 0) (hbooks : x.Books s₀ x.submitted)
      (hret : x.sw.returned = okReturns c)

structure Inv : Prop where
  joined : Joined x.sw x.hw x.ideal
  phase : x.Phase s₀

/-! ## Bus cycles -/

variable {s₀ x} {m : Mmio} {env : DeviceIn} {holder : Option Holder} {k : HandlerPc}

theorem plain_irqStatus : Mmio.Plain (.read regIrqStatus) := ⟨⟨nofun, rfl, rfl, rfl, rfl⟩, rfl, rfl⟩

theorem plain_status : Mmio.Plain (.read regStatus) := ⟨⟨nofun, rfl, rfl, rfl, rfl⟩, rfl, rfl⟩

/-- The handler stays, or it has read `IRQ_STATUS`. -/
def Reads (x : Driven) (k : HandlerPc) : Prop := k = x.sw.handler ∨
  x.sw.handler = .readStatus ∧ x.sw.irq.clearR = false ∧
    k = if x.sw.irq.pending then .clear else .idle

theorem Calm.reads (h : x.Calm) (hk : x.Reads k) : k = .idle ∨ k = .readStatus := by
  rcases hk with rfl | ⟨-, hc, rfl⟩
  · exact h.handler
  · have hp : x.sw.irq.pending = false := h.fading.resolve_right (by simp [hc])
    simp [hp]

section Bus

variable (hj : Joined x.sw x.hw x.ideal)
include hj

theorem irq_bus : (x.bus m env holder k).sw.irq = x.sw.irq.step m x.hw.dev.event := by
  have hevent := hj.event_eq
  change x.sw.irq.step m (endsOf x.hw.dev.event x.sw.running).event = _
  rw [hevent]

theorem quiet_bus (hev : x.hw.events = x.ideal.rung) :
    (x.bus m env holder k).hw.quiet = x.hw.quiet + 1 := by
  change (if x.hw.dev.event then 0 else x.hw.quiet + 1) = _
  rw [hj.linked.event hev]
  rfl

theorem events_bus (hev : x.hw.events = x.ideal.rung) :
    (x.bus m env holder k).hw.events = x.hw.events := by
  change x.hw.events + x.hw.dev.event.toNat = _
  rw [hj.linked.event hev]
  rfl

/-- Once nothing is outstanding the pending bit is gone after a cycle. -/
theorem Calm.pending_bus (h : x.Calm) : (x.bus m env holder k).sw.irq.pending = false := by
  rw [irq_bus hj, IrqCtrl.step, hj.linked.event h.answered, Bool.or_false]
  rcases h.fading with hp | hc
  · rw [hp, ite_self]
  · rw [hc]
    rfl

theorem Calm.bus (h : x.Calm) (hr : m.rings = false) (hk : k = .idle ∨ k = .readStatus) :
    (x.bus m env holder k).Calm := by
  refine ⟨?_, hk, .inl (h.pending_bus hj)⟩
  rw [events_bus hj h.answered, h.answered]
  exact (Ideal.rung_step hr).symm

theorem Joined.bus (hp : Polite { env with host := m } x.hw x.ideal)
    (hb : (m.valid && m.isBuf) = false) (hd : m.startsDma = false) :
    Joined (x.bus m env holder k).sw (x.bus m env holder k).hw (x.bus m env holder k).ideal := by
  obtain ⟨hlinked, hirq, hrung, hrunning, htransfers, hbuf⟩ := hj.tick hp hb hd
  exact ⟨hlinked, hirq, hrung, hrunning, htransfers, hbuf⟩

theorem Sign.bus (h : x.Sign) (hm : m.Plain) (hk : x.Reads k) :
    (x.bus m env holder k).Sign := by
  have hirq : (x.bus m env holder k).sw.irq = x.sw.irq.step m x.hw.dev.event := irq_bus hj
  have hideal : (x.bus m env holder k).ideal = x.ideal := hm.ideal_step x.ideal
  have hclear : (x.bus m env holder k).sw.irq.clearR = false := by
    rw [hirq]
    exact hm.noClear
  cases h with
  | none hev hh hp hc hd =>
      have hk' : k = .idle ∨ k = .readStatus := by
        rcases hk with rfl | ⟨-, -, rfl⟩
        · exact hh
        · simp [hp]
      have hpending : (x.bus m env holder k).sw.irq.pending = x.hw.dev.event := by
        rw [hirq, IrqCtrl.step, hc, hp]
        rfl
      have hevents : (x.bus m env holder k).hw.events = x.hw.events + x.hw.dev.event.toNat := rfl
      cases he : x.hw.dev.event with
      | false =>
          refine .none ?_ hk' (hpending.trans he) hclear hd
          rw [hevents, hideal, he]
          exact hev
      | true =>
          refine .pending ?_ (hk'.imp_right .inl) (hpending.trans he) hclear hd
          rw [hevents, hideal, he]
          exact hev
  | pending hev hh hp hc hd =>
      refine .pending ?_ ?_ ?_ hclear hd
      · rw [events_bus hj hev, hideal, hev]
      · rcases hk with rfl | ⟨-, -, rfl⟩
        · exact hh
        · exact .inr (.inr (if_pos hp))
      · rw [hirq, IrqCtrl.step, hc, hp]
        rfl
  | cleared hev hh hp hd =>
      have hk' : k = .complete := by
        rcases hk with rfl | ⟨hread, -⟩
        · exact hh
        · exact absurd (hh.symm.trans hread) (by decide)
      refine .cleared ?_ hk' ?_ hd
      · rw [events_bus hj hev, hideal, hev]
      · rw [hirq, IrqCtrl.step, hj.linked.event hev]
        rcases hp with hp | hc
        · simp [hp]
        · simp [hc]
  | completed hcalm hd => exact .completed (hcalm.bus hj hm.noRing (hcalm.reads hk)) hd

end Bus

end Driven

end LgNpu
