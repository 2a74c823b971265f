import LgNpu.Dma.Driver

/-!
# The driver's submissions

`lgnpu_cmd_submit`, `lgnpu_dma_transfer` and the interrupt handler around the
one pending bit of `npu_irq_ctrl`.  Threads, handler and device interleave
freely: a device cycle carries at most one register access, and any outstanding
command or transfer may end in it.
-/

namespace LgNpu

/-! ## The interrupt controller -/

/-- `npu_irq_ctrl` with the registers that drive it. -/
structure IrqCtrl where
  pending : Bool
  enable : Bool
  clearR : Bool

namespace IrqCtrl

variable (s : IrqCtrl)

def irqOut : Bool := s.pending && s.enable

def step (m : Mmio) (event : Bool) : IrqCtrl where
  pending := if s.clearR then false else s.pending || event
  enable := if m.writesReg regIrqEnable then m.wdata.getLsbD 0 else s.enable
  clearR := m.writesReg regIrqClear

end IrqCtrl

/-- The interrupt controller of the shell. -/
def NpuShell.irqCtrl (s : NpuShell) : IrqCtrl := ⟨s.pending, s.regs.irqEnable, s.regs.irqClearR⟩

theorem NpuShell.irqCtrl_step {s : NpuShell} {i : ShellIn} (h : s.Stable) :
    (s.step i).irqCtrl =
      s.irqCtrl.step i.host (i.core.cmdDone || s.dma.dmaDone || i.core.decodeErr) := by
  have henable : (s.step i).regs.irqEnable = if i.host.writesReg regIrqEnable then
      i.host.wdata.getLsbD 0 else s.regs.irqEnable := by
    rw [NpuShell.regs_step h]
    simp only [NpuCtrlRegs.irqEnable, NpuCtrlRegs.step]
    split <;> rfl
  have hclear : (s.step i).regs.irqClearR = i.host.writesReg regIrqClear := by
    rw [NpuShell.regs_step h]
    rfl
  have hpending : (s.step i).pending = if s.regs.irqClearR then false
      else s.pending || (i.core.cmdDone || s.dma.dmaDone || i.core.decodeErr) := by
    simp only [NpuShell.step, h.resetting, Bool.false_or, Bool.or_assoc]
  rw [NpuShell.irqCtrl, henable, hclear, hpending]
  rfl

/-! ## Threads and handler -/

/-- `0`, `-EBUSY`, `-ETIMEDOUT`, `-ERESTARTSYS`. -/
inductive Ret
  | ok | busy | timedOut | interrupted
  deriving DecidableEq

/-- The next operation of `lgnpu_cmd_submit`; commands are numbered by their
doorbells. -/
inductive SubmitPc
  | readStatus
  | writeWord (i : ℕ)
  | reinitCompletion
  | irqEnable
  | ringDoorbell
  | waitForCompletion (cmd : ℕ)
  | irqDisable (cmd : ℕ) (ret : Ret)
  | unlock (cmd : Option ℕ) (ret : Ret)
  deriving DecidableEq

/-- The next operation of `lgnpu_dma_transfer`. -/
inductive DmaPc
  | program (i : ℕ)
  | poll (i : ℕ)
  | irqClear
  | unlock (ret : Ret)
  deriving DecidableEq

/-- The thread that holds `cmd_lock`. -/
inductive Holder
  | submit (words : ℕ → MmioData) (pc : SubmitPc)
  | dma (d : LgnpuIoctlDma) (pc : DmaPc)

def lgnpuCmdWords : ℕ := 16

namespace SubmitPc

def access (words : ℕ → MmioData) : SubmitPc → Option Mmio
  | readStatus => some (.read regStatus)
  | writeWord i => some (.write (cmdQueueBase + .ofNat 20 (4 * i)) (words i))
  | irqEnable => some (.write regIrqEnable 1)
  | ringDoorbell => some (.write regDoorbell 1)
  | irqDisable _ _ => some (.write regIrqEnable 0)
  | _ => none

/-- What follows the access: `rdata` is the value read, `rung` the number of
doorbells before. -/
def next (rdata : MmioData) (rung : ℕ) : SubmitPc → SubmitPc
  | readStatus => if rdata.getLsbD 2 then unlock none .busy else writeWord 0
  | writeWord i => if i + 1 < lgnpuCmdWords then writeWord (i + 1) else reinitCompletion
  | irqEnable => ringDoorbell
  | ringDoorbell => waitForCompletion rung
  | irqDisable cmd ret => unlock (some cmd) ret
  | pc => pc

theorem next_cases {words : ℕ → MmioData} {pc : SubmitPc} {m : Mmio} (rdata : MmioData) (n : ℕ)
    (h : pc.access words = some m) :
    (pc = irqEnable ∧ m = .write regIrqEnable 1 ∧ pc.next rdata n = ringDoorbell) ∨
    (pc = ringDoorbell ∧ m = .write regDoorbell 1 ∧ pc.next rdata n = waitForCompletion n) ∨
    (∃ cmd ret, pc = irqDisable cmd ret ∧ pc.next rdata n = unlock (some cmd) ret) ∨
    pc.next rdata n = unlock none .busy ∨ (∃ i, pc.next rdata n = writeWord i) ∨
      pc.next rdata n = reinitCompletion := by
  cases pc with
  | readStatus =>
      refine .inr (.inr (.inr ?_))
      by_cases hfull : rdata.getLsbD 2
      · exact .inl (if_pos hfull)
      · exact .inr (.inl ⟨0, if_neg hfull⟩)
  | writeWord i =>
      refine .inr (.inr (.inr (.inr ?_)))
      by_cases hi : i + 1 < lgnpuCmdWords
      · exact .inl ⟨i + 1, if_pos hi⟩
      · exact .inr (if_neg hi)
  | irqEnable => exact .inl ⟨rfl, (Option.some.inj h).symm, rfl⟩
  | ringDoorbell => exact .inr (.inl ⟨rfl, (Option.some.inj h).symm, rfl⟩)
  | irqDisable cmd ret => exact .inr (.inr (.inl ⟨cmd, ret, rfl, rfl⟩))
  | reinitCompletion | waitForCompletion | unlock => cases h

/-- `lgnpu_irq_enable` and `lgnpu_irq_disable` take `irq_lock`. -/
def takesIrqLock : SubmitPc → Bool
  | irqEnable => true
  | irqDisable _ _ => true
  | _ => false

end SubmitPc

namespace DmaPc

def access (d : LgnpuIoctlDma) : DmaPc → Option Mmio
  | program i => (dmaProgram d.extAddr d.locAddr d.len d.ctl)[i]?
  | poll _ => some (.read regDmaStatus)
  | irqClear => some (.write regIrqClear 1)
  | unlock _ => none

def next (rdata : MmioData) : DmaPc → DmaPc
  | program i => if i + 1 < 4 then program (i + 1) else poll 0
  | poll i =>
      if rdata.getLsbD 0 then
        if i + 1 < lgnpuDmaPollIters then poll (i + 1) else unlock .timedOut
      else irqClear
  | irqClear => unlock .ok
  | pc => pc

end DmaPc

namespace Holder

def access : Holder → Option Mmio
  | submit words pc => pc.access words
  | dma d pc => pc.access d

def next (rdata : MmioData) (rung : ℕ) : Holder → Holder
  | submit words pc => submit words (pc.next rdata rung)
  | dma d pc => dma d (pc.next rdata)

def takesIrqLock : Holder → Bool
  | submit _ pc => pc.takesIrqLock
  | dma _ _ => false

end Holder

/-- The next operation of `lgnpu_irq_handler`. -/
inductive HandlerPc
  | idle | readStatus | clear | complete
  deriving DecidableEq

/-- The handler is inside `irq_lock`. -/
def HandlerPc.locked : HandlerPc → Bool
  | readStatus => true
  | clear => true
  | _ => false

/-! ## The system -/

/-- The commands and the number of transfers that end in a cycle. -/
structure Ends where
  cmds : List ℕ
  transfers : ℕ

def Ends.event (e : Ends) : Bool := !e.cmds.isEmpty || decide (0 < e.transfers)

structure DriverSys where
  irq : IrqCtrl
  rung : ℕ
  running : List ℕ
  transfers : ℕ
  holder : Option Holder
  handler : HandlerPc
  done : ℕ
  returned : List (Option ℕ × Ret)

inductive Act
  | cycle (e : Ends)
  | lockSubmit (words : ℕ → MmioData)
  | lockDma (d : LgnpuIoctlDma)
  | thread (rdata : MmioData) (e : Ends)
  | reinit
  | wake
  | giveUp (ret : Ret)
  | unlock
  | enterIsr
  | isr (e : Ends)
  | complete

namespace DriverSys

def init : DriverSys := ⟨⟨false, false, false⟩, 0, [], 0, none, .idle, 0, []⟩

variable (s : DriverSys)

/-- The command has been rung and has completed or been rejected. -/
def Ended (cmd : ℕ) : Prop := cmd < s.rung ∧ cmd ∉ s.running

/-- Only what is outstanding can end. -/
def CanEnd (e : Ends) : Prop := (∀ c ∈ e.cmds, c ∈ s.running) ∧ e.transfers ≤ s.transfers

instance (e : Ends) : Decidable (s.CanEnd e) := inferInstanceAs (Decidable (_ ∧ _))

/-- A device cycle with the access `m`. -/
def tick (m : Mmio) (e : Ends) : DriverSys :=
  { s with
    irq := s.irq.step m e.event
    rung := s.rung + m.rings.toNat
    running := s.running.filter (· ∉ e.cmds) ++ if m.rings then [s.rung] else []
    transfers := s.transfers - e.transfers + m.startsDma.toNat }

/-- The holder's next register access. -/
def threadStep (rdata : MmioData) (e : Ends) : Option DriverSys :=
  match s.holder with
  | none => none
  | some h =>
      if h.takesIrqLock && s.handler.locked then none
      else h.access.map fun m ↦ { s.tick m e with holder := some (h.next rdata s.rung) }

/-- The handler's next register access. -/
def isrStep (e : Ends) : Option DriverSys :=
  match s.handler with
  | .readStatus =>
      some { s.tick (.read regIrqStatus) e with
        handler := if s.irq.pending then .clear else .idle }
  | .clear => some { s.tick (.write regIrqClear 1) e with handler := .complete }
  | _ => none

/-- The return from the critical section. -/
def unlockStep : Option DriverSys :=
  match s.holder with
  | some (.submit _ (.unlock cmd ret)) =>
      some { s with holder := none, returned := s.returned ++ [(cmd, ret)] }
  | some (.dma _ (.unlock _)) => some { s with holder := none }
  | _ => none

/-- `wait_for_completion_interruptible_timeout` returns: woken, or timed out or
interrupted when there is nothing to wake for. -/
def waitStep (ret : Ret) : Option DriverSys :=
  match s.holder with
  | some (.submit words (.waitForCompletion cmd)) =>
      let left := { s with
        done := s.done - 1
        holder := some (.submit words (.irqDisable cmd ret)) }
      match ret with
      | .ok => if 0 < s.done then some left else none
      | .timedOut => if s.done = 0 then some left else none
      | .interrupted => if s.done = 0 then some left else none
      | .busy => none
  | _ => none

def reinitStep : Option DriverSys :=
  match s.holder with
  | some (.submit words .reinitCompletion) =>
      some { s with done := 0, holder := some (.submit words .irqEnable) }
  | _ => none

def lockStep (h : Holder) : Option DriverSys :=
  if s.holder.isSome then none else some { s with holder := some h }

/-- One step of the interleaving; `none` when it is not possible. -/
def step : Act → Option DriverSys
  | .cycle e => if s.CanEnd e then some (s.tick .idle e) else none
  | .lockSubmit words => s.lockStep (.submit words .readStatus)
  | .lockDma d => s.lockStep (.dma d (.program 0))
  | .thread rdata e => if s.CanEnd e then s.threadStep rdata e else none
  | .reinit => s.reinitStep
  | .wake => s.waitStep .ok
  | .giveUp ret => if ret = .ok then none else s.waitStep ret
  | .unlock => s.unlockStep
  | .enterIsr => if s.handler = .idle then some { s with handler := .readStatus } else none
  | .isr e => if s.CanEnd e then s.isrStep e else none
  | .complete =>
      if s.handler = .complete then some { s with done := s.done + 1, handler := .idle } else none

/-! ## A submission on its own -/

/-- Nothing is outstanding, no interrupt is pending, and no handler has read a
pending one without having signalled it. -/
structure Quiet : Prop where
  running : s.running = []
  transfers : s.transfers = 0
  pending : s.irq.pending = false
  notClear : s.handler ≠ .clear
  notComplete : s.handler ≠ .complete

/-- Only `cmd` may be outstanding, and every sign of an end is its own. -/
structure Waiting (cmd : ℕ) : Prop where
  rung : cmd < s.rung
  running : ∀ c ∈ s.running, c = cmd
  transfers : s.transfers = 0
  own : s.irq.pending = true ∨ s.handler = .clear ∨ s.handler = .complete ∨ 0 < s.done →
    cmd ∉ s.running

/-- Each submission past its rearming waits on its own. -/
structure Inv : Prop where
  lt : ∀ c ∈ s.running, c < s.rung
  armed : ∀ w pc, s.holder = some (.submit w pc) → pc = .irqEnable ∨ pc = .ringDoorbell →
    s.Quiet ∧ s.done = 0
  waiting : ∀ w c, s.holder = some (.submit w (.waitForCompletion c)) → s.Waiting c
  leaving : ∀ w c, s.holder = some (.submit w (.irqDisable c .ok)) ∨
    s.holder = some (.submit w (.unlock (some c) .ok)) → s.Ended c
  refused : ∀ w, s.holder ≠ some (.submit w (.unlock none .ok))
  returned : ∀ r ∈ s.returned, r.2 = .ok → ∃ c, r.1 = some c ∧ s.Ended c

variable {s} {m : Mmio} {e : Ends}

theorem Inv.init : Inv init where
  lt c hc := absurd hc List.not_mem_nil
  armed _ _ h := absurd h (by simp [DriverSys.init])
  waiting _ _ h := absurd h (by simp [DriverSys.init])
  leaving _ _ h := absurd h (by simp [DriverSys.init])
  refused _ := by simp [DriverSys.init]
  returned r hr := absurd hr List.not_mem_nil

theorem lt_tick (h : ∀ c ∈ s.running, c < s.rung) : ∀ c ∈ (s.tick m e).running,
    c < (s.tick m e).rung := by
  intro c hc
  change c < s.rung + m.rings.toNat
  rcases List.mem_append.mp hc with hc | hc
  · have := h c (List.mem_filter.mp hc).1
    omega
  · split at hc
    · next hr =>
        rw [List.mem_singleton.mp hc, hr]
        exact Nat.lt_succ_self _
    · exact absurd hc List.not_mem_nil

theorem Ended.tick {c : ℕ} (h : s.Ended c) : (s.tick m e).Ended c := by
  refine ⟨Nat.lt_add_right _ h.1, fun hc ↦ ?_⟩
  rcases List.mem_append.mp hc with hc | hc
  · exact h.2 (List.mem_filter.mp hc).1
  · split at hc
    · rw [List.mem_singleton.mp hc] at h
      exact lt_irrefl _ h.1
    · exact absurd hc List.not_mem_nil

theorem Quiet.ends (h : s.Quiet) (he : s.CanEnd e) : e.event = false := by
  obtain ⟨hc, ht⟩ := he
  rw [h.running] at hc
  rw [h.transfers] at ht
  have hnil : e.cmds = [] := List.eq_nil_iff_forall_not_mem.mpr fun c hmem ↦
    absurd (hc c hmem) List.not_mem_nil
  simp [Ends.event, hnil, Nat.le_zero.mp ht]

theorem Quiet.tick (h : s.Quiet) (he : s.CanEnd e) (hr : m.rings = false)
    (hd : m.startsDma = false) : (s.tick m e).Quiet where
  running := by simp [DriverSys.tick, h.running, hr]
  transfers := by simp [DriverSys.tick, h.transfers, hd]
  pending := by simp [DriverSys.tick, IrqCtrl.step, h.pending, h.ends he]
  notClear := h.notClear
  notComplete := h.notComplete

theorem Waiting.tick {c : ℕ} (h : s.Waiting c) (he : s.CanEnd e) (hr : m.rings = false)
    (hd : m.startsDma = false) : (s.tick m e).Waiting c where
  rung := Nat.lt_add_right _ h.rung
  running := by
    intro d hmem
    simp only [DriverSys.tick, hr, Bool.false_eq_true, if_false, List.append_nil] at hmem
    exact h.running d (List.mem_filter.mp hmem).1
  transfers := by simp [DriverSys.tick, h.transfers, hd]
  own := by
    intro hsign hmem
    simp only [DriverSys.tick, hr, Bool.false_eq_true, if_false, List.append_nil] at hmem
    obtain ⟨hold, hnot⟩ := List.mem_filter.mp hmem
    have hnone : s.irq.pending = false := Bool.eq_false_iff.mpr fun hp ↦ h.own (.inl hp) hold
    rcases hsign with hp | hrest
    · simp only [DriverSys.tick, IrqCtrl.step, hnone, Bool.false_or] at hp
      split at hp
      · exact Bool.false_ne_true hp
      · -- What has just ended can only be the command itself.
        rw [Ends.event, Bool.or_eq_true] at hp
        rcases hp with hp | hp
        · obtain ⟨d, hmem'⟩ := List.exists_mem_of_ne_nil e.cmds (by simpa using hp)
          obtain rfl := h.running d (he.1 d hmem')
          simp [hmem'] at hnot
        · have := he.2
          rw [h.transfers] at this
          have := of_decide_eq_true hp
          omega
    · exact h.own (.inr hrest) hold

/-! ## Every step keeps the invariant -/

section

variable {s' : DriverSys}

/-- A step of the device or the handler. -/
theorem Inv.frame (h : s.Inv) (hholder : s'.holder = s.holder) (hret : s'.returned = s.returned)
    (hlt : ∀ c ∈ s'.running, c < s'.rung) (hended : ∀ c, s.Ended c → s'.Ended c)
    (hquiet : s.Quiet → s.done = 0 → s'.Quiet ∧ s'.done = 0)
    (hwaiting : ∀ c, s.Waiting c → s'.Waiting c) : s'.Inv where
  lt := hlt
  armed w pc hs hpc := by
    obtain ⟨hq, hd⟩ := h.armed w pc (hholder ▸ hs) hpc
    exact hquiet hq hd
  waiting w c hs := hwaiting c (h.waiting w c (hholder ▸ hs))
  leaving w c hs := hended c (h.leaving w c (hholder ▸ hs))
  refused w := hholder ▸ h.refused w
  returned r hr hok := by
    obtain ⟨c, hc, he⟩ := h.returned r (hret ▸ hr) hok
    exact ⟨c, hc, hended c he⟩

theorem Inv.cycle (h : s.Inv) (he : s.CanEnd e) : (s.tick .idle e).Inv :=
  h.frame rfl rfl (lt_tick h.lt) (fun _ ↦ Ended.tick) (fun hq hd ↦ ⟨hq.tick he rfl rfl, hd⟩)
    (fun _ hw ↦ hw.tick he rfl rfl)

theorem Inv.isr (h : s.Inv) (he : s.CanEnd e) (hs : s.isrStep e = some s') : s'.Inv := by
  unfold isrStep at hs
  split at hs
  case h_1 =>
    obtain rfl := Option.some.inj hs
    refine h.frame rfl rfl (lt_tick h.lt) (fun _ ↦ Ended.tick) (fun hq hd ↦ ⟨?_, hd⟩)
      (fun c hw ↦ ?_)
    · have ht := hq.tick (m := .read regIrqStatus) he rfl rfl
      exact ⟨ht.running, ht.transfers, ht.pending, by simp [hq.pending], by simp [hq.pending]⟩
    · have ht := hw.tick (m := .read regIrqStatus) he rfl rfl
      refine ⟨ht.rung, ht.running, ht.transfers, fun hsign ↦ ?_⟩
      rcases hsign with hp | hc | hc | hd
      · exact ht.own (.inl hp)
      · -- The handler has read `PENDING`.
        have hp : s.irq.pending = true := by
          by_contra hp
          simp [hp] at hc
        exact fun hmem ↦ hw.own (.inl hp)
          (List.mem_filter.mp ((List.append_nil _).subst (motive := (c ∈ ·)) hmem)).1
      · simp only at hc
        split at hc <;> exact absurd hc (by decide)
      · exact ht.own (.inr (.inr (.inr hd)))
  case h_2 hclear =>
    obtain rfl := Option.some.inj hs
    refine h.frame rfl rfl (lt_tick h.lt) (fun _ ↦ Ended.tick)
      (fun hq _ ↦ absurd hclear hq.notClear) (fun c hw ↦ ?_)
    have ht := hw.tick (m := .write regIrqClear 1) he rfl rfl
    exact ⟨ht.rung, ht.running, ht.transfers, fun _ ↦ ht.own (.inr (.inl hclear))⟩
  case h_3 => exact absurd hs (by simp)

theorem Inv.enterIsr (h : s.Inv) : ({ s with handler := .readStatus } : DriverSys).Inv := by
  refine h.frame rfl rfl h.lt (fun _ he ↦ he)
    (fun hq hd ↦ ⟨⟨hq.running, hq.transfers, hq.pending, nofun, nofun⟩, hd⟩)
    (fun c hw ↦ ⟨hw.rung, hw.running, hw.transfers, fun hsign ↦ ?_⟩)
  rcases hsign with hp | hc | hc | hd
  · exact hw.own (.inl hp)
  · cases hc
  · cases hc
  · exact hw.own (.inr (.inr (.inr hd)))

theorem Inv.complete (h : s.Inv) (hc : s.handler = .complete) :
    ({ s with done := s.done + 1, handler := .idle } : DriverSys).Inv :=
  h.frame rfl rfl h.lt (fun _ he ↦ he) (fun hq _ ↦ absurd hc hq.notComplete)
    (fun _ hw ↦ ⟨hw.rung, hw.running, hw.transfers, fun _ ↦ hw.own (.inr (.inr (.inl hc)))⟩)

/-- A step of the holder. -/
theorem Inv.replace {h? : Option Holder} (h : s.Inv) (hholder : s'.holder = h?)
    (hlt : ∀ c ∈ s'.running, c < s'.rung) (hended : ∀ c, s.Ended c → s'.Ended c)
    (hret : ∀ r ∈ s'.returned, r ∈ s.returned ∨ (r.2 = .ok → ∃ c, r.1 = some c ∧ s'.Ended c))
    (harmed : ∀ w pc, h? = some (.submit w pc) → pc = .irqEnable ∨ pc = .ringDoorbell →
      s'.Quiet ∧ s'.done = 0)
    (hwaiting : ∀ w c, h? = some (.submit w (.waitForCompletion c)) → s'.Waiting c)
    (hleaving : ∀ w c, h? = some (.submit w (.irqDisable c .ok)) ∨
      h? = some (.submit w (.unlock (some c) .ok)) → s'.Ended c)
    (hrefused : ∀ w, h? ≠ some (.submit w (.unlock none .ok))) : s'.Inv where
  lt := hlt
  armed w pc hs := harmed w pc (hholder ▸ hs)
  waiting w c hs := hwaiting w c (hholder ▸ hs)
  leaving w c hs := hleaving w c (hholder ▸ hs)
  refused w := hholder ▸ hrefused w
  returned r hr hok := by
    rcases hret r hr with hr | hnew
    · obtain ⟨c, hc, he⟩ := h.returned r hr hok
      exact ⟨c, hc, hended c he⟩
    · exact hnew hok

theorem Inv.lock (h : s.Inv) {k : Holder}
    (hk : (∃ words, k = .submit words .readStatus) ∨ ∃ d, k = .dma d (.program 0))
    (hs : s.lockStep k = some s') : s'.Inv := by
  unfold lockStep at hs
  split at hs
  · cases hs
  · obtain rfl := Option.some.inj hs
    refine h.replace rfl h.lt (fun _ he ↦ he) (fun _ hr ↦ .inl hr) ?_ ?_ ?_ ?_
    all_goals
      rcases hk with ⟨words, rfl⟩ | ⟨d, rfl⟩ <;> simp

theorem Inv.reinit (h : s.Inv) (hquiet : s.Quiet) (hs : s.reinitStep = some s') : s'.Inv := by
  unfold reinitStep at hs
  split at hs
  · obtain rfl := Option.some.inj hs
    refine h.replace rfl h.lt (fun _ he ↦ he) (fun _ hr ↦ .inl hr) (fun _ _ _ _ ↦ ?_) ?_ ?_ ?_
    · exact ⟨⟨hquiet.running, hquiet.transfers, hquiet.pending, hquiet.notClear,
        hquiet.notComplete⟩, rfl⟩
    all_goals simp
  · cases hs

/-- A wait ends well only on a sign that is the submission's own. -/
theorem Inv.wait {ret : Ret} (h : s.Inv) (hs : s.waitStep ret = some s') : s'.Inv := by
  unfold waitStep at hs
  split at hs
  case h_2 => cases hs
  case h_1 w c hholder =>
    have hleft : ∀ {t}, some ({ s with done := s.done - 1, holder := some (.submit w
        (.irqDisable c ret)) } : DriverSys) = some t → (ret = .ok → s.Ended c) → t.Inv := by
      intro t ht hok
      obtain rfl := Option.some.inj ht
      refine h.replace rfl h.lt (fun _ he ↦ he) (fun _ hr ↦ .inl hr) ?_ ?_ ?_ ?_
      case refine_3 =>
        rintro _ _ (hk | hk)
        · cases hk
          exact hok rfl
        · cases hk
      all_goals simp
    cases ret <;> simp only at hs
    case ok =>
      split at hs
      · next hdone =>
          have hw := h.waiting w c hholder
          exact hleft hs fun _ ↦ ⟨hw.rung, hw.own (.inr (.inr (.inr hdone)))⟩
      · cases hs
    case timedOut | interrupted =>
      split at hs
      · exact hleft hs nofun
      · cases hs
    case busy => cases hs

theorem Inv.unlock (h : s.Inv) (hs : s.unlockStep = some s') : s'.Inv := by
  unfold unlockStep at hs
  split at hs
  case h_1 w cmd ret hholder =>
    obtain rfl := Option.some.inj hs
    refine h.replace rfl h.lt (fun _ he ↦ he) (fun r hr ↦ ?_) ?_ ?_ ?_ ?_
    · rcases List.mem_append.mp hr with hr | hr
      · exact .inl hr
      · obtain rfl := List.mem_singleton.mp hr
        refine .inr fun hok ↦ ?_
        obtain rfl : ret = .ok := hok
        cases cmd with
        | none => exact absurd hholder (h.refused w)
        | some c => exact ⟨c, rfl, h.leaving w c (.inr hholder)⟩
    all_goals simp
  case h_2 =>
    obtain rfl := Option.some.inj hs
    refine h.replace rfl h.lt (fun _ he ↦ he) (fun _ hr ↦ .inl hr) ?_ ?_ ?_ ?_
    all_goals simp
  case h_3 => cases hs

theorem Quiet.ring (h : s.Quiet) (hdone : s.done = 0) (he : s.CanEnd e) (hr : m.rings = true)
    (hd : m.startsDma = false) : (s.tick m e).Waiting s.rung where
  rung := by simp [DriverSys.tick, hr]
  running := by simp [DriverSys.tick, h.running, hr]
  transfers := by simp [DriverSys.tick, h.transfers, hd]
  own := by
    rintro (hp | hc | hc | hpos)
    · simp [DriverSys.tick, IrqCtrl.step, h.pending, h.ends he] at hp
    · exact absurd hc h.notClear
    · exact absurd hc h.notComplete
    · exact absurd hdone hpos.ne'

theorem Quiet.setHolder (h : s.Quiet) (k : Option Holder) :
    ({ s with holder := k } : DriverSys).Quiet :=
  ⟨h.running, h.transfers, h.pending, h.notClear, h.notComplete⟩

theorem Waiting.setHolder {c : ℕ} (h : s.Waiting c) (k : Option Holder) :
    ({ s with holder := k } : DriverSys).Waiting c :=
  ⟨h.rung, h.running, h.transfers, h.own⟩

theorem Inv.thread {rdata : MmioData} (h : s.Inv) (he : s.CanEnd e)
    (hs : s.threadStep rdata e = some s') : s'.Inv := by
  unfold threadStep at hs
  split at hs
  case h_1 => cases hs
  case h_2 k hholder =>
    split at hs
    · cases hs
    obtain ⟨m, hm, rfl⟩ := Option.map_eq_some_iff.mp hs
    set t := { s.tick m e with holder := some (k.next rdata s.rung) } with ht
    have hholder' : t.holder = some (k.next rdata s.rung) := rfl
    have hgo := h.replace hholder' (lt_tick h.lt) (fun _ ↦ Ended.tick) (fun _ hr ↦ .inl hr)
    cases k with
    | dma d pc => exact hgo nofun nofun nofun nofun
    | submit w pc =>
        simp only [Holder.next] at hgo
        rcases SubmitPc.next_cases rdata s.rung hm with ⟨rfl, rfl, hn⟩ | ⟨rfl, rfl, hn⟩ |
          ⟨c, ret, rfl, hn⟩ | hn | ⟨i, hn⟩ | hn
        all_goals
          rw [hn] at hgo
        · obtain ⟨hquiet, hdone⟩ := h.armed w _ hholder (.inl rfl)
          exact hgo (fun _ _ _ _ ↦ ⟨(hquiet.tick he rfl rfl).setHolder _, hdone⟩) nofun nofun nofun
        · obtain ⟨hquiet, hdone⟩ := h.armed w _ hholder (.inr rfl)
          refine hgo (by simp) (fun w' c hk ↦ ?_) nofun nofun
          cases hk
          exact (hquiet.ring hdone he rfl rfl).setHolder _
        · refine hgo (by simp) nofun (fun w' c' hk ↦ ?_) nofun
          rcases hk with hk | hk
          · cases hk
          · cases hk
            exact Ended.tick (h.leaving w c (.inl hholder))
        all_goals exact hgo (by simp) nofun (by simp) nofun

theorem Inv.step {a : Act} (h : s.Inv) (hquiet : a = .reinit → s.Quiet) (hs : s.step a = some s') :
    s'.Inv := by
  cases a with
  | cycle e =>
      obtain ⟨he, ⟨⟩⟩ := Option.ite_none_right_eq_some.mp hs
      exact h.cycle he
  | lockSubmit words => exact h.lock (.inl ⟨words, rfl⟩) hs
  | lockDma d => exact h.lock (.inr ⟨d, rfl⟩) hs
  | thread rdata e =>
      obtain ⟨he, hs⟩ := Option.ite_none_right_eq_some.mp hs
      exact h.thread he hs
  | reinit => exact h.reinit (hquiet rfl) hs
  | wake =>
      have hwait : s.waitStep .ok = some s' := hs
      exact h.wait hwait
  | giveUp ret => exact h.wait (Option.ite_none_left_eq_some.mp hs).2
  | unlock => exact h.unlock hs
  | enterIsr =>
      obtain ⟨-, ⟨⟩⟩ := Option.ite_none_right_eq_some.mp hs
      exact h.enterIsr
  | isr e =>
      obtain ⟨he, hs⟩ := Option.ite_none_right_eq_some.mp hs
      exact h.isr he hs
  | complete =>
      obtain ⟨hc, ⟨⟩⟩ := Option.ite_none_right_eq_some.mp hs
      exact h.complete hc

end

/-! ## Whole histories -/

/-- `s` is reached by steps that all satisfy `ok`. -/
inductive Reached (ok : DriverSys → Act → Prop) : DriverSys → Prop
  | init : Reached ok init
  | step {s s' : DriverSys} {a : Act} : Reached ok s → ok s a → s.step a = some s' → Reached ok s'

/-- Every submission that has returned 0 has rung its command, which has ended. -/
def SubmitCorrect (s : DriverSys) : Prop :=
  ∀ r ∈ s.returned, r.2 = .ok → ∃ c, r.1 = some c ∧ s.Ended c

/-- A completion is rearmed only when nothing of before can signal it. -/
def Fresh (s : DriverSys) (a : Act) : Prop := a = .reinit → s.Quiet

theorem Reached.inv (h : Reached Fresh s) : s.Inv := by
  induction h with
  | init => exact .init
  | step _ hok hs ih => exact ih.step hok hs

theorem Reached.run {ok : DriverSys → Act → Prop} {s' : DriverSys} {acts : List Act}
    (h : Reached ok s) (hok : ∀ a ∈ acts, ∀ t, ok t a) (hs : acts.foldlM DriverSys.step s = some s') :
    Reached ok s' := by
  induction acts generalizing s with
  | nil => exact Option.some.inj hs ▸ h
  | cons a acts ih =>
      obtain ⟨t, ht, hrest⟩ := Option.bind_eq_some_iff.mp hs
      exact ih (h.step (hok a List.mem_cons_self s) ht)
        (fun b hb ↦ hok b (List.mem_cons_of_mem _ hb)) hrest

/-- A submission returns 0 for its own command only. -/
theorem submit_correct (h : Reached Fresh s) : s.SubmitCorrect := h.inv.returned

/-- Reading `STATUS` and writing the sixteen words. -/
def fillSlot : List Act :=
  .lockSubmit (fun _ ↦ 0) :: List.replicate 17 (.thread 0 ⟨[], 0⟩)

/-- The interrupt handler and the wakeup it leads to. -/
def serve : List Act := [.enterIsr, .isr ⟨[], 0⟩, .isr ⟨[], 0⟩, .complete]

/-- Enabling the interrupt and ringing the doorbell. -/
def ring : List Act := [.thread 0 ⟨[], 0⟩, .thread 0 ⟨[], 0⟩]

/-- Disabling the interrupt and returning. -/
def leave : List Act := [.thread 0 ⟨[], 0⟩, .unlock]

theorem submit_correct_single : ∃ s, Reached Fresh s ∧ s.returned = [(some 0, .ok)] ∧
    s.SubmitCorrect := by
  obtain ⟨s₀, hs₀, hstep⟩ : ∃ s₀, fillSlot.foldlM DriverSys.step init = some s₀ ∧ s₀.Quiet ∧
      ∃ s₁, s₀.step .reinit = some s₁ ∧
        ∃ s, (ring ++ .cycle ⟨[0], 0⟩ :: serve ++ .wake :: leave).foldlM DriverSys.step s₁ =
          some s ∧ s.returned = [(some 0, .ok)] :=
    ⟨_, rfl, ⟨rfl, rfl, rfl, nofun, nofun⟩, _, rfl, _, rfl, rfl⟩
  obtain ⟨hquiet, s₁, hs₁, s, hs, hret⟩ := hstep
  have h₀ : Reached Fresh s₀ := Reached.init.run (by simp [fillSlot, Fresh]) hs₀
  have h : Reached Fresh s := (h₀.step (fun _ ↦ hquiet) hs₁).run
    (by simp [ring, serve, leave, Fresh]) hs
  exact ⟨s, h, hret, submit_correct h⟩

/-- The first submission times out and its command ends later; the interrupt it
leaves pending wakes the second one. -/
theorem not_submitCorrect_stale : ¬ ∀ s, Reached (fun _ _ ↦ True) s → s.SubmitCorrect := by
  obtain ⟨s, hs, hret, hrunning⟩ : ∃ s, (fillSlot ++ .reinit :: ring ++ .giveUp .timedOut :: leave ++
      .cycle ⟨[0], 0⟩ :: fillSlot ++ .reinit :: .thread 0 ⟨[], 0⟩ :: serve ++
      .thread 0 ⟨[], 0⟩ :: .wake :: leave).foldlM DriverSys.step init = some s ∧
      s.returned = [(some 0, .timedOut), (some 1, .ok)] ∧ s.running = [1] :=
    ⟨_, rfl, rfl, rfl⟩
  intro hall
  obtain ⟨c, hc, hend⟩ := hall s (Reached.init.run (fun _ _ _ ↦ trivial) hs) (some 1, .ok)
    (by simp [hret]) rfl
  obtain rfl := Option.some.inj hc
  exact hend.2 (by simp [hrunning])

end DriverSys

end LgNpu
