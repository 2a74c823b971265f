import LgNpu.Device.Machine

/-!
# Commands and transfers

Device and external memory under a host that makes one request at a time.  The
host cannot tell the pair from the ideal one, in which a doorbell executes its
descriptor and a start of the DMA copies its bytes at once.
-/

namespace LgNpu

open NpuCore Copier

namespace Machine

/-- Device and memory are at rest beside the ideal pair. -/
structure Rest (x : Machine) (a : IdealMachine) : Prop where
  hw : Watched.Rest x.hw a.toIdeal
  cfg : x.hw.dev.regs.dmaCfg = a.cfg
  ext : x.ext.mem = a.ext
  pending : x.ext.pending = none

/-- What the ideal pair has done and the real one has not. -/
inductive Due : Awaited → ℕ ×ₗ ℕ → Machine → IdealMachine → Prop
  | command {x a n} (hdue : Watched.Due n x.hw a.toIdeal) (hcfg : x.hw.dev.regs.dmaCfg = a.cfg)
      (hext : x.ext.mem = a.ext) (hpending : x.ext.pending = none) : Due .clock n x a
  | starting {x a} (hclear : x.hw.dev.Clear a.toIdeal) (hcfg : x.hw.dev.regs.dmaCfg = a.cfg)
      (hstart : x.hw.dev.regs.dmaStartR = true) (hreader : x.hw.dev.dma.reader.state = .idle)
      (hwriter : x.hw.dev.dma.writer.state = .idle) (hpending : x.ext.pending = none)
      (hc : a.cfg.Proper)
      (hcopy : (a.sram, a.ext) = a.cfg.copy x.hw.dev.core.mem.contents x.ext.mem)
      (hev : x.hw.events + 1 = a.rung) : Due .clock (toLex (1, 0)) x a
  | moving {x a c s e p} (hclear : x.hw.dev.Clear a.toIdeal)
      (hcfg : x.hw.dev.regs.dmaCfg = a.cfg) (hstart : x.hw.dev.regs.dmaStartR = false)
      (hc : c.Proper) (hcarry : x.Carries c s e p) (hp : p ≠ .past)
      (hcopy : (a.sram, a.ext) = c.copy s e) (hev : x.hw.events + 1 = a.rung) :
      Due (awaited c.dir p) (toLex (0, p.rank c.len.toNat)) x a

variable {x : Machine} {a : IdealMachine} {i : MachineIn}

/-- Idle engines leave the external memory alone. -/
theorem ext_step (hd : x.hw.dev.shell.DmaIdle) (hpending : x.ext.pending = none) :
    (x.step i).ext = x.ext := by
  have hb : x.hw.dev.dma.dmaBusy = false := hd.dmaBusy
  change x.ext.step i.ext _ _ _ x.hw.dev.dma.extReq.req = x.ext
  rw [NpuDmaFrontend.extReq_req_of_not_busy hb]
  exact MemPort.step_idle hpending

/-- The registers are the ideal ones, whatever is under way. -/
theorem cfg_step (hs : x.hw.dev.shell.Stable) (h : x.hw.dev.regs.dmaCfg = a.cfg) :
    (x.step i).hw.dev.regs.dmaCfg = (a.step i.host).cfg := by
  change (x.hw.dev.step (x.devIn i)).shell.regs.dmaCfg = _
  rw [Device.shell_step, NpuShell.dmaCfg_step hs, IdealMachine.cfg_step, ← h]
  rfl

theorem dmaStartR_step (hs : x.hw.dev.shell.Stable) :
    (x.step i).hw.dev.regs.dmaStartR = i.host.startsDma := by
  change (x.hw.dev.step (x.devIn i)).shell.regs.dmaStartR = _
  rw [Device.shell_step, NpuShell.regs_step hs]
  rfl

/-- A transfer is started by a register write. -/
theorem elsewhere_of_starts {m : Mmio} (h : m.startsDma = true) :
    m.rings = false ∧ (m.writes && m.isCmdQueue) = false ∧ (m.valid && m.isBuf) = false := by
  simp only [Mmio.startsDma, Mmio.writesReg, Bool.and_eq_true, beq_iff_eq] at h
  obtain ⟨⟨⟨-, -⟩, haddr⟩, -⟩ := h
  have hring : (regDmaCtrl == regDoorbell) = false := by decide
  have hwindow : regDmaCtrl.ult cmdQueueBase = true := by decide
  have hbuf : regDmaCtrl.ult weightBufBase = true := by decide
  refine ⟨?_, ?_, ?_⟩
  · rw [Mmio.rings, haddr, hring, Bool.and_false]
  · rw [Mmio.isCmdQueue, haddr, hwindow]
    exact Bool.and_false _
  · rw [Mmio.isBuf, haddr, hbuf]
    exact Bool.and_false _

theorem Rest.step_of_not_starts (h : x.Rest a) (hp : Polite i x a)
    (hd : i.host.startsDma = false) :
    (x.step i).Rest (a.step i.host) ∨ ∃ n, Due .clock n (x.step i) (a.step i.host) := by
  have hcfg := cfg_step (i := i) h.hw.ready.stable h.cfg
  have hext := ext_step (i := i) h.hw.ready.dma h.pending
  have hext' : (x.step i).ext.mem = (a.step i.host).ext := by
    rw [hext, h.ext, IdealMachine.ext_step hd]
  have hstep := Watched.Rest.step h.hw (hp.watched hd)
  change Watched.Rest (x.step i).hw (a.toIdeal.step i.host) ∨
    ∃ n, Watched.Due n (x.step i).hw (a.toIdeal.step i.host) at hstep
  rw [← IdealMachine.toIdeal_step hd] at hstep
  rcases hstep with hrest | ⟨n, hdue⟩
  · exact .inl ⟨hrest, hcfg, hext', hext ▸ h.pending⟩
  · exact .inr ⟨n, .command hdue hcfg hext' (hext ▸ h.pending)⟩

/-- After a start the whole transfer is due. -/
theorem Rest.step_of_starts (h : x.Rest a) (hp : Polite i x a) (hd : i.host.startsDma = true) :
    Due .clock (toLex (1, 0)) (x.step i) (a.step i.host) := by
  have hstable := h.hw.ready.stable
  have hidle := h.hw.ready.dma
  have hext := ext_step (i := i) hidle h.pending
  obtain ⟨hr, hw, hb⟩ := elsewhere_of_starts hd
  obtain ⟨hreader, hwriter⟩ := hidle.step (i := x.hw.dev.shellIn (x.devIn i)) hstable
  rw [← Device.shell_step] at hreader hwriter
  have hcontents : (x.step i).hw.dev.core.mem.contents = a.sram :=
    (h.hw.ready.clear.contents_step hidle.dmaBusy hb).trans h.hw.sram
  have hclear : (x.hw.dev.step (x.devIn i)).Clear (a.toIdeal.step i.host) :=
    h.hw.ready.clear.step hp.noReset hr
  have hwindow : (a.step i.host).window = (a.toIdeal.step i.host).window := by
    rw [IdealMachine.step_of_starts hd, Ideal.step, hw]
    rfl
  refine .starting ⟨hclear.stable, hclear.window.trans hwindow.symm, hclear.front, hclear.sched,
    hclear.core⟩ (cfg_step hstable h.cfg) ((dmaStartR_step hstable).trans hd) hreader hwriter
    (hext ▸ h.pending) ?_ ?_ ?_
  · rw [IdealMachine.cfg_step]
    exact (hp.starts hd).2.2
  · rw [hcontents, hext, h.ext, IdealMachine.step_of_starts hd]
  · rw [IdealMachine.step_of_starts hd]
    change (x.hw.step (x.devIn i)).events + 1 = a.rung + 1
    rw [Watched.events_step h.hw.ready.event, h.hw.events]

theorem Rest.step (h : x.Rest a) (hp : Polite i x a) :
    (x.step i).Rest (a.step i.host) ∨ ∃ k n, Due k n (x.step i) (a.step i.host) := by
  cases hd : i.host.startsDma with
  | false => exact (h.step_of_not_starts hp hd).imp_right fun hdue ↦ ⟨_, hdue⟩
  | true => exact .inr ⟨_, _, h.step_of_starts hp hd⟩

/-- While a command is due nothing may be started. -/
theorem not_starts_of_due {n : ℕ ×ₗ ℕ} (hdue : Watched.Due n x.hw a.toIdeal) (hp : Polite i x a) :
    i.host.startsDma = false := by
  refine Bool.eq_false_iff.mpr fun hd ↦ ?_
  obtain ⟨hev, hq, -⟩ := hp.starts hd
  cases hdue with
  | draining _ _ _ _ _ _ hquiet ht => omega
  | _ => omega

theorem Due.step_command {n : ℕ ×ₗ ℕ} (hdue : Watched.Due n x.hw a.toIdeal)
    (hcfg : x.hw.dev.regs.dmaCfg = a.cfg) (hext : x.ext.mem = a.ext)
    (hpending : x.ext.pending = none) (hp : Polite i x a) :
    (x.step i).Rest (a.step i.host) ∨ ∃ m, m < n ∧ Due .clock m (x.step i) (a.step i.host) := by
  have hd := not_starts_of_due hdue hp
  have hstill := Watched.Linked.still (.inr ⟨n, hdue⟩)
  have hcfg' := cfg_step (i := i) hstill.stable hcfg
  have hsame := ext_step (i := i) hstill.dma hpending
  have hext' : (x.step i).ext.mem = (a.step i.host).ext := by
    rw [hsame, hext, IdealMachine.ext_step hd]
  have hstep := hdue.step (hp.watched hd)
  change Watched.Rest (x.step i).hw (a.toIdeal.step i.host) ∨
    ∃ m, m < n ∧ Watched.Due m (x.step i).hw (a.toIdeal.step i.host) at hstep
  rw [← IdealMachine.toIdeal_step hd] at hstep
  rcases hstep with hrest | ⟨m, hlt, hdue'⟩
  · exact .inl ⟨hrest, hcfg', hext', hsame ▸ hpending⟩
  · exact .inr ⟨m, hlt, .command hdue' hcfg' hext' (hsame ▸ hpending)⟩

/-- To the ideal pair a cycle of a waiting host is at most a register write. -/
theorem Polite.ideal_step (hp : Polite i x a) (hne : x.hw.events ≠ a.rung) :
    a.step i.host = { a with cfg := a.cfg.after i.host } := by
  obtain ⟨hr, hw, hb, hd⟩ := hp.elsewhere hne
  rw [IdealMachine.step_of_not_starts hd,
    (⟨hp.noReset, hd, hr, hw, hb⟩ : i.host.Mild).ideal_step]

theorem Clear.step (hclear : x.hw.dev.Clear a.toIdeal) (hp : Polite i x a)
    (hne : x.hw.events ≠ a.rung) : (x.step i).hw.dev.Clear (a.step i.host).toIdeal := by
  obtain ⟨hr, hw, hb, hd⟩ := hp.elsewhere hne
  have hstep : (x.hw.dev.step (x.devIn i)).Clear (a.toIdeal.step i.host) :=
    hclear.step hp.noReset hr
  rw [(⟨hp.noReset, hd, hr, hw, hb⟩ : i.host.Mild).ideal_step] at hstep
  rw [hp.ideal_step hne]
  exact hstep

theorem Due.step_starting (hclear : x.hw.dev.Clear a.toIdeal)
    (hcfg : x.hw.dev.regs.dmaCfg = a.cfg) (hstart : x.hw.dev.regs.dmaStartR = true)
    (hreader : x.hw.dev.dma.reader.state = .idle) (hwriter : x.hw.dev.dma.writer.state = .idle)
    (hpending : x.ext.pending = none) (hc : a.cfg.Proper)
    (hcopy : (a.sram, a.ext) = a.cfg.copy x.hw.dev.core.mem.contents x.ext.mem)
    (hev : x.hw.events + 1 = a.rung) (hp : Polite i x a) :
    ∃ k n, Due k (toLex (0, n)) (x.step i) (a.step i.host) := by
  have hne : x.hw.events ≠ a.rung := by omega
  obtain ⟨-, -, hb, hd⟩ := hp.elsewhere hne
  have hevent : x.hw.dev.event = false := by
    rw [hclear.event, NpuDmaFrontend.dmaDone, DmaEngine.done_of_idle hreader,
      DmaEngine.done_of_idle hwriter]
    rfl
  have hcarry := Carries.start hclear (hcfg ▸ hc.pos) hstart hb hreader hwriter hpending
  refine ⟨_, _, .moving (Clear.step hclear hp hne) (cfg_step hclear.stable hcfg)
    ((dmaStartR_step hclear.stable).trans hd) (hcfg ▸ hc) hcarry (by simp) ?_ ?_⟩
  · rw [hp.ideal_step hne, hcfg]
    exact hcopy
  · rw [hp.ideal_step hne]
    change (x.hw.step (x.devIn i)).events + 1 = _
    rw [Watched.events_step hevent, hev]

section Moving

variable {c : DmaCfg} {s : Sram} {e : BitVec 32 → MmioData} {p q : Phase}
  (hclear : x.hw.dev.Clear a.toIdeal) (hcfg : x.hw.dev.regs.dmaCfg = a.cfg)
  (hcarry : x.Carries c s e p) (hcopy : (a.sram, a.ext) = c.copy s e)
  (hev : x.hw.events + 1 = a.rung) (hp : Polite i x a) (hq : (x.step i).Carries c s e q)
  (hadv : Advances i c p q)
include hclear hcfg hcarry hcopy hev hp hq hadv

/-- After its last cycle the transfer has been made. -/
theorem Due.step_last (hdone : p = .done) : (x.step i).Rest (a.step i.host) := by
  have hne : x.hw.events ≠ a.rung := by omega
  obtain ⟨-, -, -, hd⟩ := hp.elsewhere hne
  have hideal := hp.ideal_step hne
  rw [hadv.ends hdone] at hq
  obtain ⟨hreader, hwriter, hpending, hmems⟩ := hq.ended
  have hcopy' : ((a.step i.host).sram, (a.step i.host).ext) = c.copy s e := by rw [hideal, hcopy]
  obtain ⟨hsram, hext⟩ := Prod.ext_iff.mp (hmems.trans hcopy'.symm)
  have hstart := (dmaStartR_step (i := i) hclear.stable).trans hd
  refine ⟨⟨(Clear.step hclear hp hne).ready ⟨hreader, hwriter, hstart⟩, hsram, ?_⟩,
    cfg_step hclear.stable hcfg, hext, hpending⟩
  have hevent : x.hw.dev.event = true := by rw [hclear.event, hcarry.dmaDone, hdone]
  rw [hideal]
  change x.hw.events + x.hw.dev.event.toNat = a.rung
  rw [hevent, ← hev]
  rfl

/-- In the middle it stays due, in the phase that follows. -/
theorem Due.step_byte (hc : c.Proper) {k : ℕ} (hbyte : p.byte? = some k) :
    Due (awaited c.dir q) (toLex (0, q.rank c.len.toNat)) (x.step i) (a.step i.host) := by
  have hne : x.hw.events ≠ a.rung := by omega
  obtain ⟨-, -, -, hd⟩ := hp.elsewhere hne
  have hideal := hp.ideal_step hne
  have hcopy' : ((a.step i.host).sram, (a.step i.host).ext) = c.copy s e := by rw [hideal, hcopy]
  have hnot : x.hw.dev.event = false := by
    refine Bool.eq_false_iff.mpr fun h ↦ ?_
    rw [hclear.event, hcarry.dmaDone] at h
    rw [h] at hbyte
    exact absurd hbyte (by simp [Phase.byte?])
  have hev' : (x.step i).hw.events + 1 = (a.step i.host).rung := by
    rw [hideal]
    change (x.hw.step (x.devIn i)).events + 1 = a.rung
    rw [Watched.events_step hnot, hev]
  exact .moving (Clear.step hclear hp hne) (cfg_step hclear.stable hcfg)
    ((dmaStartR_step hclear.stable).trans hd) hc hq (hadv.lasts k hbyte) hcopy' hev'

end Moving

theorem Due.step_moving {c : DmaCfg} {s : Sram} {e : BitVec 32 → MmioData} {p : Phase}
    (hclear : x.hw.dev.Clear a.toIdeal) (hcfg : x.hw.dev.regs.dmaCfg = a.cfg)
    (hstart : x.hw.dev.regs.dmaStartR = false) (hc : c.Proper) (hcarry : x.Carries c s e p)
    (hpast : p ≠ .past) (hcopy : (a.sram, a.ext) = c.copy s e) (hev : x.hw.events + 1 = a.rung)
    (hp : Polite i x a) : (x.step i).Rest (a.step i.host) ∨
      (∃ k m, m < toLex (0, p.rank c.len.toNat) ∧ Due k m (x.step i) (a.step i.host)) ∨
      (awaited c.dir p).on i = false ∧ Due (awaited c.dir p) (toLex (0, p.rank c.len.toNat))
        (x.step i) (a.step i.host) := by
  have hne : x.hw.events ≠ a.rung := by omega
  obtain ⟨-, -, hb, -⟩ := hp.elsewhere hne
  obtain ⟨q, hq, hadv⟩ := hcarry.step (i := i) hclear hc hstart hb
  cases hbyte : p.byte? with
  | none =>
      have hdone : p = .done := by cases p <;> simp [Phase.byte?] at hbyte hpast ⊢
      exact .inl (Due.step_last hclear hcfg hcarry hcopy hev hp hq hadv hdone)
  | some k =>
      right
      have hdue := Due.step_byte hclear hcfg hcarry hcopy hev hp hq hadv hc hbyte
      rcases hadv.nearer k hbyte with hlt | ⟨hwait, rfl⟩
      · exact .inl ⟨_, toLex (0, q.rank c.len.toNat), Prod.Lex.toLex_lt_toLex.mpr (.inr ⟨rfl, hlt⟩),
          hdue⟩
      · exact .inr ⟨hwait, hdue⟩

/-- Device and memory serve one command or transfer at a time. -/
theorem serves : Clocked.Serves (· < ·) step (fun i : MachineIn ↦ IdealMachine.step i.host)
    Awaited.on Polite Rest Due where
  rest _ _ _ h hp := h.step hp
  due i k n x a h hp := by
    cases h with
    | command hdue hcfg hext hpending =>
        rcases Due.step_command hdue hcfg hext hpending hp with hrest | ⟨m, hlt, hdue'⟩
        · exact .inl hrest
        · exact .inr (.inl ⟨_, m, hlt, hdue'⟩)
    | starting hclear hcfg hstart hreader hwriter hpending hc hcopy hev =>
        obtain ⟨k, n, hdue⟩ :=
          Due.step_starting hclear hcfg hstart hreader hwriter hpending hc hcopy hev hp
        exact .inr (.inl ⟨k, _, Prod.Lex.toLex_lt_toLex.mpr (.inl Nat.one_pos), hdue⟩)
    | moving hclear hcfg hstart hc hcarry hpast hcopy hev =>
        exact Due.step_moving hclear hcfg hstart hc hcarry hpast hcopy hev hp

/-! ## Whole runs -/

/-- At rest, or on the way back to it. -/
def Linked (x : Machine) (a : IdealMachine) : Prop := x.Rest a ∨ ∃ k n, Due k n x a

theorem Linked.once (h : x.Linked a) : x.hw.events ≤ a.rung ∧ a.rung ≤ x.hw.events + 1 := by
  rcases h with h | ⟨k, n, h⟩
  · exact Watched.Linked.once (.inl h.hw)
  · cases h with
    | command hdue => exact Watched.Linked.once (.inr ⟨n, hdue⟩)
    | starting => omega
    | moving => omega

theorem Linked.window (h : x.Linked a) : x.hw.dev.fe.regs.cmdMem = a.window := by
  rcases h with h | ⟨k, n, h⟩
  · exact h.hw.ready.window
  · cases h with
    | command hdue => exact (Watched.Linked.still (.inr ⟨n, hdue⟩)).window
    | starting hclear => exact hclear.window
    | moving hclear => exact hclear.window

theorem Linked.cfg (h : x.Linked a) : x.hw.dev.regs.dmaCfg = a.cfg := by
  rcases h with h | ⟨k, n, h⟩
  · exact h.cfg
  · cases h with
    | command _ hcfg => exact hcfg
    | starting _ hcfg => exact hcfg
    | moving _ hcfg => exact hcfg

theorem Linked.rest (h : x.Linked a) (hev : x.hw.events = a.rung) (hq : 9 ≤ x.hw.quiet) :
    x.Rest a := by
  rcases h with h | ⟨k, n, h⟩
  · exact h
  · cases h with
    | command hdue hcfg hext hpending =>
        exact ⟨Watched.Linked.rest (.inr ⟨n, hdue⟩) hev hq, hcfg, hext, hpending⟩
    | starting => omega
    | moving => omega

variable {ins : ℕ → MachineIn}

/-- The host is polite in every cycle. -/
def Obliged (ins : ℕ → MachineIn) (x : Machine) (a : IdealMachine) : Prop :=
  ∀ t, Polite (ins t) (x.run ins t) (a.run (fun t ↦ (ins t).host) t)

/-- What the host sees is what the ideal pair does. -/
structure Ideally (ins : ℕ → MachineIn) (x : Machine) (a : IdealMachine) : Prop where
  /-- A doorbell and a start are answered once, and none before it is made. -/
  once : ∀ t, (x.run ins t).hw.events ≤ (a.run (fun t ↦ (ins t).host) t).rung ∧
    (a.run (fun t ↦ (ins t).host) t).rung ≤ (x.run ins t).hw.events + 1
  window : ∀ t, (x.run ins t).hw.dev.fe.regs.cmdMem = (a.run (fun t ↦ (ins t).host) t).window
  cfg : ∀ t, (x.run ins t).hw.dev.regs.dmaCfg = (a.run (fun t ↦ (ins t).host) t).cfg
  memories : ∀ t, (x.run ins t).hw.events = (a.run (fun t ↦ (ins t).host) t).rung →
    9 ≤ (x.run ins t).hw.quiet →
      (x.run ins t).hw.dev.core.mem.contents = (a.run (fun t ↦ (ins t).host) t).sram ∧
        (x.run ins t).ext.mem = (a.run (fun t ↦ (ins t).host) t).ext
  /-- A read is answered in the next cycle with the entry's value. -/
  reads : ∀ t l, (ins t).host.readsBuf = true → locate (ins t).host.addr = some l →
    (x.run ins (t + 1)).hw.dev.mmioRdata ((x.run ins (t + 1)).devIn (ins (t + 1))) =
      (a.run (fun t ↦ (ins t).host) t).sram.load l ∧
    ((ins (t + 1)).host = (ins t).host → (x.run ins (t + 1)).hw.dev.shell.mmioReady
      ((x.run ins (t + 1)).hw.dev.shellIn ((x.run ins (t + 1)).devIn (ins (t + 1)))) = true)

theorem related (hx : x.Rest a) (hok : Obliged ins x a) (t : ℕ) :
    (x.run ins t).Linked (a.run (fun t ↦ (ins t).host) t) := serves.related hx hok t

theorem linearizable (hx : x.Rest a) (hok : Obliged ins x a) : Ideally ins x a where
  once t := (related hx hok t).once
  window t := (related hx hok t).window
  cfg t := (related hx hok t).cfg
  memories t hev hq :=
    have hrest := (related hx hok t).rest hev hq
    ⟨hrest.hw.sram, hrest.ext⟩
  reads t l hread hl := by
    have hbuf : ((ins t).host.valid && (ins t).host.isBuf) = true := by
      simp only [Mmio.readsBuf, Bool.and_eq_true, Bool.not_eq_true'] at hread
      rw [hread.1.1, hread.2, Bool.and_self]
    obtain ⟨hev, hq⟩ := (hok t).buffers hbuf
    have hrest := ((related hx hok t).rest hev hq).hw
    rw [← hrest.sram]
    exact hrest.ready.read (i := (x.run ins t).devIn (ins t)) hread hl _

/-- The pair comes to rest again and again. -/
theorem returns (hx : x.Rest a) (hok : Obliged ins x a) (hext : FairDelay fun t ↦ (ins t).ext)
    (t : ℕ) : ∃ u, t ≤ u ∧ (x.run ins u).Rest (a.run (fun t ↦ (ins t).host) u) := by
  have hfair : ∀ k : Awaited, Clocked.Fair fun t ↦ k.on (ins t) := by
    intro k
    cases k with
    | clock => exact Clocked.fair_true
    | gnt => exact hext.gnt
    | rsp => exact hext.rsp
  have hwf : WellFounded ((· < ·) : ℕ ×ₗ ℕ → ℕ ×ₗ ℕ → Prop) := wellFounded_lt
  exact serves.returns hx hok hwf hfair t

/-- Every doorbell and every start is answered. -/
theorem requests_answered (hx : x.Rest a) (hok : Obliged ins x a)
    (hext : FairDelay fun t ↦ (ins t).ext) (t : ℕ) :
    ∃ u, t ≤ u ∧ (x.run ins u).hw.events = (a.run (fun t ↦ (ins t).host) u).rung := by
  obtain ⟨u, hu, hrest⟩ := returns hx hok hext t
  exact ⟨u, hu, hrest.hw.events⟩

/-! ### One byte out of reset -/

/-- A byte for the first activation entry. -/
def startByte (t : ℕ) : MachineIn :=
  ⟨((dmaProgram 0x1000 0x20000 1 1)[t]?).getD .idle, ⟨true, true, 0⟩, 0, 0, 0⟩

/-- Nothing has happened for nine cycles, and every external byte is 7. -/
def sevens : Machine :=
  ⟨⟨.reset (fun _ ↦ 0) (fun _ ↦ 0) (fun _ ↦ 0) fun _ ↦ 0, 0, 9⟩, fun _ ↦ 7, none, []⟩

def idealSevens : IdealMachine :=
  ⟨⟨⟨fun _ ↦ 0, fun _ ↦ 0, fun _ ↦ 0⟩, fun _ ↦ 0, 0⟩, ⟨0, 0, 0, false, false⟩, fun _ ↦ 7⟩

theorem rest_sevens : sevens.Rest idealSevens := ⟨Watched.rest_reset _ _ _ _ _, rfl, rfl, rfl⟩

theorem obliged_startByte : Obliged startByte sevens idealSevens := by
  rintro (_ | _ | _ | _ | t)
  · exact .of_mild ⟨nofun, rfl, rfl, rfl, rfl⟩
  · exact .of_mild ⟨nofun, rfl, rfl, rfl, rfl⟩
  · exact .of_mild ⟨nofun, rfl, rfl, rfl, rfl⟩
  · refine ⟨nofun, nofun, nofun, nofun, fun _ ↦ ⟨rfl, ?_, ?_⟩⟩
    · exact (by decide : 9 ≤ (sevens.run startByte 3).hw.quiet)
    · exact ⟨by decide, by decide⟩
  · exact .of_mild Mmio.mild_idle

theorem linearizable_startByte : Ideally startByte sevens idealSevens :=
  linearizable rest_sevens obliged_startByte

theorem requests_answered_startByte : ∃ u, 4 ≤ u ∧ (sevens.run startByte u).hw.events =
    (idealSevens.run (fun t ↦ (startByte t).host) u).rung :=
  requests_answered rest_sevens obliged_startByte
    (fairDelay_of_all (fun _ ↦ rfl) fun _ ↦ rfl) 4

end Machine

end LgNpu
