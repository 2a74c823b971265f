import LgNpu.Core.Drain
import LgNpu.Device.Ideal
import LgNpu.Device.Irq
import LgNpu.Host.Answering
import LgNpu.Lib.Turns
import Mathlib.Data.Prod.Lex
import Mathlib.Order.WellFounded

/-!
# One command at a time

The whole device under a host that rings a doorbell or touches a buffer only
when every earlier doorbell has been answered, the last one some cycles ago.
Such a host cannot tell the device from the ideal one, in which a doorbell
executes its descriptor at once.
-/

namespace LgNpu

open NpuCore

/-! ## The host -/

/-- The device with what its interrupts tell a host: how often a command has
been answered, and for how many cycles now none has. -/
structure Watched where
  dev : Device
  events : ℕ
  quiet : ℕ

namespace Watched

def step (i : DeviceIn) (x : Watched) : Watched where
  dev := x.dev.step i
  events := x.events + x.dev.event.toNat
  quiet := if x.dev.event then 0 else x.quiet + 1

def run (ins : ℕ → DeviceIn) (x : Watched) : ℕ → Watched := Clocked.run (fun t ↦ step (ins t)) x

end Watched

/-- A descriptor that does not decode, or a command that its backend can do. -/
def Sram.Servable (s : Sram) (d : BitVec 4 → MmioData) : Prop := badOpcode d = false →
  Proper (dispatchTo (packCmd d).opcode) (beCmd (packCmd d) _) ∧
    Served (dispatchTo (packCmd d).opcode) (beCmd (packCmd d) _) s.act

theorem Sram.servable_of {s : Sram} {d : BitVec 4 → MmioData} {b : BackendId}
    (h : (packCmd d).opcode = b.opcode) (hp : Proper b (beCmd (packCmd d) b))
    (hs : Served b (beCmd (packCmd d) b) s.act) : s.Servable d := by
  have hto : dispatchTo (packCmd d).opcode = b := by rw [h, dispatchTo_opcode]
  subst hto
  exact fun _ ↦ ⟨hp, hs⟩

/-- No soft reset and no transfer; the window is left alone while a doorbell is
unanswered, and a doorbell or a buffer access waits nine more cycles. -/
structure Polite (i : DeviceIn) (x : Watched) (a : Ideal) : Prop where
  noReset : NpuShell.noSoftReset i.host
  noDma : i.host.startsDma = false
  window : (i.host.writes && i.host.isCmdQueue) = true → x.events = a.rung
  rings : i.host.rings = true → x.events = a.rung ∧ 9 ≤ x.quiet ∧ a.sram.Servable a.window
  buffers : (i.host.valid && i.host.isBuf) = true → x.events = a.rung ∧ 9 ≤ x.quiet

/-! ## One cycle at rest -/

namespace NpuCore

variable {x : NpuCore}

/-- Without a request the host does not matter. -/
theorem step_of_not_req {i : CoreIn} (h : i.host.req = false) :
    x.step i = x.step ⟨i.queueCmd, i.queueValid, .idle⟩ := by
  have hmem := x.mem.step_of_not_req x.memReq h
  simp only [NpuCore.step, hmem]

theorem Settled.memReq_not_raises (h : Settled x) : x.memReq.raises = false :=
  (h.silent (selected x.beSelR)).not_raises

theorem Settled.beDone (h : Settled x) : x.beDone = false := by
  refine Bool.eq_false_iff.mpr fun hd ↦ ?_
  obtain ⟨b, hb⟩ := x.beDone_iff.mp hd
  exact Bool.false_ne_true (((shares b).silent_done _ (h.silent b)).symm.trans hb)

/-- A settled core stays so whatever the host does with the buffers. -/
theorem Settled.step (h : Settled x) (hs : x.sched.state ≠ .issue) (i : CoreIn) :
    Settled (x.step i) := by
  obtain ⟨hact, hwt, -, hbias⟩ := BeReq.raises_eq_false.mp h.memReq_not_raises
  have hone : (x.memReq.biasRdReq && x.memReq.wtRdReq) = false := by rw [hbias, Bool.false_and]
  refine ⟨fun b ↦ ?_, hact, ?_, ?_, ?_⟩
  · rw [be_step_of_quiet hs]
    exact (shares b).silent_step _ _ _ (h.silent b)
  · exact (NpuMemTop.wtRvalid_step h.calm hone).trans hwt
  · exact (NpuMemTop.biasRvalid_step h.calm hone).trans hbias
  · exact NpuMemTop.biasPendingR_step h.calm hone

/-- A settled core changes no buffer. -/
theorem Settled.contents_step (h : Settled x) (c : ConvCmd) (v : Bool) :
    (x.step ⟨c, v, .idle⟩).mem.contents = x.mem.contents := by
  change (x.mem.step .idle x.memReq).contents = _
  rw [NpuMemTop.contents_step _ (BeReq.raises_eq_false.mp h.memReq_not_raises).2.2.1]
  rfl

end NpuCore

namespace FrontEnd

/-- At rest with an empty queue. -/
structure Vacant (s : FrontEnd) : Prop where
  rest : s.AtRest
  queue : s.queue.Holds []

variable {s : FrontEnd} {m : Mmio}

theorem Vacant.step (h : s.Vacant) (hr : m.rings = false) (rdReady : Bool) :
    (s.step m rdReady).Vacant := by
  have hdone : s.descDone = false := descDone_eq_false (by simp [h.rest.fetch])
  refine ⟨⟨hr, ?_, ?_⟩, ?_⟩
  · rw [fetch_step_idle m rdReady h.rest.fetch h.rest.doorbell]
  · simp [FrontEnd.step, NpuCmdDecode.step, h.rest.decode, hdone]
  · have hvalid : s.decode.cmdValid = false := by simp [NpuCmdDecode.cmdValid, h.rest.decode]
    have hstep := h.queue.step s.decode.cmdR false rdReady
    rw [Bool.false_and, if_neg Bool.false_ne_true, List.append_nil, List.tail_nil, ite_self]
      at hstep
    change (s.queue.step s.decode.cmdR s.decode.cmdValid rdReady).Holds []
    rwa [hvalid]

/-- The scheduler takes the only command queued. -/
theorem AtRest.vacant {c : ConvCmd} (h : s.AtRest) (hq : s.queue.Holds [c])
    (hr : m.rings = false) : (s.step m true).Vacant := by
  have hdone : s.descDone = false := descDone_eq_false (by simp [h.fetch])
  refine ⟨⟨hr, ?_, ?_⟩, ?_⟩
  · rw [fetch_step_idle m true h.fetch h.doorbell]
  · simp [FrontEnd.step, NpuCmdDecode.step, h.decode, hdone]
  · have hvalid : s.decode.cmdValid = false := by simp [NpuCmdDecode.cmdValid, h.decode]
    have hstep := hq.step s.decode.cmdR false true
    rw [Bool.false_and, if_neg Bool.false_ne_true, List.append_nil, if_pos rfl, List.tail_cons]
      at hstep
    change (s.queue.step s.decode.cmdR s.decode.cmdValid true).Holds []
    rwa [hvalid]

theorem Vacant.rdValid (h : s.Vacant) : s.queue.rdValid = false := by
  simp [Fifo.rdValid, h.queue.empty_iff.mpr rfl]

end FrontEnd

namespace Ideal

variable {a : Ideal} {m : Mmio}

theorem step_of_rings (h : m.rings = true) :
    a.step m = ⟨a.sram.exec a.window, a.window, a.rung + 1⟩ := by
  rw [step, (FrontEnd.rings_elsewhere h).1, h]
  rfl

theorem sram_step (h : m.rings = false) (hb : (m.valid && m.isBuf) = false) :
    (a.step m).sram = a.sram := by
  have hnone : m.writes = true → locate m.addr = none := fun hw ↦ by
    rw [Mmio.writes, Bool.and_eq_true] at hw
    rw [hw.1, Bool.true_and, NpuShell.isBuf_eq] at hb
    exact Option.not_isSome_iff_eq_none.mp (by simp [hb])
  simp only [step, h, Bool.false_eq_true, if_false]
  split
  · next hw => rw [hnone hw]; rfl
  · rfl

theorem rung_step (h : m.rings = false) : (a.step m).rung = a.rung := by
  rw [step, h]
  rfl

end Ideal

/-- A bus cycle that starts nothing and touches no storage. -/
structure Mmio.Mild (m : Mmio) : Prop where
  noReset : NpuShell.noSoftReset m
  noDma : m.startsDma = false
  noRing : m.rings = false
  noWindow : (m.writes && m.isCmdQueue) = false
  noBuf : (m.valid && m.isBuf) = false

namespace Mmio.Mild

variable {m : Mmio} (h : m.Mild)
include h

/-- To the ideal device such a cycle is none. -/
theorem ideal_step (a : Ideal) : a.step m = a := by
  have hsram := Ideal.sram_step (a := a) h.noRing h.noBuf
  have hrung := Ideal.rung_step (a := a) h.noRing
  have hwindow : (a.step m).window = a.window := by
    simp only [Ideal.step, h.noWindow, Bool.false_eq_true, if_false]
  change (⟨(a.step m).sram, (a.step m).window, (a.step m).rung⟩ : Ideal) = _
  rw [hsram, hrung, hwindow]

/-- It is polite at any time. -/
theorem polite {i : DeviceIn} (hi : i.host = m) (x : Watched) (a : Ideal) : Polite i x a := by
  subst hi
  exact ⟨h.noReset, h.noDma, fun hw ↦ absurd (h.noWindow.symm.trans hw) Bool.false_ne_true,
    fun hr ↦ absurd (h.noRing.symm.trans hr) Bool.false_ne_true,
    fun hb ↦ absurd (h.noBuf.symm.trans hb) Bool.false_ne_true⟩

end Mmio.Mild

theorem Mmio.mild_idle : Mmio.Mild .idle := ⟨nofun, rfl, rfl, rfl, rfl⟩

/-- It leaves the interrupt registers alone as well. -/
structure Mmio.Plain (m : Mmio) : Prop extends m.Mild where
  noClear : m.writesReg regIrqClear = false
  noEnable : m.writesReg regIrqEnable = false

theorem Mmio.plain_idle : Mmio.Plain .idle := ⟨Mmio.mild_idle, rfl, rfl⟩

namespace Device

variable {x : Device} {i : DeviceIn} {a : Ideal}

/-- No soft reset and no transfer is under way, and the window is the ideal
one. -/
structure Still (x : Device) (a : Ideal) : Prop where
  stable : x.shell.Stable
  dma : x.shell.DmaIdle
  window : x.fe.regs.cmdMem = a.window

theorem Still.resetting (h : x.Still a) : x.resetting = false := h.stable.resetting

theorem Still.step (h : x.Still a) (hm : NpuShell.noSoftReset i.host)
    (hd : i.host.startsDma = false) : (x.step i).Still (a.step i.host) := by
  obtain ⟨hr, hw⟩ := h.dma.step (i := x.shellIn i) h.stable
  refine ⟨?_, ⟨?_, ?_, ?_⟩, ?_⟩
  · rw [shell_step]
    exact h.stable.step hm
  · rw [shell_step]
    exact hr
  · rw [shell_step]
    exact hw
  · rw [shell_step, NpuShell.regs_step h.stable]
    exact hd
  · rw [fe_step h.resetting]
    change (if i.host.writes && i.host.isCmdQueue then _ else x.fe.regs.cmdMem) = _
    rw [h.window]
    rfl

/-- The core sees the host's buffer accesses. -/
theorem Still.coreIn (h : x.Still a) :
    x.coreIn i = ⟨x.fe.queue.rdData, x.fe.queue.rdValid, i.host.bufReq⟩ := by
  rw [Device.coreIn, NpuShell.bufPort_of_idle h.dma.dmaBusy]
  rfl

/-- A core behind a host that leaves the buffers alone. -/
theorem Still.core_step (h : x.Still a) (hb : (i.host.valid && i.host.isBuf) = false) :
    (x.step i).core = x.core.step ⟨x.fe.queue.rdData, x.fe.queue.rdValid, .idle⟩ := by
  rw [Device.core_step h.resetting, h.coreIn, NpuCore.step_of_not_req hb]

theorem Still.settled_step (h : x.Still a) (hcore : x.core.Settled)
    (hs : x.core.sched.state ≠ .issue) (hb : (i.host.valid && i.host.isBuf) = false) :
    (x.step i).core.Settled ∧ (x.step i).core.mem.contents = x.core.mem.contents := by
  rw [h.core_step hb]
  exact ⟨hcore.step hs _, hcore.contents_step _ _⟩

theorem Still.event (h : x.Still a) : x.event = (x.core.beDone || x.fe.decode.decodeErr) := by
  have hreader : x.dma.reader.done = false := DmaEngine.done_of_idle h.dma.reader
  have hwriter : x.dma.writer.done = false := DmaEngine.done_of_idle h.dma.writer
  rw [Device.event, NpuDmaFrontend.dmaDone, hreader, hwriter, Bool.or_false, Bool.or_false]

/-- With nothing to pop the scheduler stays idle. -/
theorem Still.sched_step (h : x.Still a) (hs : x.core.sched.state = .idle)
    (hv : x.fe.queue.rdValid = false) : (x.step i).core.sched.state = .idle := by
  rw [Device.core_step h.resetting, h.coreIn]
  simp [NpuCore.step, NpuScheduler.step, hs, hv]

/-- Nothing at all is under way. -/
structure Ready (x : Device) (a : Ideal) : Prop extends Still x a where
  front : x.fe.Vacant
  sched : x.core.sched.state = .idle
  core : x.core.Settled

theorem Ready.event (h : x.Ready a) : x.event = false := by
  rw [h.toStill.event, h.core.beDone]
  simp [NpuCmdDecode.decodeErr, h.front.rest.decode]

/-- At rest only the host changes the buffers. -/
theorem Ready.contents_step (h : x.Ready a) (hsram : x.core.mem.contents = a.sram)
    (hr : i.host.rings = false) : (x.step i).core.mem.contents = (a.step i.host).sram := by
  have hwr := (BeReq.raises_eq_false.mp h.core.memReq_not_raises).2.2.1
  rw [Device.core_step h.resetting, h.toStill.coreIn]
  change (x.core.mem.step i.host.bufReq x.core.memReq).contents = _
  rw [NpuMemTop.contents_step _ hwr, hsram, Ideal.step, hr]
  have hreq : i.host.bufReq.req = (i.host.valid && (locate i.host.addr).isSome) := by
    rw [← NpuShell.isBuf_eq]
    rfl
  have haddr : i.host.bufReq.addr = i.host.addr := rfl
  have hwrite : i.host.bufReq.wr = i.host.wr := rfl
  rw [hreq, haddr, hwrite, if_neg Bool.false_ne_true, Mmio.writes]
  cases hv : i.host.valid <;> cases hw : i.host.wr <;> cases locate i.host.addr <;> rfl

theorem Ready.step (h : x.Ready a) (hm : NpuShell.noSoftReset i.host)
    (hd : i.host.startsDma = false) (hr : i.host.rings = false) :
    (x.step i).Ready (a.step i.host) := by
  refine ⟨h.toStill.step hm hd, ?_, ?_, ?_⟩
  · rw [fe_step h.resetting]
    exact h.front.step hr _
  · exact h.toStill.sched_step h.sched h.front.rdValid
  · rw [Device.core_step h.resetting]
    exact h.core.step (by simp [h.sched]) _

end Device

/-! ## A command under way -/

theorem contents_run {b : BackendId} {cmd : BeCmd b} {y : Sys (BeState b)} (hlog : y.log = [])
    (t : ℕ) : ((backend b).run cmd (fun _ ↦ .all) y t).mem.contents =
      { y.mem.contents with
        act := store y.mem.act ((backend b).run cmd (fun _ ↦ .all) y t).log } := by
  have hpsum : ((backend b).run cmd (fun _ ↦ .all) y t).mem.psumBuf.sram.mem =
      y.mem.psumBuf.sram.mem := by
    induction t with
    | zero => rfl
    | succ t ih => rw [run_succ, Sys.step, NpuMemTop.psum_step, ih]
  rw [NpuMemTop.contents, act_eq_store _ _ _ hlog, wt_run, hpsum]
  rfl

/-- From the tenth cycle after its done pulse the buffers hold what the command
asks for. -/
theorem NpuCore.Concludes.contents {d : BitVec 4 → MmioData} (hd : badOpcode d = false)
    {y : Sys (BeState (dispatchTo (packCmd d).opcode))} {T : ℕ} (hlog : y.log = [])
    (h : Concludes _ (beCmd (packCmd d) _) y T) :
    ((backend _).run (beCmd (packCmd d) _) (fun _ ↦ .all) y (T + 10)).mem.contents =
      y.mem.contents.exec d := by
  rw [contents_run hlog, h.written _ le_rfl, Sram.exec, hd]
  rfl

namespace Watched

/-- What the ideal device has done and the real one has not, with the stage it
has reached and the cycles it stays there at most. -/
inductive Due : ℕ ×ₗ ℕ → Watched → Ideal → Prop
  | fetching {x a d} (hstill : x.dev.Still a) (hfront : x.dev.fe.Answering d)
      (hsched : x.dev.core.sched.state = .idle) (hcore : x.dev.core.Settled)
      (hok : x.dev.core.mem.contents.Servable d)
      (hsram : a.sram = x.dev.core.mem.contents.exec d) (hev : x.events + 1 = a.rung) :
      Due (toLex (3, Link.stepsLeft x.dev.fe)) x a
  | queued {x a d} (hstill : x.dev.Still a) (hfront : x.dev.fe.AtRest)
      (hqueue : x.dev.fe.queue.Holds [packCmd d]) (hsched : x.dev.core.sched.state = .idle)
      (hcore : x.dev.core.Settled) (hd : badOpcode d = false)
      (hok : x.dev.core.mem.contents.Servable d)
      (hsram : a.sram = x.dev.core.mem.contents.exec d) (hev : x.events + 1 = a.rung) :
      Due (toLex (2, 1)) x a
  | issued {x a d} (hstill : x.dev.Still a) (hfront : x.dev.fe.Vacant)
      (hsched : x.dev.core.sched = ⟨.issue, packCmd d⟩) (hcore : x.dev.core.Settled)
      (hd : badOpcode d = false) (hok : x.dev.core.mem.contents.Servable d)
      (hsram : a.sram = x.dev.core.mem.contents.exec d) (hev : x.events + 1 = a.rung) :
      Due (toLex (2, 0)) x a
  | running {x a d t T} {y : Sys (BeState (dispatchTo (packCmd d).opcode))}
      (hstill : x.dev.Still a) (hfront : x.dev.fe.Vacant) (hd : badOpcode d = false)
      (hlog : y.log = []) (hends : Concludes _ (beCmd (packCmd d) _) y T) (ht : t + 1 ≤ T)
      (hcore : Follows (packCmd d) _
        ((backend _).run (beCmd (packCmd d) _) (fun _ ↦ .all) y (t + 1)) x.dev.core)
      (hsram : a.sram = y.mem.contents.exec d) (hev : x.events + 1 = a.rung) :
      Due (toLex (1, T + 10 - (t + 1))) x a
  | draining {x a d t T} {y : Sys (BeState (dispatchTo (packCmd d).opcode))}
      (hstill : x.dev.Still a) (hfront : x.dev.fe.Vacant) (hd : badOpcode d = false)
      (hlog : y.log = []) (hends : Concludes _ (beCmd (packCmd d) _) y T)
      (hsched : x.dev.core.sched.state = .idle) (hquiet : x.quiet = t) (ht : t < 9)
      (hcore : Owns _ ((backend _).run (beCmd (packCmd d) _) (fun _ ↦ .all) y (T + t + 1))
        x.dev.core)
      (hsram : a.sram = y.mem.contents.exec d) (hev : x.events = a.rung) :
      Due (toLex (0, 9 - t)) x a

/-- The device is at rest beside the ideal one. -/
structure Rest (x : Watched) (a : Ideal) : Prop where
  ready : x.dev.Ready a
  sram : x.dev.core.mem.contents = a.sram
  events : x.events = a.rung

variable {x : Watched} {a : Ideal} {i : DeviceIn}

theorem events_step (h : x.dev.event = false) : (x.step i).events = x.events := by
  rw [step, h]
  rfl

end Watched

namespace Polite

variable {x : Watched} {a : Ideal} {i : DeviceIn} (h : Polite i x a)
include h

/-- While a doorbell is unanswered the host is elsewhere. -/
theorem elsewhere (hne : x.events ≠ a.rung) : i.host.rings = false ∧
    (i.host.writes && i.host.isCmdQueue) = false ∧ (i.host.valid && i.host.isBuf) = false :=
  ⟨Bool.eq_false_iff.mpr fun hr ↦ hne (h.rings hr).1,
    Bool.eq_false_iff.mpr fun hw ↦ hne (h.window hw),
    Bool.eq_false_iff.mpr fun hb ↦ hne (h.buffers hb).1⟩

/-- Just after an answer the host may fill the window. -/
theorem waits (hq : x.quiet < 9) :
    i.host.rings = false ∧ (i.host.valid && i.host.isBuf) = false :=
  ⟨Bool.eq_false_iff.mpr fun hr ↦ absurd (h.rings hr).2.1 (by omega),
    Bool.eq_false_iff.mpr fun hb ↦ absurd (h.buffers hb).2 (by omega)⟩

theorem still_step (hs : x.dev.Still a) : (x.step i).dev.Still (a.step i.host) :=
  hs.step h.noReset h.noDma

end Polite

/-! ## The phases -/

namespace Watched

variable {x : Watched} {a : Ideal} {i : DeviceIn}

theorem Rest.step_of_not_rings (h : Rest x a) (hm : NpuShell.noSoftReset i.host)
    (hd : i.host.startsDma = false) (hr : i.host.rings = false) :
    Rest (x.step i) (a.step i.host) where
  ready := h.ready.step hm hd hr
  sram := h.ready.contents_step h.sram hr
  events := by rw [events_step h.ready.event, h.events, Ideal.rung_step hr]

theorem Rest.step (h : Rest x a) (hp : Polite i x a) :
    Rest (x.step i) (a.step i.host) ∨ ∃ n, Due n (x.step i) (a.step i.host) := by
  have hev := events_step (i := i) h.ready.event
  cases hr : i.host.rings with
  | false => exact .inl (h.step_of_not_rings hp.noReset hp.noDma hr)
  | true =>
      right
      have hbuf : (i.host.valid && i.host.isBuf) = false := by
        rw [Mmio.isBuf, (FrontEnd.rings_elsewhere hr).2]
        exact Bool.and_false _
      obtain ⟨hcore, hcontents⟩ :=
        h.ready.settled_step h.ready.core (by simp [h.ready.sched]) hbuf
      rw [h.sram] at hcontents
      refine ⟨_, .fetching (d := a.window) (hp.still_step h.ready.toStill) ?_ ?_ hcore ?_ ?_ ?_⟩
      · change (x.dev.step i).fe.Answering _
        rw [Device.fe_step h.ready.resetting, ← h.ready.window, NpuScheduler.queueReady,
          h.ready.sched]
        exact h.ready.front.rest.answering h.ready.front.queue hr
      · exact h.ready.sched_step h.ready.sched h.ready.front.rdValid
      · change (x.dev.step i).core.mem.contents.Servable _
        rw [hcontents]
        exact (hp.rings hr).2.2
      · change _ = (x.dev.step i).core.mem.contents.exec _
        rw [hcontents, Ideal.step_of_rings hr]
      · rw [hev, h.events, Ideal.step_of_rings hr]

/-- The doorbell has been rung and not answered. -/
theorem Due.step_fetching {d : BitVec 4 → MmioData} (hp : Polite i x a) (hstill : x.dev.Still a)
    (hfront : x.dev.fe.Answering d) (hsched : x.dev.core.sched.state = .idle)
    (hcore : x.dev.core.Settled) (hok : x.dev.core.mem.contents.Servable d)
    (hsram : a.sram = x.dev.core.mem.contents.exec d) (hev : x.events + 1 = a.rung) :
    Rest (x.step i) (a.step i.host) ∨ ∃ m, m < toLex (3, Link.stepsLeft x.dev.fe) ∧
      Due m (x.step i) (a.step i.host) := by
  obtain ⟨hr, hw, hb⟩ := hp.elsewhere (by omega)
  obtain ⟨hcore', hcontents⟩ := hstill.settled_step hcore (by simp [hsched]) hb
  have hvalid : x.dev.fe.queue.rdValid = false := by
    simp [Fifo.rdValid, hfront.queue.empty_iff.mpr rfl]
  have hsched' := hstill.sched_step (i := i) hsched hvalid
  have hfe : (x.step i).dev.fe = x.dev.fe.step .idle true := by
    change (x.dev.step i).fe = _
    rw [Device.fe_step hstill.resetting, FrontEnd.step_of_elsewhere hr hw, NpuScheduler.queueReady,
      hsched]
    rfl
  have hevent : x.dev.event = x.dev.fe.decode.decodeErr := by
    rw [hstill.event, hcore.beDone, Bool.false_or]
  have hstill' := hp.still_step hstill
  have hrung : (a.step i.host).rung = x.events + 1 := (Ideal.rung_step hr).trans hev.symm
  have hsram' : (a.step i.host).sram = (x.step i).dev.core.mem.contents.exec d := by
    change _ = (x.dev.step i).core.mem.contents.exec d
    rw [Ideal.sram_step hr hb, hsram, hcontents]
  have hok' : (x.step i).dev.core.mem.contents.Servable d := by
    change (x.dev.step i).core.mem.contents.Servable d
    rwa [hcontents]
  rcases hfront.step with ⟨hans, herr, hlt⟩ | ⟨hrest, herr, hqueue⟩
  · right
    have hevents := events_step (i := i) (hevent.trans herr)
    refine ⟨_, ?_, .fetching hstill' (hfe ▸ hans) hsched' hcore' hok' hsram' ?_⟩
    · rw [hfe]
      exact Prod.Lex.toLex_lt_toLex.mpr (.inr ⟨rfl, hlt⟩)
    · rw [hevents, hrung]
  · cases hd : badOpcode d with
    | true =>
        left
        rw [hd] at herr hqueue
        refine ⟨⟨hstill', ?_, hsched', hcore'⟩, ?_, ?_⟩
        · rw [hfe]
          exact ⟨hrest, hqueue⟩
        · rw [hsram', Sram.exec, hd]
          rfl
        · rw [step, hevent, herr, hrung]
          rfl
    | false =>
        right
        rw [hd] at herr hqueue
        have hevents := events_step (i := i) (hevent.trans herr)
        refine ⟨_, ?_,
          .queued hstill' (hfe ▸ hrest) (hfe ▸ hqueue) hsched' hcore' hd hok' hsram' ?_⟩
        · exact Prod.Lex.toLex_lt_toLex.mpr (.inl (Nat.lt_succ_self 2))
        · rw [hevents, hrung]

/-- The command is in the queue. -/
theorem Due.step_queued {d : BitVec 4 → MmioData} (hp : Polite i x a) (hstill : x.dev.Still a)
    (hfront : x.dev.fe.AtRest) (hqueue : x.dev.fe.queue.Holds [packCmd d])
    (hsched : x.dev.core.sched.state = .idle) (hcore : x.dev.core.Settled)
    (hd : badOpcode d = false) (hok : x.dev.core.mem.contents.Servable d)
    (hsram : a.sram = x.dev.core.mem.contents.exec d) (hev : x.events + 1 = a.rung) :
    Due (toLex (2, 0)) (x.step i) (a.step i.host) := by
  obtain ⟨hr, -, hb⟩ := hp.elsewhere (by omega)
  obtain ⟨hcore', hcontents⟩ := hstill.settled_step hcore (by simp [hsched]) hb
  have hevent : x.dev.event = false := by
    rw [hstill.event, hcore.beDone, Bool.false_or]
    simp [NpuCmdDecode.decodeErr, hfront.decode]
  have hevents := events_step (i := i) hevent
  refine .issued (d := d) (hp.still_step hstill) ?_ ?_ hcore' hd ?_ ?_ ?_
  · change (x.dev.step i).fe.Vacant
    rw [Device.fe_step hstill.resetting, NpuScheduler.queueReady, hsched]
    exact hfront.vacant hqueue hr
  · change (x.dev.step i).core.sched = _
    rw [hstill.core_step hb]
    change x.dev.core.sched.step x.dev.fe.queue.rdData x.dev.fe.queue.rdValid _ _ = _
    rw [hqueue.rdData_eq, Fifo.rdValid, hqueue.empty_cons]
    simp [NpuScheduler.step, hsched]
  · change (x.dev.step i).core.mem.contents.Servable d
    rwa [hcontents]
  · change _ = (x.dev.step i).core.mem.contents.exec d
    rw [Ideal.sram_step hr hb, hsram, hcontents]
  · rw [hevents, hev, Ideal.rung_step hr]

/-- The command is offered to its backend. -/
theorem Due.step_issued {d : BitVec 4 → MmioData} (hp : Polite i x a) (hstill : x.dev.Still a)
    (hfront : x.dev.fe.Vacant) (hsched : x.dev.core.sched = ⟨.issue, packCmd d⟩)
    (hcore : x.dev.core.Settled) (hd : badOpcode d = false)
    (hok : x.dev.core.mem.contents.Servable d)
    (hsram : a.sram = x.dev.core.mem.contents.exec d) (hev : x.events + 1 = a.rung) :
    ∃ n, Due (toLex (1, n)) (x.step i) (a.step i.host) := by
  obtain ⟨hr, -, hb⟩ := hp.elsewhere (by omega)
  obtain ⟨hproper, hserved⟩ := hok hd
  have hevent : x.dev.event = false := by
    rw [hstill.event, hcore.beDone, Bool.false_or]
    simp [NpuCmdDecode.decodeErr, hfront.rest.decode]
  have hevents := events_step (i := i) hevent
  obtain ⟨T, hends⟩ := concludes (y := x.dev.core.alone (dispatchTo (packCmd d).opcode))
    (hcore.silent _) hcore.calm rfl hproper hserved
  refine ⟨_, .running (t := 0) (hp.still_step hstill) ?_ hd rfl hends hends.pos ?_ ?_ ?_⟩
  · change (x.dev.step i).fe.Vacant
    rw [Device.fe_step hstill.resetting]
    exact hfront.step hr _
  · change Follows _ _ _ (x.dev.step i).core
    rw [hstill.core_step hb]
    exact hcore.follows hsched rfl
  · rw [Ideal.sram_step hr hb, hsram]
    rfl
  · rw [hevents, hev, Ideal.rung_step hr]

/-- The command runs up to its done pulse. -/
theorem Due.step_running {d : BitVec 4 → MmioData} {t T : ℕ}
    {y : Sys (BeState (dispatchTo (packCmd d).opcode))} (hp : Polite i x a)
    (hstill : x.dev.Still a) (hfront : x.dev.fe.Vacant) (hd : badOpcode d = false)
    (hlog : y.log = []) (hends : Concludes _ (beCmd (packCmd d) _) y T) (ht : t + 1 ≤ T)
    (hcore : Follows (packCmd d) _
      ((backend _).run (beCmd (packCmd d) _) (fun _ ↦ .all) y (t + 1)) x.dev.core)
    (hsram : a.sram = y.mem.contents.exec d) (hev : x.events + 1 = a.rung) :
    ∃ m, m < toLex (1, T + 10 - (t + 1)) ∧ Due m (x.step i) (a.step i.host) := by
  obtain ⟨hr, -, hb⟩ := hp.elsewhere (by omega)
  have hcore' := hstill.core_step hb
  have hvacant : (x.step i).dev.fe.Vacant := by
    change (x.dev.step i).fe.Vacant
    rw [Device.fe_step hstill.resetting]
    exact hfront.step hr _
  have hevent : x.dev.event = decide (t + 1 = T) := by
    have hdone := hends.done (t + 1)
    rw [hstill.event, hcore.beDone, ← Bool.coe_iff_coe]
    simpa [NpuCmdDecode.decodeErr, hfront.rest.decode] using hdone
  have hsram' : (a.step i.host).sram = y.mem.contents.exec d := by
    rw [Ideal.sram_step hr hb, hsram]
  rcases Nat.eq_or_lt_of_le ht with heq | hlt
  · rw [decide_eq_true heq] at hevent
    refine ⟨_, ?_, .draining (t := 0) (hp.still_step hstill) hvacant hd hlog hends ?_ ?_
      (by decide) ?_ hsram' ?_⟩
    · exact Prod.Lex.toLex_lt_toLex.mpr (.inl Nat.one_pos)
    · change (x.dev.step i).core.sched.state = .idle
      rw [hcore']
      change (x.dev.core.sched.step _ _ _ x.dev.core.beDone).state = .idle
      rw [hcore.beDone, (hends.done _).mpr heq, hcore.sched]
      simp [NpuScheduler.step]
    · rw [step, hevent]
      rfl
    · change Owns _ _ (x.dev.step i).core
      rw [hcore', ← heq]
      have hcmd := congrArg NpuScheduler.cmdR hcore.sched
      exact hcore.owns.step rfl (by simp [hcore.sched]) (.inl hcmd)
    · rw [step, hevent, Ideal.rung_step hr]
      exact hev
  · have hne : ¬t + 1 = T := by omega
    rw [decide_eq_false hne] at hevent
    have hevents := events_step (i := i) hevent
    refine ⟨_, ?_,
      .running (t := t + 1) (hp.still_step hstill) hvacant hd hlog hends hlt ?_ hsram' ?_⟩
    · exact Prod.Lex.toLex_lt_toLex.mpr (.inr ⟨rfl, by omega⟩)
    · change Follows _ _ _ (x.dev.step i).core
      rw [hcore']
      exact hcore.step rfl (Bool.eq_false_iff.mpr fun hdone ↦ hne ((hends.done _).mp hdone))
    · rw [hevents, hev, Ideal.rung_step hr]

/-- The command has been answered, and its last elements are on their way. -/
theorem Due.step_draining {d : BitVec 4 → MmioData} {t T : ℕ}
    {y : Sys (BeState (dispatchTo (packCmd d).opcode))} (hp : Polite i x a)
    (hstill : x.dev.Still a) (hfront : x.dev.fe.Vacant) (hd : badOpcode d = false)
    (hlog : y.log = []) (hends : Concludes _ (beCmd (packCmd d) _) y T)
    (hsched : x.dev.core.sched.state = .idle) (hquiet : x.quiet = t) (ht : t < 9)
    (hcore : Owns _ ((backend _).run (beCmd (packCmd d) _) (fun _ ↦ .all) y (T + t + 1))
      x.dev.core)
    (hsram : a.sram = y.mem.contents.exec d) (hev : x.events = a.rung) :
    Rest (x.step i) (a.step i.host) ∨ ∃ m, m < toLex (0, 9 - t) ∧
      Due m (x.step i) (a.step i.host) := by
  obtain ⟨hr, hb⟩ := hp.waits (by omega)
  have hstill' := hp.still_step hstill
  have hsched' := hstill.sched_step (i := i) hsched hfront.rdValid
  have hvacant : (x.step i).dev.fe.Vacant := by
    change (x.dev.step i).fe.Vacant
    rw [Device.fe_step hstill.resetting]
    exact hfront.step hr _
  have hevent : x.dev.event = false := by
    have hdone : x.dev.core.beDone = false := by
      rw [beDone_eq_done fun b hb ↦ (shares b).silent_done _ (hcore.silent b hb), NpuCore.done,
        hcore.be]
      exact Bool.eq_false_iff.mpr fun h ↦ absurd ((hends.done _).mp h) (by omega)
    rw [hstill.event, hdone, Bool.false_or]
    simp [NpuCmdDecode.decodeErr, hfront.rest.decode]
  have hevents : (x.step i).events = (a.step i.host).rung := by
    rw [events_step hevent, hev, Ideal.rung_step hr]
  have hsram' : (a.step i.host).sram = y.mem.contents.exec d := by
    rw [Ideal.sram_step hr hb, hsram]
  have hquiet' : (x.step i).quiet = t + 1 := by
    rw [step, hevent, hquiet]
    rfl
  have howns : Owns _ ((backend _).run (beCmd (packCmd d) _) (fun _ ↦ .all) y (T + (t + 1) + 1))
      (x.step i).dev.core := by
    change Owns _ _ (x.dev.step i).core
    rw [hstill.core_step hb]
    have hstep := hcore.step (c := packCmd d)
      (i := ⟨x.dev.fe.queue.rdData, x.dev.fe.queue.rdValid, .idle⟩) rfl (by simp [hsched])
      (.inr (hends.free _ (by omega)))
    exact hstep
  rcases Nat.eq_or_lt_of_le (Nat.succ_le_of_lt ht) with heq | hlt
  · left
    have hT : T + (t + 1) + 1 = T + 10 := by omega
    rw [hT] at howns
    have hnone := hends.noAnswer _ le_rfl
    rw [← howns.mem] at hnone
    refine ⟨⟨hstill', hvacant, hsched',
      ⟨fun b ↦ ?_, hnone.act, hnone.wt, hnone.bias, ?_⟩⟩, ?_, hevents⟩
    · by_cases hbd : b = dispatchTo (packCmd d).opcode
      · subst hbd
        rw [howns.be]
        exact hends.silent _ le_rfl
      · exact howns.silent b hbd
    · rw [howns.mem]
      exact hends.calm _
    · rw [howns.mem, hsram', Concludes.contents hd hlog hends]
  · right
    refine ⟨_, ?_, .draining hstill' hvacant hd hlog hends hsched' hquiet' hlt howns hsram' hevents⟩
    exact Prod.Lex.toLex_lt_toLex.mpr (.inr ⟨rfl, by omega⟩)

/-- The device serves one doorbell at a time. -/
theorem Due.step {n : ℕ ×ₗ ℕ} (h : Due n x a) (hp : Polite i x a) :
    Rest (x.step i) (a.step i.host) ∨ ∃ m, m < n ∧ Due m (x.step i) (a.step i.host) := by
  cases h with
  | fetching hstill hfront hsched hcore hok hsram hev =>
      exact Due.step_fetching hp hstill hfront hsched hcore hok hsram hev
  | queued hstill hfront hqueue hsched hcore hd hok hsram hev =>
      refine .inr ⟨_, ?_, Due.step_queued hp hstill hfront hqueue hsched hcore hd hok hsram hev⟩
      exact Prod.Lex.toLex_lt_toLex.mpr (.inr ⟨rfl, Nat.one_pos⟩)
  | issued hstill hfront hsched hcore hd hok hsram hev =>
      obtain ⟨n, hn⟩ := Due.step_issued hp hstill hfront hsched hcore hd hok hsram hev
      exact .inr ⟨_, Prod.Lex.toLex_lt_toLex.mpr (.inl (Nat.lt_succ_self 1)), hn⟩
  | running hstill hfront hd hlog hends ht hcore hsram hev =>
      exact .inr (Due.step_running hp hstill hfront hd hlog hends ht hcore hsram hev)
  | draining hstill hfront hd hlog hends hsched hquiet ht hcore hsram hev =>
      exact Due.step_draining hp hstill hfront hd hlog hends hsched hquiet ht hcore hsram hev

/-- It waits for nothing but the clock. -/
theorem serves : Clocked.Serves (· < ·) step (fun i : DeviceIn ↦ Ideal.step i.host)
    (fun _ _ ↦ true) Polite Rest fun _ : Unit ↦ Due where
  rest _ _ _ h hp := (h.step hp).imp_right fun hdue ↦ ⟨(), hdue⟩
  due _ _ _ _ _ h hp := (h.step hp).imp_right fun hdue ↦ .inl ⟨(), hdue⟩

/-- At rest, or on the way back to it. -/
def Linked (x : Watched) (a : Ideal) : Prop := Rest x a ∨ ∃ n, Due n x a

theorem Linked.step (h : x.Linked a) (hp : Polite i x a) :
    (x.step i).Linked (a.step i.host) := by
  rcases h with h | ⟨n, h⟩
  · exact h.step hp
  · rcases h.step hp with hrest | ⟨m, -, hdue⟩
    exacts [.inl hrest, .inr ⟨m, hdue⟩]

theorem Linked.once (h : x.Linked a) : x.events ≤ a.rung ∧ a.rung ≤ x.events + 1 := by
  rcases h with h | ⟨n, h⟩
  · exact ⟨h.events.le, by rw [h.events]; exact Nat.le_succ _⟩
  · cases h <;> omega

theorem Linked.still (h : x.Linked a) : x.dev.Still a := by
  rcases h with h | ⟨n, h⟩
  · exact h.ready.toStill
  · cases h with
    | fetching hstill => exact hstill
    | queued hstill => exact hstill
    | issued hstill => exact hstill
    | running hstill => exact hstill
    | draining hstill => exact hstill

/-- With every doorbell answered the command path is empty. -/
theorem Linked.vacant (h : x.Linked a) (hev : x.events = a.rung) : x.dev.fe.Vacant := by
  rcases h with h | ⟨n, h⟩
  · exact h.ready.front
  · cases h with
    | draining _ hfront => exact hfront
    | _ => omega

theorem Linked.rest (h : x.Linked a) (hev : x.events = a.rung) (hq : 9 ≤ x.quiet) : Rest x a := by
  rcases h with h | ⟨n, h⟩
  · exact h
  · cases h with
    | draining _ _ _ _ _ _ hquiet ht => omega
    | _ => omega

/-- Then nothing ends either. -/
theorem Linked.event (h : x.Linked a) (hev : x.events = a.rung) : x.dev.event = false := by
  have hnext := (h.step (i := ⟨.idle, ⟨false, 0, false⟩, 0, 0, 0⟩)
    (Mmio.mild_idle.polite rfl x a)).once
  rw [Mmio.mild_idle.ideal_step, Watched.step, ← hev] at hnext
  cases he : x.dev.event with
  | false => rfl
  | true => simp [he] at hnext

end Watched

/-! ## Whole runs -/

/-- The value a buffer read returns in the next cycle. -/
theorem Device.Ready.read {x : Device} {a : Ideal} {i : DeviceIn} (h : x.Ready a) {l : SramLoc}
    (hread : i.host.readsBuf = true) (hl : locate i.host.addr = some l) (j : DeviceIn) :
    (x.step i).mmioRdata j = x.core.mem.contents.load l ∧ (j.host = i.host →
      (x.step i).shell.mmioReady ((x.step i).shellIn j) = true) := by
  simp only [Mmio.readsBuf, Bool.and_eq_true, Bool.not_eq_true'] at hread
  obtain ⟨⟨hv, hw⟩, hb⟩ := hread
  have hwr := (BeReq.raises_eq_false.mp h.core.memReq_not_raises).2.2.1
  have hport : i.host.bufReq.read? = some l := by
    simp [HostReq.read?, Mmio.bufReq, hv, hw, hb, hl]
  have hmem : (x.step i).core.mem = x.core.mem.step i.host.bufReq x.core.memReq := by
    rw [Device.core_step h.resetting, h.toStill.coreIn]
    rfl
  have hregs : (x.step i).regs = x.regs.step i.host := by
    change (x.step i).shell.regs = _
    rw [shell_step, NpuShell.regs_step h.stable]
    rfl
  constructor
  · change (if (x.step i).regs.isBufR then ((x.step i).core.mem.hostRsp _ _).rdata else _) = _
    have hsel : (x.regs.step i.host).isBufR = true := by simp [NpuCtrlRegs.step, hv, hb]
    rw [hregs, hsel, if_pos rfl, hmem, NpuMemTop.rdata_step _ hwr hport, NpuMemTop.look_eq_load]
  · intro hj
    change (if j.host.isBuf then (if j.host.wr then ((x.step i).core.mem.hostRsp _ _).gnt
      else ((x.step i).core.mem.hostRsp _ _).rvalid) else true) = true
    rw [hj, hb, hw, if_pos rfl, if_neg Bool.false_ne_true, hmem, NpuMemTop.rvalid_step _ hwr, hport]
    rfl

namespace Watched

variable {ins : ℕ → DeviceIn} {x : Watched} {a : Ideal}

/-- The host is polite in every cycle. -/
def Obliged (ins : ℕ → DeviceIn) (x : Watched) (a : Ideal) : Prop :=
  ∀ t, Polite (ins t) (x.run ins t) (a.run (fun t ↦ (ins t).host) t)

theorem related (hx : Rest x a) (hok : Obliged ins x a) (t : ℕ) :
    (x.run ins t).Linked (a.run (fun t ↦ (ins t).host) t) :=
  (serves.related hx hok t).imp_right fun ⟨_, hdue⟩ ↦ hdue

theorem rest_reset (cmdMem : BitVec 4 → MmioData) (queueMem : BitVec 2 → ConvCmd)
    (act : BitVec 13 → Byte) (wt : BitVec 12 → Byte) (q : ℕ) :
    Rest ⟨.reset cmdMem queueMem act wt, 0, q⟩ ⟨⟨act, wt, fun _ ↦ 0⟩, cmdMem, 0⟩ where
  ready := {
    stable := ⟨(by decide : NpuCtrlRegs.reset.softReset = false), rfl, rfl⟩
    dma := ⟨rfl, rfl, rfl⟩
    window := rfl
    front := ⟨⟨rfl, rfl, rfl⟩, Fifo.holds_nil⟩
    sched := rfl
    core := .reset act wt }
  sram := rfl
  events := rfl

end Watched

end LgNpu
