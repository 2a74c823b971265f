import LgNpu.Device.Turns
import LgNpu.Dma.InShell

/-!
# The device and its external memory

The whole device beside the memory that its DMA engines talk to.  A host that
waits for the end of a transfer as it waits for the answer to a doorbell cannot
tell the two from an ideal pair, in which a transfer copies all its bytes at
once.
-/

namespace LgNpu

open NpuCore Copier

/-! ## Transfers at once -/

namespace Sram

variable (s : Sram) (j : CopyJob 32 20) (e : BitVec 32 → MmioData)

/-- The buffers as the DMA addresses them. -/
def view (a : MmioAddr) : MmioData := (locate a).elim 0 s.load

/-- The first `n` bytes of a transfer to the buffers. -/
def fill (n : ℕ) : Sram :=
  (List.range n).foldl (fun s i ↦ (locate (j.dstAt i)).elim s (s.store · (e (j.srcAt i)))) s

theorem load_store (l : SramLoc) (d : MmioData) :
    (s.store l d).load = Function.update s.load l (l.trim d) := by
  funext k
  cases l <;> cases k <;> simp [load, store, SramLoc.trim, Function.update_apply] <;> split <;> rfl

variable {s}

theorem load_injective : Function.Injective load := by
  rintro ⟨a, w, p⟩ ⟨a', w', p'⟩ h
  have hbyte : ∀ u v : Byte, u.setWidth 32 = v.setWidth 32 → u = v := fun u v huv ↦ by
    have hback := congrArg (BitVec.setWidth 8) huv
    simpa using hback
  have hact : a = a' := funext fun i ↦ hbyte _ _ (congrFun h (.act i))
  have hwt : w = w' := funext fun i ↦ hbyte _ _ (congrFun h (.wt i))
  have hpsum : p = p' := funext fun i ↦ congrFun h (.psum i)
  rw [hact, hwt, hpsum]

variable {j e}

theorem load_fill (n : ℕ) : (s.fill j e n).load =
    WriteLog.replay s.load (ShellSys.sramWrites (j.writes e n)) := by
  induction n with
  | zero => rfl
  | succ n ih =>
      rw [j.writes_succ, ShellSys.sramWrites, List.flatMap_append, ← ShellSys.sramWrites,
        WriteLog.replay_append, ← ih, fill, List.range_succ, List.foldl_append, ← fill]
      cases hl : locate (j.dstAt n) with
      | none => simp [hl]
      | some l => simp [hl, load_store]

end Sram

/-- The buffers and the external memory after a transfer. -/
def DmaCfg.copy (c : DmaCfg) (s : Sram) (e : BitVec 32 → MmioData) :
    Sram × (BitVec 32 → MmioData) :=
  if c.dir then (s, (DmaSys.writeJob c).written s.view e c.len.toNat)
  else (s.fill (DmaSys.readJob c) e c.len.toNat, e)

/-- At least one byte, and for each an entry of the buffers. -/
structure DmaCfg.Proper (c : DmaCfg) : Prop where
  pos : 0 < c.len.toNat
  located : ∀ i < c.len.toNat, (locate (c.locAddr + .ofNat 20 i)).isSome = true

/-- The ideal device counts the transfers among the doorbells. -/
structure IdealMachine extends Ideal where
  cfg : DmaCfg
  ext : BitVec 32 → MmioData

namespace IdealMachine

def step (m : Mmio) (a : IdealMachine) : IdealMachine :=
  if m.startsDma then
    { sram := ((a.cfg.after m).copy a.sram a.ext).1
      window := a.window
      rung := a.rung + 1
      cfg := a.cfg.after m
      ext := ((a.cfg.after m).copy a.sram a.ext).2 }
  else { a.toIdeal.step m with cfg := a.cfg.after m, ext := a.ext }

def run (ms : ℕ → Mmio) (a : IdealMachine) : ℕ → IdealMachine := Clocked.run (fun t ↦ step (ms t)) a

variable {a : IdealMachine} {m : Mmio}

theorem step_of_starts (h : m.startsDma = true) : a.step m =
    { sram := ((a.cfg.after m).copy a.sram a.ext).1
      window := a.window
      rung := a.rung + 1
      cfg := a.cfg.after m
      ext := ((a.cfg.after m).copy a.sram a.ext).2 } := if_pos h

theorem step_of_not_starts (h : m.startsDma = false) :
    a.step m = { a.toIdeal.step m with cfg := a.cfg.after m, ext := a.ext } :=
  if_neg (Bool.eq_false_iff.mp h)

/-- Without a start the ideal pair is the ideal device beside an idle memory. -/
theorem toIdeal_step (h : m.startsDma = false) : (a.step m).toIdeal = a.toIdeal.step m := by
  rw [step_of_not_starts h]

theorem ext_step (h : m.startsDma = false) : (a.step m).ext = a.ext := by
  rw [step_of_not_starts h]

theorem cfg_step : (a.step m).cfg = a.cfg.after m := by
  rw [step]
  split <;> rfl

end IdealMachine

/-! ## The machine -/

/-- The device and its external memory. -/
structure Machine where
  hw : Watched
  ext : MemPort 32

/-- One cycle of the host, of the external memory and of the counters. -/
structure MachineIn where
  host : Mmio
  ext : PortDelay
  perfCycles : MmioData
  perfActive : MmioData
  perfStall : MmioData

namespace Machine

variable (i : MachineIn) (x : Machine)

def devIn : DeviceIn := ⟨i.host, ⟨i.ext.gnt, x.ext.rdata i.ext, x.ext.rvalid i.ext⟩,
  i.perfCycles, i.perfActive, i.perfStall⟩

def step : Machine where
  hw := x.hw.step (x.devIn i)
  ext := x.ext.step i.ext x.hw.dev.dma.extReq.addr x.hw.dev.dma.extReq.wdata
    x.hw.dev.dma.extReq.wr x.hw.dev.dma.extReq.req

def run (ins : ℕ → MachineIn) (x : Machine) : ℕ → Machine := Clocked.run (fun t ↦ step (ins t)) x

/-- A host that treats a transfer like a command: it starts one, rings a
doorbell or touches a buffer only when everything before has been answered, the
last one nine cycles ago. -/
structure Polite (a : IdealMachine) : Prop where
  noReset : NpuShell.noSoftReset i.host
  window : (i.host.writes && i.host.isCmdQueue) = true → x.hw.events = a.rung
  rings : i.host.rings = true → x.hw.events = a.rung ∧ 9 ≤ x.hw.quiet ∧ a.sram.Servable a.window
  buffers : (i.host.valid && i.host.isBuf) = true → x.hw.events = a.rung ∧ 9 ≤ x.hw.quiet
  starts : i.host.startsDma = true →
    x.hw.events = a.rung ∧ 9 ≤ x.hw.quiet ∧ (a.cfg.after i.host).Proper

variable {i x} {a : IdealMachine}

/-- In a cycle that starts no transfer the host is polite to the device. -/
theorem Polite.watched (h : Polite i x a) (hd : i.host.startsDma = false) :
    LgNpu.Polite (x.devIn i) x.hw a.toIdeal :=
  ⟨h.noReset, hd, h.window, h.rings, h.buffers⟩

/-- A mild cycle is polite at any time. -/
theorem Polite.of_mild (h : i.host.Mild) : Polite i x a :=
  ⟨h.noReset, fun hw ↦ absurd (h.noWindow.symm.trans hw) Bool.false_ne_true,
    fun hr ↦ absurd (h.noRing.symm.trans hr) Bool.false_ne_true,
    fun hb ↦ absurd (h.noBuf.symm.trans hb) Bool.false_ne_true,
    fun hd ↦ absurd (h.noDma.symm.trans hd) Bool.false_ne_true⟩

/-- While something is unanswered the host is elsewhere. -/
theorem Polite.elsewhere (h : Polite i x a) (hne : x.hw.events ≠ a.rung) :
    i.host.rings = false ∧ (i.host.writes && i.host.isCmdQueue) = false ∧
      (i.host.valid && i.host.isBuf) = false ∧ i.host.startsDma = false :=
  ⟨Bool.eq_false_iff.mpr fun hr ↦ hne (h.rings hr).1,
    Bool.eq_false_iff.mpr fun hw ↦ hne (h.window hw),
    Bool.eq_false_iff.mpr fun hb ↦ hne (h.buffers hb).1,
    Bool.eq_false_iff.mpr fun hd ↦ hne (h.starts hd).1⟩

end Machine

/-! ## The device during a transfer -/

namespace Device

variable {x : Device} {i : DeviceIn} {a : Ideal}

/-- Nothing is under way but a transfer. -/
structure Clear (x : Device) (a : Ideal) : Prop where
  stable : x.shell.Stable
  window : x.fe.regs.cmdMem = a.window
  front : x.fe.Vacant
  sched : x.core.sched.state = .idle
  core : x.core.Settled

theorem Ready.clear (h : x.Ready a) : x.Clear a := ⟨h.stable, h.window, h.front, h.sched, h.core⟩

namespace Clear

variable (h : x.Clear a)
include h

theorem resetting : x.resetting = false := h.stable.resetting

theorem ready (hd : x.shell.DmaIdle) : x.Ready a :=
  ⟨⟨h.stable, hd, h.window⟩, h.front, h.sched, h.core⟩

theorem event : x.event = x.dma.dmaDone := by
  rw [Device.event, h.core.beDone]
  simp [NpuCmdDecode.decodeErr, h.front.rest.decode]

theorem not_outWrReq : x.core.memReq.outWrReq = false :=
  (BeReq.raises_eq_false.mp h.core.memReq_not_raises).2.2.1

theorem mem_step : (x.step i).core.mem =
    x.core.mem.step (x.shell.bufPort (x.shellIn i)) x.core.memReq := by
  rw [Device.core_step h.resetting]
  rfl

theorem step (hm : NpuShell.noSoftReset i.host) (hr : i.host.rings = false) :
    (x.step i).Clear (a.step i.host) := by
  refine ⟨?_, ?_, ?_, ?_, ?_⟩
  · rw [shell_step]
    exact h.stable.step hm
  · rw [fe_step h.resetting]
    change (if i.host.writes && i.host.isCmdQueue then _ else x.fe.regs.cmdMem) = _
    rw [h.window]
    rfl
  · rw [fe_step h.resetting]
    exact h.front.step hr _
  · rw [Device.core_step h.resetting]
    simp [NpuCore.step, NpuScheduler.step, h.sched, Device.coreIn, h.front.rdValid]
  · rw [Device.core_step h.resetting]
    exact h.core.step (by simp [h.sched]) _

theorem cfg_step : (x.step i).regs.dmaCfg = x.regs.dmaCfg.after i.host := by
  change (x.step i).shell.regs.dmaCfg = _
  rw [shell_step, NpuShell.dmaCfg_step h.stable]
  rfl

theorem dma_step : (x.step i).dma =
    x.dma.step x.regs.dmaCfg i.ext (x.shell.bufRsp (x.shellIn i)) := by
  change (x.step i).shell.dma = _
  rw [shell_step, NpuShell.dma_step h.stable]
  rfl

/-- A cycle of the port, as a memory of words sees it. -/
theorem load_step : (x.step i).core.mem.contents.load = WriteLog.replay x.core.mem.contents.load
    (x.shell.bufPort (x.shellIn i)).write?.toList := by
  rw [← NpuMemTop.look_eq_load, ← NpuMemTop.look_eq_load, h.mem_step,
    NpuMemTop.look_step _ h.not_outWrReq]

/-- Without a busy engine and a host at the buffers nothing happens to them. -/
theorem contents_step (hb : x.dma.dmaBusy = false) (hbuf : (i.host.valid && i.host.isBuf) = false) :
    (x.step i).core.mem.contents = x.core.mem.contents := by
  have hnone : (x.shell.bufPort (x.shellIn i)).write? = none := by
    change (if x.dma.dmaBusy then _ else i.host.bufReq).write? = none
    rw [hb, if_neg Bool.false_ne_true]
    simp [HostReq.write?, Mmio.bufReq, hbuf]
  refine Sram.load_injective ?_
  rw [h.load_step, hnone]
  rfl

end Clear

end Device

namespace Machine

section Transfer

variable {x : Machine} {i : MachineIn} {a : Ideal} {l : List (Access 32)} {loc : MemPort 20}

/-- The engines between the external memory and a local memory of words; the
accesses of the external memory are counted from `l` on. -/
def dmaSys (x : Machine) (l : List (Access 32)) (loc : MemPort 20) : DmaSys :=
  ⟨x.hw.dev.dma, { x.ext with log := l }, loc⟩

/-- The delays of the buffers towards the engines. -/
def locDelay (i : MachineIn) (x : Machine) : PortDelay :=
  ⟨(x.hw.dev.shell.bufRsp (x.hw.dev.shellIn (x.devIn i))).gnt, true, 0⟩

def dmaIn (i : MachineIn) (x : Machine) : DmaIn :=
  ⟨x.hw.dev.regs.dmaCfg, i.ext, x.locDelay i⟩

/-- The answer of the buffers that the writer waits for. -/
def Owed (x : Machine) (loc : MemPort 20) : Prop := x.hw.dev.dma.writer.state = .wait →
  ∃ v, loc.pending = some v ∧ ∀ r q, (x.hw.dev.core.mem.hostRsp r q).rvalid = true ∧
    (x.hw.dev.core.mem.hostRsp r q).rdata = v

theorem dmaSys_step (h : x.hw.dev.Clear a) (howed : x.Owed loc) :
    (x.step i).dmaSys ((x.dmaSys l loc).step (x.dmaIn i)).ext.log
      ((x.dmaSys l loc).step (x.dmaIn i)).loc = (x.dmaSys l loc).step (x.dmaIn i) := by
  have hfront : (x.step i).hw.dev.dma = ((x.dmaSys l loc).step (x.dmaIn i)).front := by
    change (x.hw.dev.step (x.devIn i)).dma = _
    rw [h.dma_step]
    refine NpuDmaFrontend.step_congr rfl fun hw ↦ ?_
    obtain ⟨v, hv, hrsp⟩ := howed hw
    have hvalid : loc.rvalid (x.locDelay i) = true := by
      rw [MemPort.rvalid, hv]
      rfl
    refine ⟨(hrsp _ _).1.trans hvalid.symm, fun _ ↦ (hrsp _ _).2.trans ?_⟩
    change v = loc.rdata (x.locDelay i)
    rw [MemPort.rdata, hvalid, if_pos rfl, hv]
    rfl
  rw [dmaSys, hfront]
  rfl

/-- The buffers grant every entry. -/
theorem locDelay_gnt (h : x.hw.dev.Clear a) (hb : x.hw.dev.dma.dmaBusy = true)
    (hreq : x.hw.dev.dma.bufReq.req = true) :
    (x.locDelay i).gnt = (locate x.hw.dev.dma.bufReq.addr).isSome := by
  change NpuMemTop.hostGnt (if x.hw.dev.dma.dmaBusy then x.hw.dev.dma.bufReq else _) _ = _
  rw [hb, if_pos rfl]
  exact NpuMemTop.hostGnt_eq h.not_outWrReq hreq

/-- While the host is elsewhere the buffers change by the accesses granted to the
engines. -/
theorem load_step (h : x.hw.dev.Clear a) (hbuf : (i.host.valid && i.host.isBuf) = false) :
    ∃ log, ((x.dmaSys l loc).step (x.dmaIn i)).loc.log = loc.log ++ log ∧
      (x.step i).hw.dev.core.mem.contents.load =
        WriteLog.replay x.hw.dev.core.mem.contents.load (ShellSys.sramWrites log) := by
  refine ⟨_, rfl, ?_⟩
  change (x.hw.dev.step (x.devIn i)).core.mem.contents.load = WriteLog.replay _
    (ShellSys.sramWrites (if x.hw.dev.dma.bufReq.req && (x.locDelay i).gnt then
      [if x.hw.dev.dma.bufReq.wr then .write x.hw.dev.dma.bufReq.addr x.hw.dev.dma.bufReq.wdata
        else .read x.hw.dev.dma.bufReq.addr] else []))
  cases hb : x.hw.dev.dma.dmaBusy with
  | false =>
      rw [h.contents_step hb hbuf, NpuDmaFrontend.bufReq_req_of_not_busy hb]
      rfl
  | true =>
      have hport : x.hw.dev.shell.bufPort (x.hw.dev.shellIn (x.devIn i)) = x.hw.dev.dma.bufReq := by
        change (if x.hw.dev.dma.dmaBusy then x.hw.dev.dma.bufReq else _) = _
        rw [hb, if_pos rfl]
      rw [h.load_step, hport]
      congr 1
      cases hreq : x.hw.dev.dma.bufReq.req with
      | false => simp [HostReq.write?, hreq, ShellSys.sramWrites]
      | true =>
          rw [locDelay_gnt h hb hreq]
          cases hl : locate x.hw.dev.dma.bufReq.addr <;> cases hw : x.hw.dev.dma.bufReq.wr <;>
            simp [HostReq.write?, hreq, hw, hl, ShellSys.sramWrites]

/-- The writer reads the buffers only. -/
theorem contents_step (h : x.hw.dev.Clear a) (hbuf : (i.host.valid && i.host.isBuf) = false)
    (hr : x.hw.dev.dma.reader.state = .idle) :
    (x.step i).hw.dev.core.mem.contents = x.hw.dev.core.mem.contents := by
  cases hb : x.hw.dev.dma.dmaBusy with
  | false => exact h.contents_step hb hbuf
  | true =>
      have hport : (x.hw.dev.shell.bufPort (x.hw.dev.shellIn (x.devIn i))).write? = none := by
        change (if x.hw.dev.dma.dmaBusy then x.hw.dev.dma.bufReq else _).write? = none
        rw [hb, if_pos rfl]
        simp [HostReq.write?, NpuDmaFrontend.bufReq, DmaEngine.wrReq, hr]
      refine Sram.load_injective ?_
      change (x.hw.dev.step (x.devIn i)).core.mem.contents.load = _
      rw [h.load_step, hport]
      rfl

/-! ## Carrying a transfer -/

/-- What the next step of a transfer waits for. -/
inductive Awaited
  | clock | gnt | rsp

def Awaited.on : Awaited → MachineIn → Bool
  | clock, _ => true
  | gnt, i => i.ext.gnt
  | rsp, i => i.ext.rsp

/-- Only the external memory lets an engine wait. -/
def awaited (dir : Bool) : Phase → Awaited
  | .rd _ => if dir then .clock else .gnt
  | .wait _ => if dir then .clock else .rsp
  | .wr _ => if dir then .gnt else .clock
  | _ => .clock

/-- The transfer `c`, begun with the buffers `s` and the external memory `e`, is
at a phase. -/
inductive Carries (x : Machine) (c : DmaCfg) (s : Sram) (e : BitVec 32 → MmioData) (p : Phase) :
    Prop
  | toDevice {l : List (Access 32)} {loc : MemPort 20} (hdir : c.dir = false)
      (hother : x.hw.dev.dma.writer.state = .idle)
      (hat : At (DmaSys.readJob c) e s.view p (x.dmaSys l loc).readCopier)
      (hsram : x.hw.dev.core.mem.contents.load =
        WriteLog.replay s.load (ShellSys.sramWrites loc.log))
  | fromDevice {l : List (Access 32)} {loc : MemPort 20} (hdir : c.dir = true)
      (hother : x.hw.dev.dma.reader.state = .idle)
      (hat : At (DmaSys.writeJob c) s.view e p (x.dmaSys l loc).writeCopier)
      (hsram : x.hw.dev.core.mem.contents = s) (hpending : x.ext.pending = none)
      (howed : x.Owed loc)

section Carries

variable {c : DmaCfg} {s : Sram} {e : BitVec 32 → MmioData} {p : Phase}

theorem Owed.of_idle (h : x.hw.dev.dma.writer.state = .idle) : x.Owed loc := fun hw ↦
  absurd (h.symm.trans hw) (by decide)

/-- The entry a byte is written to is granted at once. -/
theorem gnt_toDevice (hclear : x.hw.dev.Clear a) (hc : c.Proper)
    (hat : At (DmaSys.readJob c) e s.view p (x.dmaSys l loc).readCopier) {k : ℕ} (hp : p = .wr k) :
    (x.locDelay i).gnt = true := by
  subst hp
  have hstate : x.hw.dev.dma.reader.state = .wr := hat.state
  obtain ⟨hlt, -, hdst, -⟩ := hat.regs k rfl
  have hbusy : x.hw.dev.dma.dmaBusy = true := by
    simp [NpuDmaFrontend.dmaBusy, DmaEngine.busy, hstate]
  have hreq : x.hw.dev.dma.bufReq.req = true := by
    simp [NpuDmaFrontend.bufReq, DmaEngine.wrReq, hstate]
  have haddr : x.hw.dev.dma.bufReq.addr = c.locAddr + .ofNat 20 k := by
    have hold : x.hw.dev.dma.reader.dstAddrR = c.locAddr + .ofNat 20 k := hdst
    simp [NpuDmaFrontend.bufReq, DmaEngine.busy, DmaEngine.wrAddr, hstate, hold]
  rw [locDelay_gnt hclear hbusy hreq, haddr]
  exact hc.located k hlt

/-- So is the entry a byte is read from, which is answered in the next cycle. -/
theorem read_fromDevice (hclear : x.hw.dev.Clear a) (hc : c.Proper)
    (hother : x.hw.dev.dma.reader.state = .idle)
    (hat : At (DmaSys.writeJob c) s.view e p (x.dmaSys l loc).writeCopier)
    (hsram : x.hw.dev.core.mem.contents = s) {k : ℕ} (hp : p = .rd k) :
    (x.locDelay i).gnt = true ∧ ∀ r q, ((x.step i).hw.dev.core.mem.hostRsp r q).rvalid = true ∧
      ((x.step i).hw.dev.core.mem.hostRsp r q).rdata = s.view ((DmaSys.writeJob c).srcAt k) := by
  subst hp
  have hstate : x.hw.dev.dma.writer.state = .rd := hat.state
  obtain ⟨hlt, hsrc, -⟩ := hat.regs k rfl
  have hbusy : x.hw.dev.dma.dmaBusy = true := by
    simp [NpuDmaFrontend.dmaBusy, DmaEngine.busy, hstate]
  have hreq : x.hw.dev.dma.bufReq.req = true := by
    simp [NpuDmaFrontend.bufReq, DmaEngine.rdReq, hstate]
  have hwr : x.hw.dev.dma.bufReq.wr = false := by
    simp [NpuDmaFrontend.bufReq, DmaEngine.wrReq, hother]
  have haddr : x.hw.dev.dma.bufReq.addr = c.locAddr + .ofNat 20 k := by
    have hold : x.hw.dev.dma.writer.srcAddrR = c.locAddr + .ofNat 20 k := hsrc
    simp [NpuDmaFrontend.bufReq, DmaEngine.busy, DmaEngine.rdAddr, hother, hstate, hold]
  have hlocated := hc.located k hlt
  obtain ⟨m, hm⟩ := Option.isSome_iff_exists.mp hlocated
  have hread : (x.hw.dev.shell.bufPort (x.hw.dev.shellIn (x.devIn i))).read? = some m := by
    change (if x.hw.dev.dma.dmaBusy then x.hw.dev.dma.bufReq else _).read? = _
    rw [hbusy, if_pos rfl, HostReq.read?, hreq, hwr, haddr]
    exact hm
  have hvalue : x.hw.dev.core.mem.look m = s.view ((DmaSys.writeJob c).srcAt k) := by
    rw [NpuMemTop.look_eq_load, hsram]
    change _ = (locate (c.locAddr + .ofNat 20 k)).elim 0 s.load
    rw [hm]
    rfl
  have hmem : (x.step i).hw.dev.core.mem = x.hw.dev.core.mem.step _ x.hw.dev.core.memReq :=
    hclear.mem_step
  refine ⟨?_, fun r q ↦ ?_⟩
  · rw [locDelay_gnt hclear hbusy hreq, haddr]
    exact hlocated
  · rw [hmem, NpuMemTop.rvalid_step _ hclear.not_outWrReq, hread,
      NpuMemTop.rdata_step _ hclear.not_outWrReq hread, hvalue]
    exact ⟨rfl, rfl⟩

/-- What a cycle of a transfer comes to. -/
structure Advances (i : MachineIn) (c : DmaCfg) (p q : Phase) : Prop where
  ends : p = .done → q = .past
  lasts : ∀ k, p.byte? = some k → q ≠ .past
  nearer : ∀ k, p.byte? = some k → q.rank c.len.toNat < p.rank c.len.toNat ∨
    (awaited c.dir p).on i = false ∧ q = p

/-- A phase that does not end waits for a signal of the external memory. -/
theorem advances {g r w : Bool} (hlt : ∀ k, p.byte? = some k → k < c.len.toNat)
    (hg : ∀ k, p = .rd k → g = false → (awaited c.dir p).on i = false)
    (hr : ∀ k, p = .wait k → r = false → (awaited c.dir p).on i = false)
    (hw : ∀ k, p = .wr k → w = false → (awaited c.dir p).on i = false) :
    Advances i c p (p.next c.len.toNat g r w) where
  ends hp := by
    subst hp
    rfl
  lasts k hk := by
    cases p <;> simp only [Phase.next, Phase.byte?, reduceCtorEq] at hk ⊢
    all_goals split_ifs <;> simp
  nearer k hk := by
    rcases rank_next (hlt k hk) hk (signals (fun _ ↦ ⟨g, r, 0⟩) (fun _ ↦ ⟨w, true, 0⟩) 0) with
      hnear | ⟨j, hj, hno, hsame⟩
    · exact .inl hnear
    · refine .inr ⟨?_, hsame⟩
      cases p with
      | rd n => cases hj; exact hg n rfl hno
      | wait n => cases hj; exact hr n rfl hno
      | wr n => cases hj; exact hw n rfl hno
      | done => cases hj
      | past => cases hj

/-- Without a start pulse neither engine is started. -/
theorem not_starts (hstart : x.hw.dev.regs.dmaStartR = false) (b : Bool) :
    ((x.dmaIn i).cfg.start && b) = false := by
  change (x.hw.dev.regs.dmaStartR && b) = false
  rw [hstart, Bool.false_and]

theorem Carries.step_toDevice (hclear : x.hw.dev.Clear a) (hc : c.Proper)
    (hstart : x.hw.dev.regs.dmaStartR = false) (hbuf : (i.host.valid && i.host.isBuf) = false)
    (hdir : c.dir = false) (hother : x.hw.dev.dma.writer.state = .idle)
    (hat : At (DmaSys.readJob c) e s.view p (x.dmaSys l loc).readCopier)
    (hsram : x.hw.dev.core.mem.contents.load =
      WriteLog.replay s.load (ShellSys.sramWrites loc.log)) :
    ∃ q, (x.step i).Carries c s e q ∧ Advances i c p q := by
  have howed : x.Owed loc := .of_idle hother
  have hsys := dmaSys_step (l := l) (i := i) hclear howed
  obtain ⟨hidle, hcopier⟩ := DmaSys.readCopier_step (x := x.dmaSys l loc) hother
    (not_starts (i := i) hstart _)
  rw [not_starts hstart] at hcopier
  have hat' : At (DmaSys.readJob c) e s.view _ ((x.dmaSys l loc).readCopier.step false
    (DmaSys.readJob (x.dmaIn i).cfg) i.ext (x.locDelay i)) := hat.step
  rw [← hsys] at hidle
  obtain ⟨log, hlog, hload⟩ := @load_step x i a l loc hclear hbuf
  have hcarried : At (DmaSys.readJob c) e s.view _ ((x.step i).dmaSys _ _).readCopier :=
    hsys ▸ hcopier ▸ hat'
  refine ⟨_, .toDevice hdir hidle hcarried ?_, advances (fun k hk ↦ (hat.regs k hk).1) ?_ ?_ ?_⟩
  · rw [hload, hsram, hlog, ShellSys.sramWrites, ShellSys.sramWrites, ShellSys.sramWrites,
      List.flatMap_append, WriteLog.replay_append]
  · rintro k rfl hno
    rwa [awaited, hdir, if_neg Bool.false_ne_true]
  · rintro k rfl hno
    rwa [awaited, hdir, if_neg Bool.false_ne_true]
  · rintro k hk hno
    exact absurd ((gnt_toDevice hclear hc hat hk).symm.trans hno) (by decide)

/-- The writer never reads the external memory. -/
theorem pending_step (hother : x.hw.dev.dma.reader.state = .idle)
    (hpending : x.ext.pending = none) : (x.step i).ext.pending = none := by
  have hwrites : x.hw.dev.dma.extReq.req = true → x.hw.dev.dma.extReq.wr = true := by
    cases hw : x.hw.dev.dma.writer.state <;>
      simp [NpuDmaFrontend.extReq, DmaEngine.busy, DmaEngine.wrReq, hother, hw]
  change (x.ext.step i.ext _ _ x.hw.dev.dma.extReq.wr x.hw.dev.dma.extReq.req).pending = none
  cases hreq : x.hw.dev.dma.extReq.req with
  | false => simp [MemPort.step, MemPort.rvalid, hpending]
  | true => simp [MemPort.step, MemPort.rvalid, hwrites hreq, hpending]

theorem Carries.step_fromDevice (hclear : x.hw.dev.Clear a) (hc : c.Proper)
    (hstart : x.hw.dev.regs.dmaStartR = false) (hbuf : (i.host.valid && i.host.isBuf) = false)
    (hdir : c.dir = true) (hother : x.hw.dev.dma.reader.state = .idle)
    (hat : At (DmaSys.writeJob c) s.view e p (x.dmaSys l loc).writeCopier)
    (hsram : x.hw.dev.core.mem.contents = s) (hpending : x.ext.pending = none)
    (howed : x.Owed loc) : ∃ q, (x.step i).Carries c s e q ∧ Advances i c p q := by
  have hsys := dmaSys_step (l := l) (i := i) hclear howed
  obtain ⟨hidle, hcopier⟩ := DmaSys.writeCopier_step (x := x.dmaSys l loc) hother
    (not_starts (i := i) hstart _)
  rw [not_starts hstart] at hcopier
  have hat' : At (DmaSys.writeJob c) s.view e _ ((x.dmaSys l loc).writeCopier.step false
    (DmaSys.writeJob (x.dmaIn i).cfg) (x.locDelay i) i.ext) := hat.step
  rw [← hsys] at hidle
  have hcarried : At (DmaSys.writeJob c) s.view e _ ((x.step i).dmaSys _ _).writeCopier :=
    hsys ▸ hcopier ▸ hat'
  refine ⟨_, .fromDevice hdir hidle hcarried ?_ ?_ fun hw ↦ ?_,
    advances (fun k hk ↦ (hat.regs k hk).1) ?_ ?_ ?_⟩
  · rw [contents_step hclear hbuf hother, hsram]
  · exact pending_step hother hpending
  · -- The answer is that to the read of the cycle before.
    have hstate : (p.next (DmaSys.writeJob c).len.toNat (x.locDelay i).gnt true i.ext.gnt).state =
        .wait := hcarried.state.symm.trans hw
    have hpending' := hcarried.waiting
    cases p with
    | rd k =>
        obtain ⟨hgnt, hrsp⟩ := read_fromDevice (i := i) hclear hc hother hat hsram rfl
        rw [hgnt] at hpending'
        exact ⟨_, hpending', hrsp⟩
    | wait k => simp [Phase.next, Phase.state] at hstate
    | wr k => exact absurd hstate (by simp only [Phase.next]; split_ifs <;> simp [Phase.state])
    | done => simp [Phase.next, Phase.state] at hstate
    | past => simp [Phase.next, Phase.state] at hstate
  · rintro k hk hno
    exact absurd ((read_fromDevice hclear hc hother hat hsram hk).1.symm.trans hno) (by decide)
  · rintro k - hno
    exact absurd hno.symm Bool.false_ne_true
  · rintro k rfl hno
    rwa [awaited, hdir, if_pos rfl]

theorem Carries.step (h : x.Carries c s e p) (hclear : x.hw.dev.Clear a) (hc : c.Proper)
    (hstart : x.hw.dev.regs.dmaStartR = false) (hbuf : (i.host.valid && i.host.isBuf) = false) :
    ∃ q, (x.step i).Carries c s e q ∧ Advances i c p q := by
  cases h with
  | toDevice hdir hother hat hsram =>
      exact Carries.step_toDevice hclear hc hstart hbuf hdir hother hat hsram
  | fromDevice hdir hother hat hsram hpending howed =>
      exact Carries.step_fromDevice hclear hc hstart hbuf hdir hother hat hsram hpending howed

/-- The interrupt comes when the last byte has moved. -/
theorem Carries.dmaDone (h : x.Carries c s e p) :
    x.hw.dev.dma.dmaDone = true ↔ p = .done := by
  cases h with
  | toDevice hdir hother hat hsram =>
      have hstate : x.hw.dev.dma.reader.state = p.state := hat.state
      rw [NpuDmaFrontend.dmaDone, DmaEngine.done_of_idle hother, DmaEngine.done, hstate]
      cases p <;> simp [Phase.state]
  | fromDevice hdir hother hat hsram hpending howed =>
      have hstate : x.hw.dev.dma.writer.state = p.state := hat.state
      rw [NpuDmaFrontend.dmaDone, DmaEngine.done_of_idle hother, DmaEngine.done, hstate]
      cases p <;> simp [Phase.state]

/-- In the end both memories are as if all bytes had been copied at once. -/
theorem Carries.ended (h : x.Carries c s e .past) : x.hw.dev.dma.reader.state = .idle ∧
    x.hw.dev.dma.writer.state = .idle ∧ x.ext.pending = none ∧
      (x.hw.dev.core.mem.contents, x.ext.mem) = c.copy s e := by
  cases h with
  | @toDevice l loc hdir hother hat hsram =>
      have hlog : loc.log = (DmaSys.readJob c).writes e c.len.toNat := hat.dstLog
      refine ⟨hat.state, hother, hat.waiting, ?_⟩
      rw [DmaCfg.copy, hdir, if_neg Bool.false_ne_true]
      refine Prod.ext (Sram.load_injective ?_) hat.srcMem
      rw [hsram, hlog, Sram.load_fill]
  | @fromDevice l loc hdir hother hat hsram hpending howed =>
      refine ⟨hother, hat.state, hpending, ?_⟩
      rw [DmaCfg.copy, hdir, if_pos rfl]
      exact Prod.ext hsram hat.dstMem

section Start

variable (hclear : x.hw.dev.Clear a) (hpos : 0 < x.hw.dev.regs.dmaCfg.len.toNat)
  (hstart : x.hw.dev.regs.dmaStartR = true) (hbuf : (i.host.valid && i.host.isBuf) = false)
  (hr : x.hw.dev.dma.reader.state = .idle) (hw : x.hw.dev.dma.writer.state = .idle)
  (hpending : x.ext.pending = none)
include hclear hpos hstart hbuf hr hw hpending

theorem Carries.start_toDevice (hdir : x.hw.dev.regs.dmaCfg.dir = false) :
    (x.step i).Carries x.hw.dev.regs.dmaCfg x.hw.dev.core.mem.contents x.ext.mem (.rd 0) := by
  have hsys := dmaSys_step (l := []) (i := i) hclear
    (.of_idle hw : x.Owed ⟨x.hw.dev.core.mem.contents.view, none, []⟩)
  have hno : ((x.dmaIn i).cfg.start && (x.dmaIn i).cfg.dir) = false := by
    change (_ && x.hw.dev.regs.dmaCfg.dir) = false
    rw [hdir, Bool.and_false]
  have hgo : ((x.dmaIn i).cfg.start && !(x.dmaIn i).cfg.dir) = true := by
    change (x.hw.dev.regs.dmaStartR && !x.hw.dev.regs.dmaCfg.dir) = true
    rw [hdir, hstart]
    rfl
  obtain ⟨hidle, hcopier⟩ := DmaSys.readCopier_step
    (x := x.dmaSys [] ⟨x.hw.dev.core.mem.contents.view, none, []⟩) hw hno
  have hat := @At.start 32 20 (DmaSys.readJob x.hw.dev.regs.dmaCfg)
    (x.dmaSys [] ⟨x.hw.dev.core.mem.contents.view, none, []⟩).readCopier i.ext (x.locDelay i)
    hr hpending rfl rfl hpos
  rw [hgo] at hcopier
  rw [← hsys] at hidle
  have hcarried : At (DmaSys.readJob x.hw.dev.regs.dmaCfg) x.ext.mem
      x.hw.dev.core.mem.contents.view _ ((x.step i).dmaSys _ _).readCopier :=
    hsys ▸ hcopier ▸ hat
  obtain ⟨log, hlog, hload⟩ :=
    @load_step x i a [] ⟨x.hw.dev.core.mem.contents.view, none, []⟩ hclear hbuf
  refine .toDevice hdir hidle hcarried ?_
  rw [hload, hlog]
  rfl

theorem Carries.start_fromDevice (hdir : x.hw.dev.regs.dmaCfg.dir = true) :
    (x.step i).Carries x.hw.dev.regs.dmaCfg x.hw.dev.core.mem.contents x.ext.mem (.rd 0) := by
  have hsys := dmaSys_step (l := []) (i := i) hclear
    (.of_idle hw : x.Owed ⟨x.hw.dev.core.mem.contents.view, none, []⟩)
  have hno : ((x.dmaIn i).cfg.start && !(x.dmaIn i).cfg.dir) = false := by
    change (_ && !x.hw.dev.regs.dmaCfg.dir) = false
    rw [hdir]
    exact Bool.and_false _
  have hgo : ((x.dmaIn i).cfg.start && (x.dmaIn i).cfg.dir) = true := by
    change (x.hw.dev.regs.dmaStartR && x.hw.dev.regs.dmaCfg.dir) = true
    rw [hdir, hstart]
    rfl
  obtain ⟨hidle, hcopier⟩ := DmaSys.writeCopier_step
    (x := x.dmaSys [] ⟨x.hw.dev.core.mem.contents.view, none, []⟩) hr hno
  have hat := @At.start 20 32 (DmaSys.writeJob x.hw.dev.regs.dmaCfg)
    (x.dmaSys [] ⟨x.hw.dev.core.mem.contents.view, none, []⟩).writeCopier (x.locDelay i) i.ext
    hw rfl rfl rfl hpos
  rw [hgo] at hcopier
  rw [← hsys] at hidle
  have hcarried : At (DmaSys.writeJob x.hw.dev.regs.dmaCfg) x.hw.dev.core.mem.contents.view
      x.ext.mem _ ((x.step i).dmaSys _ _).writeCopier :=
    hsys ▸ hcopier ▸ hat
  refine .fromDevice hdir hidle hcarried (contents_step hclear hbuf hr) (pending_step hr hpending)
    fun hwait ↦ ?_
  have hrd : (x.step i).hw.dev.dma.writer.state = .rd := hcarried.state
  exact absurd (hrd.symm.trans hwait) (by decide)

/-- The start pulse meets idle engines. -/
theorem Carries.start : (x.step i).Carries x.hw.dev.regs.dmaCfg x.hw.dev.core.mem.contents
    x.ext.mem (.rd 0) := by
  cases hdir : x.hw.dev.regs.dmaCfg.dir with
  | false => exact start_toDevice hclear hpos hstart hbuf hr hw hpending hdir
  | true => exact start_fromDevice hclear hpos hstart hbuf hr hw hpending hdir

end Start

end Carries

end Transfer

end Machine

end LgNpu
