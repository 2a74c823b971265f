import LgNpu.Device.Device

/-!
# The live part of the device

What the next cycles can still depend on.  Data lines count only while they are
valid, the read registers of an SRAM only in the cycle that answers a read, and
`norm_sign_r` only from the division of an element to its write.
-/

namespace LgNpu

/-! ## Data that is not valid -/

namespace BeRsp

/-- The data lines read 0 while they are not valid. -/
def masked (r : BeRsp) : BeRsp :=
  { r with
    actRdRdata := if r.actRdRvalid then r.actRdRdata else 0
    wtRdRdata := if r.wtRdRvalid then r.wtRdRdata else 0
    biasRdRdata := if r.biasRdRvalid then r.biasRdRdata else 0 }

end BeRsp

/-- The write data read 0 while nothing is written. -/
def BeReq.masked (q : BeReq) : BeReq :=
  { q with outWrData := if q.outWrReq then q.outWrData else 0 }

/-! ## Read registers -/

/-- The read registers hold 0 unless they answer a read. -/
def NpuWeightBuffer.live (s : NpuWeightBuffer) : NpuWeightBuffer :=
  { s with
    sram :=
      { s.sram with
        aRdata := if s.hostRdR then s.sram.aRdata else 0
        bRdata := if s.beRdR then s.sram.bRdata else 0 } }

def NpuActBuffer.live (s : NpuActBuffer) : NpuActBuffer :=
  { s with
    sram :=
      { s.sram with
        aRdata := if s.hostRdAcceptR then s.sram.aRdata else 0
        bRdata := if s.beRdAcceptR then s.sram.bRdata else 0 } }

def NpuPsumBuffer.live (s : NpuPsumBuffer) : NpuPsumBuffer :=
  { s with sram := { s.sram with rdata := if s.rvalid then s.sram.rdata else 0 } }

theorem NpuWeightBuffer.live_step (s : NpuWeightBuffer) (hostAddr : BitVec 12) (hostWdata : Byte)
    (hostWe hostReq : Bool) (beAddr : BitVec 12) (beReq : Bool) :
    (s.live.step hostAddr hostWdata hostWe hostReq beAddr beReq).live =
      (s.step hostAddr hostWdata hostWe hostReq beAddr beReq).live := by
  cases hostReq <;> cases hostWe <;> cases beReq <;> rfl

theorem NpuActBuffer.live_step (s : NpuActBuffer) (hostAddr : BitVec 13) (hostWdata : Byte)
    (hostWe hostReq : Bool) (beRdAddr : BitVec 13) (beRdReq : Bool) (beWrAddr : BitVec 13)
    (beWrData : Byte) (beWrReq : Bool) :
    (s.live.step hostAddr hostWdata hostWe hostReq beRdAddr beRdReq beWrAddr beWrData
        beWrReq).live =
      (s.step hostAddr hostWdata hostWe hostReq beRdAddr beRdReq beWrAddr beWrData
        beWrReq).live := by
  cases hostReq <;> cases hostWe <;> cases beRdReq <;> cases beWrReq <;> rfl

theorem NpuPsumBuffer.live_step (s : NpuPsumBuffer) (hostAddr : BitVec 12) (hostWdata : MmioData)
    (hostWe hostReq : Bool) :
    (s.live.step hostAddr hostWdata hostWe hostReq).live =
      (s.step hostAddr hostWdata hostWe hostReq).live := by
  cases hostReq <;> cases hostWe <;> rfl

/-- What the SRAMs hold. -/
structure Sram where
  act : BitVec 13 → Byte
  wt : BitVec 12 → Byte
  psum : BitVec 12 → MmioData

namespace NpuMemTop

def contents (m : NpuMemTop) : Sram := ⟨m.act, m.wt, m.psumBuf.sram.mem⟩

def live (m : NpuMemTop) : NpuMemTop :=
  { m with wtBuf := m.wtBuf.live, actBuf := m.actBuf.live, psumBuf := m.psumBuf.live }

variable (m : NpuMemTop) (h : HostReq) (q : BeReq)

theorem step_masked : m.step h q.masked = m.step h q := by
  cases hw : q.outWrReq <;> simp [step, BeReq.masked, NpuActBuffer.step, wtBeAddr, wtBeReq,
    wtIssueBias, hw]

theorem beRsp_masked : m.beRsp q.masked = m.beRsp q := rfl

theorem hostRsp_masked : m.hostRsp h q.masked = m.hostRsp h q := rfl

theorem hostRsp_live : m.live.hostRsp h q = m.hostRsp h q := by
  cases hw : m.wtBuf.hostRdR <;> cases ha : m.actBuf.hostRdAcceptR <;>
    cases hp : m.psumBuf.rvalid <;>
    simp [hostRsp, live, NpuWeightBuffer.live, NpuActBuffer.live, NpuPsumBuffer.live, hw, ha, hp]

theorem beRsp_live : (m.live.beRsp q).masked = (m.beRsp q).masked := by
  cases hw : m.wtBuf.beRdR <;> cases ha : m.actBuf.beRdAcceptR <;>
    simp [beRsp, live, NpuWeightBuffer.live, NpuActBuffer.live, BeRsp.masked, wtBeReq, wtIssueBias,
      hw, ha]

theorem live_step : (m.live.step h q).live = (m.step h q).live := by
  have hwt := m.wtBuf.live_step
  have hact := m.actBuf.live_step
  have hpsum := m.psumBuf.live_step
  simp only [live, step, hact, hpsum]
  congr 1
  exact hwt _ _ _ _ _ _

/-- The reset clears the flags of the read registers. -/
theorem live_clear {m n : NpuMemTop} (hwt : m.wtBuf.sram.mem = n.wtBuf.sram.mem)
    (hact : m.actBuf.sram.mem = n.actBuf.sram.mem)
    (hpsum : m.psumBuf.sram.mem = n.psumBuf.sram.mem) : m.clear.live = n.clear.live := by
  simp [live, clear, NpuWeightBuffer.live, NpuActBuffer.live, NpuPsumBuffer.live, hwt, hact, hpsum]

end NpuMemTop

/-! ## Backends and data that is not valid -/

theorem BeRsp.masked_of_valid {r : BeRsp} (h : r.actRdRvalid = true) : r.masked =
    { r with wtRdRdata := r.masked.wtRdRdata, biasRdRdata := r.masked.biasRdRdata } := by
  simp [BeRsp.masked, h]

theorem SoftmaxCtrl.step_masked (s : SoftmaxCtrl) (cmd : SoftmaxCmd) (v : Bool) (rsp : BeRsp) :
    s.step cmd v rsp.masked = s.step cmd v rsp := by
  cases ha : rsp.actRdRvalid with
  | true =>
      rw [BeRsp.masked_of_valid ha]
      rfl
  | false =>
      have hm : rsp.masked.actRdRvalid = false := ha
      simp only [step]
      congr 1
      all_goals simp only [ha, hm, Bool.false_eq_true, and_false, if_false]
      rfl

theorem VecCtrl.step_masked (s : VecCtrl) (cmd : VecCmd) (v : Bool) (rsp : BeRsp) :
    s.step cmd v rsp.masked = s.step cmd v rsp := by
  cases ha : rsp.actRdRvalid <;> cases hw : rsp.wtRdRvalid <;>
    simp [step, stateNext, BeRsp.masked, fresh, written, ha, hw]

theorem LnormCtrl.step_masked (s : LnormCtrl) (cmd : LnormCmd) (v : Bool) (rsp : BeRsp) :
    s.step cmd v rsp.masked = s.step cmd v rsp := by
  cases ha : rsp.actRdRvalid with
  | true =>
      rw [BeRsp.masked_of_valid ha]
      rfl
  | false =>
      have hm : rsp.masked.actRdRvalid = false := ha
      simp only [step]
      congr 1
      all_goals simp only [scanned, divStart, ha, hm, Bool.false_eq_true, and_false, false_and,
        or_false, if_false]
      all_goals rfl

theorem PoolCtrl.step_masked (s : PoolCtrl) (cmd : PoolCmd) (v : Bool) (rsp : BeRsp) :
    s.step cmd v rsp.masked = s.step cmd v rsp := by
  cases ha : rsp.actRdRvalid with
  | true =>
      rw [BeRsp.masked_of_valid ha]
      rfl
  | false =>
      have hm : rsp.masked.actRdRvalid = false := ha
      simp only [step]
      congr 1
      simp only [ha, hm, Bool.false_eq_true, and_false, if_false]
      rfl

theorem MacPath.step_masked (s : MacPath) (o : FrontOut) (rsp : BeRsp) :
    s.step o rsp.masked = s.step o rsp := by
  cases ha : rsp.actRdRvalid <;> cases hw : rsp.wtRdRvalid <;> cases hb : rsp.biasRdRvalid <;>
    simp [step, ConvLoader.step, BeRsp.masked, ha, hw, hb]

/-- No backend looks at data that is not valid. -/
theorem backend_step_masked (b : BackendId) (s : BeState b) (cmd : BeCmd b) (v : Bool)
    (rsp : BeRsp) : (backend b).step s cmd v rsp.masked = (backend b).step s cmd v rsp := by
  cases b with
  | conv => exact congrArg (Mac.mk _) (MacPath.step_masked _ _ rsp)
  | gemm => exact congrArg (Mac.mk _) (MacPath.step_masked _ _ rsp)
  | softmax => exact SoftmaxCtrl.step_masked s cmd v rsp
  | vec => exact VecCtrl.step_masked s cmd v rsp
  | lnorm => exact LnormCtrl.step_masked s cmd v rsp
  | pool => exact PoolCtrl.step_masked s cmd v rsp

/-! ## The register without reset -/

namespace LnormCtrl

/-- The sign of the element in hand. -/
def signed (s : LnormCtrl) : Bool := decide (s.state = .normDiv) || decide (s.state = .normWr)

def live (s : LnormCtrl) : LnormCtrl := { s with normSignR := s.normSignR && s.signed }

variable (s : LnormCtrl)

theorem req_live : s.live.req.masked = s.req.masked := by
  cases hs : s.state <;>
    simp [req, live, BeReq.masked, normResult, signed, reading, hs]

/-- Only the arrival of an element takes it in hand. -/
theorem signed_step (cmd : LnormCmd) (v : Bool) (rsp : BeRsp) (h : s.signed = false)
    (hw : ¬(s.state = .normWait ∧ rsp.actRdRvalid = true)) :
    (s.step cmd v rsp).signed = false := by
  have hstate : (s.step cmd v rsp).state = s.stateNext v rsp := rfl
  rw [signed, hstate]
  cases hs : s.state with
  | normDiv => simp [signed, hs] at h
  | normWr => simp [signed, hs] at h
  | normWait =>
      have hv : rsp.actRdRvalid = false := Bool.eq_false_iff.mpr fun hv ↦ hw ⟨hs, hv⟩
      simp [stateNext, hs, hv]
  | _ =>
      simp only [stateNext, hs]
      grind

/-- The sign is written before the division that leads to its use. -/
theorem live_step (cmd : LnormCmd) (v : Bool) (rsp : BeRsp) :
    (s.live.step cmd v rsp).live = (s.step cmd v rsp).live := by
  have hstep : s.live.step cmd v rsp =
      { s.step cmd v rsp with
        normSignR :=
          if s.state = .normWait ∧ rsp.actRdRvalid then (s.diffW rsp).msb
          else s.normSignR && s.signed } := rfl
  have hsign : (s.step cmd v rsp).normSignR =
      if s.state = .normWait ∧ rsp.actRdRvalid then (s.diffW rsp).msb else s.normSignR := rfl
  rw [hstep, live, live, hsign]
  congr 1
  change ((if s.state = .normWait ∧ rsp.actRdRvalid = true then (s.diffW rsp).msb
    else s.normSignR && s.signed) && (s.step cmd v rsp).signed) = _
  split
  · rfl
  · next hw =>
      cases hg : s.signed with
      | true => rw [Bool.and_true]
      | false => rw [s.signed_step cmd v rsp hg hw, Bool.and_false, Bool.and_false]

end LnormCtrl

/-! ## The core -/

def beLive : (b : BackendId) → BeState b → BeState b
  | .conv, s => s
  | .gemm, s => s
  | .softmax, s => s
  | .vec, s => s
  | .lnorm, s => LnormCtrl.live s
  | .pool, s => s

namespace NpuCore

def live (x : NpuCore) : NpuCore := { x with be := fun b ↦ beLive b (x.be b), mem := x.mem.live }

variable (x : NpuCore)

theorem beReq_live (b : BackendId) : (x.live.beReq b).masked = (x.beReq b).masked := by
  cases b with
  | lnorm => exact LnormCtrl.req_live _
  | _ => rfl

theorem cmdReady_live : x.live.cmdReady = x.cmdReady := by
  funext b
  cases b <;> rfl

theorem beDone_live : x.live.beDone = x.beDone := rfl

theorem beBusy_live : x.live.beBusy = x.beBusy := rfl

theorem memReq_live : x.live.memReq.masked = x.memReq.masked := x.beReq_live _

theorem accepts_live (b : BackendId) : x.live.accepts b = x.accepts b := by
  cases b <;> rfl

theorem rsp_live (b : BackendId) : (x.live.rsp b).masked = (x.rsp b).masked := by
  have hmem : (x.mem.live.beRsp x.live.memReq).masked = (x.mem.beRsp x.memReq).masked := by
    rw [x.mem.live.beRsp_masked x.live.memReq |>.symm, x.memReq_live, NpuMemTop.beRsp_masked,
      NpuMemTop.beRsp_live]
  change (if x.beSelR = selCode b then x.mem.live.beRsp x.live.memReq else .none).masked =
    (if x.beSelR = selCode b then x.mem.beRsp x.memReq else .none).masked
  split
  · exact hmem
  · rfl

theorem beLive_step (b : BackendId) (s : BeState b) (cmd : BeCmd b) (v : Bool) (rsp : BeRsp) :
    beLive b ((backend b).step (beLive b s) cmd v rsp) =
      beLive b ((backend b).step s cmd v rsp) := by
  cases b with
  | lnorm => exact LnormCtrl.live_step s cmd v rsp
  | _ => rfl

/-- The next live part depends on the live part only. -/
theorem live_step (i : CoreIn) : (x.live.step i).live = (x.step i).live := by
  have hready : x.live.dispReady = x.dispReady := by
    rw [dispReady, cmdReady_live]
    rfl
  have hsel : x.live.selNext = x.selNext := by
    simp only [selNext, accepts_live]
    rfl
  have hbe : (x.live.step i).live.be = (x.step i).live.be := by
    funext b
    change beLive b ((backend b).step (beLive b (x.be b)) _ _ (x.live.rsp b)) =
      beLive b ((backend b).step (x.be b) _ _ (x.rsp b))
    rw [beLive_step, ← backend_step_masked b _ _ _ (x.live.rsp b), rsp_live, backend_step_masked]
    rfl
  have hmem : (x.live.step i).mem.live = (x.step i).mem.live := by
    change (x.mem.live.step i.host x.live.memReq).live = (x.mem.step i.host x.memReq).live
    rw [← NpuMemTop.step_masked, memReq_live, NpuMemTop.step_masked, NpuMemTop.live_step]
  have hsched : (x.live.step i).sched = (x.step i).sched := by
    change x.sched.step _ _ x.live.dispReady x.live.beDone = _
    rw [hready, beDone_live]
    rfl
  change NpuCore.mk (x.live.step i).sched (x.live.step i).live.be x.live.selNext
    (x.live.step i).mem.live = _
  rw [hsched, hbe, hsel, hmem]
  rfl

/-- Nothing but the contents of the buffers outlives the reset. -/
theorem live_clear {x y : NpuCore} (h : x.mem.contents = y.mem.contents) :
    x.clear.live = y.clear.live := by
  obtain ⟨hact, hwt, hpsum⟩ := Sram.mk.inj h
  have hbe : ∀ z : NpuCore, z.clear.live.be = fun b ↦ beLive b (beReset b) := fun z ↦ by
    funext b
    cases b with
    | lnorm => exact congrArg (LnormCtrl.mk _ _ _ _ _ _ _ _ _ _ _ _ _ _ _ _ _ _) (Bool.and_false _)
    | _ => rfl
  change NpuCore.mk _ x.clear.live.be _ x.mem.clear.live = NpuCore.mk _ y.clear.live.be _ _
  rw [hbe, hbe, NpuMemTop.live_clear hwt hact hpsum]
  rfl

theorem contents_of_live {x y : NpuCore} (h : x.live = y.live) :
    x.mem.contents = y.mem.contents := by
  have hcontents := congrArg (fun z : NpuCore ↦ z.mem.contents) h
  exact hcontents

end NpuCore

/-! ## The queue -/

namespace Fifo

variable {w : ℕ} {α : Type} {s t : Fifo w α}

/-- Two buffers with the same entries at the same place. -/
structure Alike (s t : Fifo w α) : Prop where
  rdPtr : s.rdPtr = t.rdPtr
  entries : ∃ xs, s.Holds xs ∧ t.Holds xs

namespace Alike

variable (h : s.Alike t)
include h

theorem wrPtr : s.wrPtr = t.wrPtr := by
  obtain ⟨xs, hs, ht⟩ := h.entries
  rw [hs.wrPtr, ht.wrPtr, h.rdPtr]

theorem empty : s.empty = t.empty := by rw [Fifo.empty, Fifo.empty, h.wrPtr, h.rdPtr]

theorem full : s.full = t.full := by rw [Fifo.full, Fifo.full, h.wrPtr, h.rdPtr]

theorem rdData [Zero α] : s.rdData = t.rdData := by
  obtain ⟨xs, hs, ht⟩ := h.entries
  cases xs with
  | nil =>
      rw [Fifo.rdData, Fifo.rdData, if_pos (hs.empty_iff.mpr rfl), if_pos (ht.empty_iff.mpr rfl)]
  | cons x xs => rw [hs.rdData_eq, ht.rdData_eq]

theorem step (x : α) (wrValid rdReady : Bool) :
    (s.step x wrValid rdReady).Alike (t.step x wrValid rdReady) := by
  obtain ⟨xs, hs, ht⟩ := h.entries
  have hs' := hs.step x wrValid rdReady
  rw [h.full] at hs'
  refine ⟨?_, _, hs', ht.step x wrValid rdReady⟩
  change (if !s.empty && rdReady then s.rdPtr + 1 else s.rdPtr) = _
  rw [h.empty, h.rdPtr]
  rfl

end Alike

end Fifo

/-! ## The device -/

namespace Device

variable {x y : Device} {i : DeviceIn}

/-- Two devices that differ only in what no later cycle depends on. -/
structure Alike (x y : Device) : Prop where
  rst : x.rst = y.rst
  regs : x.regs = y.regs
  pending : x.pending = y.pending
  dma : x.dma = y.dma
  feRegs : x.fe.regs = y.fe.regs
  fetch : x.fe.fetch = y.fe.fetch
  decode : x.fe.decode = y.fe.decode
  queue : x.fe.queue.Alike y.fe.queue
  core : x.core.live = y.core.live

namespace Alike

variable (h : x.Alike y)
include h

theorem resetting : x.resetting = y.resetting := by
  change (x.rst.softResetSync1 || x.rst.softResetSync2) = _
  rw [h.rst]
  rfl

theorem coreField {α : Type} {f : NpuCore → α} (hf : ∀ z : NpuCore, f z.live = f z) :
    f x.core = f y.core := by
  rw [← hf, h.core, hf]

theorem wires : { x.wires i with be := (y.wires i).be } = y.wires i := by
  have hbusy : x.core.beBusy = y.core.beBusy := h.coreField NpuCore.beBusy_live
  have hdone : x.core.beDone = y.core.beDone := h.coreField NpuCore.beDone_live
  simp only [Device.wires, hbusy, hdone, h.queue.empty, h.queue.full, h.fetch, h.decode]

theorem bufPort : x.shell.bufPort (x.shellIn i) = y.shell.bufPort (y.shellIn i) := by
  change (if x.dma.dmaBusy then x.dma.bufReq else i.host.bufReq) = _
  rw [h.dma]
  rfl

theorem bufRsp : x.shell.bufRsp (x.shellIn i) = y.shell.bufRsp (y.shellIn i) := by
  have hreq : x.core.memReq.masked = y.core.memReq.masked := 
    h.coreField (f := fun z ↦ z.memReq.masked) NpuCore.memReq_live
  have hmem : x.core.mem.live = y.core.mem.live := congrArg NpuCore.mem h.core
  change x.core.mem.hostRsp (x.shell.bufPort (x.shellIn i)) x.core.memReq = _
  rw [← NpuMemTop.hostRsp_masked, hreq, h.bufPort, ← NpuMemTop.hostRsp_live, hmem,
    NpuMemTop.hostRsp_live, NpuMemTop.hostRsp_masked]
  rfl

theorem mmioReady : x.shell.mmioReady (x.shellIn i) = y.shell.mmioReady (y.shellIn i) := by
  rw [NpuShell.mmioReady, h.bufRsp]
  rfl

theorem mmioRdata : x.mmioRdata i = y.mmioRdata i := by
  have hreg : x.shell.regRdata (x.shellIn i) = y.shell.regRdata (y.shellIn i) := by
    change x.regs.regRdata i.host.addr { x.wires i with be := (y.wires i).be } x.pending
      x.dma.dmaBusy = _
    rw [h.wires, h.regs, h.pending, h.dma]
    rfl
  change (if x.regs.isBufR then (x.shell.bufRsp (x.shellIn i)).rdata
    else x.shell.regRdata (x.shellIn i)) = _
  rw [h.regs, h.bufRsp, hreg]
  rfl

theorem irq : x.shell.irq = y.shell.irq := by
  change (x.pending && x.regs.irqEnable) = _
  rw [h.pending, h.regs]
  rfl

theorem coreIn : x.coreIn i = y.coreIn i := by
  rw [Device.coreIn, h.queue.rdData, h.bufPort, Fifo.rdValid, h.queue.empty]
  rfl

theorem core_step : (x.step i).core.live = (y.step i).core.live := by
  have hlive : (x.core.step (x.coreIn i)).live = (y.core.step (y.coreIn i)).live := by
    rw [h.coreIn, ← NpuCore.live_step, h.core, NpuCore.live_step]
  cases hr : x.resetting with
  | true =>
      rw [core_step_resetting hr, core_step_resetting (h.resetting ▸ hr)]
      exact NpuCore.live_clear (NpuCore.contents_of_live hlive)
  | false => rw [Device.core_step hr, Device.core_step (h.resetting ▸ hr), hlive]

theorem fe_step : (x.step i).fe.regs = (y.step i).fe.regs ∧
    (x.step i).fe.fetch = (y.step i).fe.fetch ∧ (x.step i).fe.decode = (y.step i).fe.decode ∧
    (x.step i).fe.queue.Alike (y.step i).fe.queue := by
  have hready : x.core.sched.queueReady = y.core.sched.queueReady :=
    h.coreField (f := fun z ↦ z.sched.queueReady) fun _ ↦ rfl
  have hregs : (x.fe.step i.host x.core.sched.queueReady).regs =
      (y.fe.step i.host y.core.sched.queueReady).regs := by
    simp only [FrontEnd.step, h.feRegs, h.fetch]
  cases hr : x.resetting with
  | true =>
      have hx : (x.step i).fe = .reset _ _ := if_pos hr
      have hy : (y.step i).fe = .reset _ _ := if_pos (h.resetting ▸ hr)
      rw [hx, hy, hregs]
      exact ⟨rfl, rfl, rfl, rfl, [], Fifo.holds_nil, Fifo.holds_nil⟩
  | false =>
      rw [Device.fe_step hr, Device.fe_step (h.resetting ▸ hr)]
      refine ⟨hregs, ?_, ?_, ?_⟩
      · simp only [FrontEnd.step, h.feRegs, h.fetch]
      · simp only [FrontEnd.step, FrontEnd.descDone, Fifo.wrReady, h.feRegs, h.fetch, h.decode,
          h.queue.full]
      · rw [hready]
        simp only [FrontEnd.step, h.decode]
        exact h.queue.step _ _ _

/-- What cannot be told apart in one cycle cannot be told apart in the next. -/
theorem step : (x.step i).Alike (y.step i) := by
  have hdone : x.core.beDone = y.core.beDone := h.coreField NpuCore.beDone_live
  obtain ⟨hregs, hfetch, hdecode, hqueue⟩ := h.fe_step (i := i)
  refine ⟨?_, ?_, ?_, ?_, hregs, hfetch, hdecode, hqueue, h.core_step⟩
  · change NpuResetCtrl.mk x.regs.softReset x.rst.softResetSync1 = _
    rw [h.regs, h.rst]
    rfl
  · change (if x.resetting then .reset else x.regs.step i.host) = _
    rw [h.resetting, h.regs]
    rfl
  · change (if x.resetting || x.regs.irqClearR then false
      else x.pending || x.core.beDone || x.dma.dmaDone || x.fe.decode.decodeErr) = _
    rw [h.resetting, h.regs, h.pending, hdone, h.dma, h.decode]
    rfl
  · change (if x.resetting then .reset
      else x.dma.step x.regs.dmaCfg i.ext (x.shell.bufRsp (x.shellIn i))) = _
    rw [h.resetting, h.dma, h.regs, h.bufRsp]
    rfl

end Alike

end Device

end LgNpu
