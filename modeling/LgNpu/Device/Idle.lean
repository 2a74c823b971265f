import LgNpu.Core.Busy
import LgNpu.Device.Device

/-!
# No false idle

Where every outstanding command and every outstanding byte is, in every cycle.
A command is on its way from the doorbell register through fetch, decode, queue
and scheduler to a backend, which is busy until its done pulse; a byte is owed
by the start pulse or by an engine.  The status shows all of these but the
doorbell register, the start register and the scheduler's issue state.
-/

namespace LgNpu

/-! ## Bytes owed by an engine -/

namespace DmaEngine

variable {a b : ℕ} (s : DmaEngine a b)

/-- The bytes that the transfer in progress has still to move. -/
def owed : ℕ := if s.busy then s.lenR.toNat - s.cntR.toNat else 0

/-- The byte counter is below the length; a zero length still moves a byte. -/
def Counting : Prop := s.busy = true → s.cntR.toNat < s.lenR.toNat ∨ s.cntR = 0 ∧ s.lenR = 0

variable {s} {start : Bool}

theorem cnt_add_one (h : s.cntR.toNat < s.lenR.toNat ∨ s.cntR = 0 ∧ s.lenR = 0) :
    (s.cntR + 1).toNat = s.cntR.toNat + 1 ∧
      (s.lastByte = true ↔ s.lenR.toNat ≤ s.cntR.toNat + 1) := by
  have hlt := s.lenR.isLt
  have hnext : (s.cntR + 1).toNat = s.cntR.toNat + 1 := by
    rcases h with h | ⟨h, -⟩
    · exact toNat_add_one (by omega)
    · rw [h]
      rfl
  refine ⟨hnext, ?_⟩
  rw [lastByte, Bool.not_eq_true', BitVec.ult, decide_eq_false_iff_not, not_lt, hnext]

/-- A byte is owed until its write is granted. -/
theorem owed_step (hc : s.Counting) (hs : start = true → s.state = .idle) (src : BitVec a)
    (dst : BitVec b) (len : BitVec 16) (rdGnt : Bool) (rdata : MmioData) (rvalid wrGnt : Bool) :
    (s.step start src dst len rdGnt rdata rvalid wrGnt).owed =
        s.owed - (s.wrReq && wrGnt).toNat + (if start then len.toNat else 0) ∧
      (s.step start src dst len rdGnt rdata rvalid wrGnt).Counting := by
  have hstart : s.state ≠ .idle → start = false := fun hne ↦
    Bool.eq_false_iff.mpr fun h ↦ hne (hs h)
  cases hst : s.state with
  | idle =>
      cases start with
      | false => simp [step, hst, owed, busy, wrReq, Counting]
      | true =>
          simp only [step, hst, owed, busy, wrReq, Counting, if_true]
          refine ⟨by simp, fun _ ↦ ?_⟩
          by_cases hl : len = 0
          · exact .inr ⟨trivial, hl⟩
          · exact .inl (Nat.pos_of_ne_zero fun h0 ↦ hl (BitVec.eq_of_toNat_eq h0))
  | rd =>
      rw [hstart (by simp [hst])]
      have hc' := hc (by simp [busy, hst])
      cases rdGnt <;> simpa [step, hst, owed, busy, wrReq, Counting] using hc'
  | wait =>
      rw [hstart (by simp [hst])]
      have hc' := hc (by simp [busy, hst])
      cases rvalid <;> simpa [step, hst, owed, busy, wrReq, Counting] using hc'
  | wr =>
      rw [hstart (by simp [hst])]
      have hc' := hc (by simp [busy, hst])
      cases wrGnt with
      | false => simpa [step, hst, owed, busy, wrReq, Counting] using hc'
      | true =>
          obtain ⟨hnext, hlast⟩ := cnt_add_one hc'
          cases hl : s.lastByte with
          | true =>
              have := hlast.mp hl
              simp only [step, hst, hl, owed, busy, wrReq, Counting, if_true, Bool.false_eq_true,
                if_false, Bool.and_true, decide_true, Bool.toNat_true, false_implies, and_true]
              omega
          | false =>
              have hmore : ¬s.lenR.toNat ≤ s.cntR.toNat + 1 := fun h ↦ by simp [hlast.mpr h] at hl
              simp only [step, hst, hl, owed, busy, wrReq, Counting, if_true, Bool.false_eq_true,
                if_false, Bool.and_true, decide_true, Bool.toNat_true, true_implies, hnext]
              omega
  | done =>
      rw [hstart (by simp [hst])]
      simp [step, hst, owed, busy, wrReq, Counting]

end DmaEngine

/-! ## Accounts -/

/-- What the host has asked for and what has become of it: doorbell writes
accepted, commands rejected by decode, commands taken by a backend, and the
bytes still to be moved in either direction. -/
structure Ledger where
  rung : ℕ
  rejected : ℕ
  taken : ℕ
  toLocal : ℕ
  toExt : ℕ

namespace Device

variable (x : Device) (i : DeviceIn)

/-- A register write is lost while the reset is asserted. -/
def starts (dir : Bool) : Bool :=
  i.host.startsDma && (i.host.wdata.getLsbD 1 == dir) && !x.resetting

/-- The commands taken by a backend in this cycle. -/
def taking : ℕ := (BackendId.all.filter x.core.accepts).length

def account (l : Ledger) : Ledger where
  rung := l.rung + (i.host.rings && !x.resetting).toNat
  rejected := l.rejected + x.fe.decode.decodeErr.toNat
  taken := l.taken + x.taking
  toLocal := l.toLocal - (x.dma.reader.wrReq && (x.shell.bufRsp (x.shellIn i)).gnt).toNat +
    if x.starts i false then x.regs.dmaLenR.toNat else 0
  toExt := l.toExt - (x.dma.writer.wrReq && i.ext.gnt).toNat +
    if x.starts i true then x.regs.dmaLenR.toNat else 0

/-- The accounts of a run. -/
def ledger (ins : ℕ → DeviceIn) : ℕ → Ledger
  | 0 => ⟨0, 0, 0, 0, 0⟩
  | t + 1 => (x.run ins t).account (ins t) (ledger ins t)

/-! ## Orderly runs -/

/-- Nothing is under way. -/
structure AtRest : Prop where
  doorbell : x.fe.regs.doorbellR = false
  fetch : x.fe.fetch.state = .idle
  decode : x.fe.decode.state = .idle
  queue : x.fe.queue.empty = true
  sched : x.core.sched.state ≠ .issue
  free : ∀ b, NpuCore.Free b (x.core.be b)
  start : x.regs.dmaStartR = false
  reader : x.dma.reader.busy = false
  writer : x.dma.writer.busy = false

/-- No request is lost on its way: a doorbell meets an idle fetch, a descriptor
an idle decoder, a start an idle engine; no element is hidden from
`pipe_empty`, and a soft reset interrupts no work. -/
structure Orderly : Prop where
  fetch : x.fe.regs.doorbellR = true → x.fe.fetch.state = .idle
  decode : x.fe.descDone = true → x.fe.decode.state = .idle
  reader : x.regs.dmaStartR = true → x.regs.dmaDirR = false → x.dma.reader.state = .idle
  writer : x.regs.dmaStartR = true → x.regs.dmaDirR = true → x.dma.writer.state = .idle
  hidden : x.core.NothingHidden
  reset : x.resetting = true → x.AtRest

/-! ## Where everything is -/

/-- The commands between the doorbell and the backends. -/
def underWay (queued : ℕ) : ℕ :=
  x.fe.regs.doorbellR.toNat + x.fe.fetch.busy.toNat + x.fe.decode.busy.toNat + queued +
    (decide (x.core.sched.state = .issue)).toNat

structure Inv (l : Ledger) : Prop where
  core : x.core.Inv
  commands : ∃ xs, x.fe.queue.Holds xs ∧ l.rung = l.rejected + l.taken + x.underWay xs.length
  toLocal : l.toLocal = x.dma.reader.owed +
    if x.regs.dmaStartR && (x.regs.dmaDirR == false) then x.regs.dmaLenR.toNat else 0
  toExt : l.toExt = x.dma.writer.owed +
    if x.regs.dmaStartR && (x.regs.dmaDirR == true) then x.regs.dmaLenR.toNat else 0
  reader : x.dma.reader.Counting
  writer : x.dma.writer.Counting

variable {x i} {l : Ledger}

theorem Inv.reset (cmdMem : BitVec 4 → MmioData) (queueMem : BitVec 2 → ConvCmd)
    (act : BitVec 13 → Byte) (wt : BitVec 12 → Byte) :
    Inv (reset cmdMem queueMem act wt) ⟨0, 0, 0, 0, 0⟩ where
  core := NpuCore.Inv.reset act wt
  commands := ⟨[], Fifo.holds_nil, rfl⟩
  toLocal := rfl
  toExt := rfl
  reader := fun h ↦ absurd h Bool.false_ne_true
  writer := fun h ↦ absurd h Bool.false_ne_true

/-- In the issue state one backend takes the command. -/
theorem taking_eq (h : x.core.Inv) :
    x.taking = (decide (x.core.sched.state = .issue)).toNat := by
  have hready : x.core.sched.state = .issue → ∀ b, x.core.cmdReady b = true := fun hs b ↦
    (NpuCore.shares b).free_ready _ (h.free_of_issue (by simp [hs]) b)
  have hacc : x.core.accepts = fun b ↦
      decide (x.core.sched.state = .issue ∧ dispatchTo x.core.sched.cmdR.opcode = b) := by
    funext b
    rw [NpuCore.accepts, NpuCore.cmdValid_eq]
    by_cases hs : x.core.sched.state = .issue
    · rw [hready hs, Bool.and_true]
    · simp [hs]
  rw [taking, hacc]
  by_cases hs : x.core.sched.state = .issue
  · simp only [hs, true_and]
    cases dispatchTo x.core.sched.cmdR.opcode <;> decide
  · simp [hs]

/-! ### One cycle -/

section Step

variable (ho : x.Orderly) (hr : x.resetting = false)
include ho

theorem Orderly.fetch_count (m : Mmio) (rdReady : Bool) :
    (x.fe.step m rdReady).fetch.busy.toNat + x.fe.descDone.toNat =
      x.fe.fetch.busy.toNat + x.fe.regs.doorbellR.toNat := by
  have hquiet : x.fe.fetch.state ≠ .idle → x.fe.regs.doorbellR = false := fun hne ↦
    Bool.eq_false_iff.mpr fun h ↦ hne (ho.fetch h)
  cases hs : x.fe.fetch.state with
  | idle =>
      rw [FrontEnd.descDone_eq_false (by simp [hs])]
      cases hd : x.fe.regs.doorbellR with
      | false => rw [FrontEnd.fetch_step_idle m rdReady hs hd]; simp [NpuCmdFetch.busy, hs]
      | true => rw [FrontEnd.fetch_step_rung m rdReady hs hd]; simp [NpuCmdFetch.busy, hs]
  | read =>
      rw [FrontEnd.descDone_eq_false (by simp [hs]), hquiet (by simp [hs]),
        (FrontEnd.fetch_step_read m rdReady hs).1]
      simp [NpuCmdFetch.busy, hs]
  | wait =>
      rw [hquiet (by simp [hs])]
      cases hv : x.fe.regs.fetchRvalidR with
      | false =>
          simp [FrontEnd.step, NpuCmdFetch.busy, NpuCmdFetch.step, FrontEnd.descDone,
            NpuCmdFetch.descDone, NpuCmdFetch.descWordValid, hs, hv]
      | true =>
          rw [FrontEnd.descDone_wait hs hv, FrontEnd.fetch_step_wait m rdReady hs hv]
          split
          · next hc => simp [NpuCmdFetch.busy, hs, hc]
          · next hc =>
              rw [decide_eq_false hc]
              simp [NpuCmdFetch.busy, hs]

theorem Orderly.decode_count (m : Mmio) (rdReady : Bool) :
    (x.fe.step m rdReady).decode.busy.toNat + x.fe.decode.decodeErr.toNat +
        (x.fe.decode.cmdValid && !x.fe.queue.full).toNat =
      x.fe.decode.busy.toNat + x.fe.descDone.toNat := by
  have hd := ho.decode
  change (x.fe.decode.step _ _ _ x.fe.descDone (!x.fe.queue.full)).busy.toNat + _ + _ = _
  cases hs : x.fe.decode.state with
  | idle =>
      cases x.fe.descDone <;>
        simp [NpuCmdDecode.busy, NpuCmdDecode.step, NpuCmdDecode.decodeErr, NpuCmdDecode.cmdValid,
          hs]
  | check =>
      have hd' : x.fe.descDone = false := Bool.eq_false_iff.mpr fun h ↦ by simp [hs, h] at hd
      simp [NpuCmdDecode.busy, NpuCmdDecode.step, NpuCmdDecode.decodeErr, NpuCmdDecode.cmdValid, hs,
        hd']
  | valid =>
      have hd' : x.fe.descDone = false := Bool.eq_false_iff.mpr fun h ↦ by simp [hs, h] at hd
      cases he : x.fe.decode.errR <;> cases hf : x.fe.queue.full <;>
        simp [NpuCmdDecode.busy, NpuCmdDecode.step, NpuCmdDecode.decodeErr, NpuCmdDecode.cmdValid,
          hs, hd', he]

end Step

/-- The scheduler pops a command when it is free and hands it on at once. -/
theorem sched_count (h : x.core.Inv) (hr : x.resetting = false) :
    (decide ((x.step i).core.sched.state = .issue)).toNat + x.taking =
      (decide (x.core.sched.state = .issue)).toNat +
        (x.core.sched.queueReady && x.fe.queue.rdValid).toNat := by
  rw [taking_eq h, core_step hr]
  change (decide ((x.core.sched.step _ x.fe.queue.rdValid x.core.dispReady _).state = _)).toNat +
    _ = _
  cases hs : x.core.sched.state with
  | idle =>
      cases hv : x.fe.queue.rdValid <;> simp [NpuScheduler.step, NpuScheduler.queueReady, hs]
  | issue =>
      have hready : x.core.dispReady = true :=
        (NpuCore.shares _).free_ready _ (h.free_of_issue (by simp [hs]) _)
      simp [NpuScheduler.step, NpuScheduler.queueReady, hs, hready]
  | wait =>
      cases x.core.beDone <;> simp [NpuScheduler.step, NpuScheduler.queueReady, hs]

theorem Inv.step_commands (h : Inv x l) (ho : x.Orderly) (hr : x.resetting = false) :
    ∃ xs, (x.step i).fe.queue.Holds xs ∧ (x.account i l).rung =
      (x.account i l).rejected + (x.account i l).taken + (x.step i).underWay xs.length := by
  obtain ⟨xs, hxs, hsum⟩ := h.commands
  have hfetch := ho.fetch_count i.host x.core.sched.queueReady
  have hdecode := ho.decode_count i.host x.core.sched.queueReady
  have hsched := sched_count (i := i) h.core hr
  have hpop : (x.core.sched.queueReady && x.fe.queue.rdValid).toNat +
      (if x.core.sched.queueReady then xs.tail else xs).length = xs.length := by
    have hlen := congrArg List.length (hxs.popped_append x.core.sched.queueReady)
    rw [List.length_append, Bool.and_comm] at hlen
    rw [← hlen]
    cases x.core.sched.queueReady && x.fe.queue.rdValid <;> rfl
  have hqueue := hxs.step x.fe.decode.cmdR x.fe.decode.cmdValid x.core.sched.queueReady
  refine ⟨_, (congrArg (fun z ↦ Fifo.Holds z.queue _) (fe_step hr)).mpr hqueue, ?_⟩
  have hlen : (if x.fe.decode.cmdValid && !x.fe.queue.full then [x.fe.decode.cmdR] else
      []).length = (x.fe.decode.cmdValid && !x.fe.queue.full).toNat := by
    cases x.fe.decode.cmdValid && !x.fe.queue.full <;> rfl
  have hbell : (x.fe.step i.host x.core.sched.queueReady).regs.doorbellR = i.host.rings := rfl
  rw [List.length_append, hlen]
  simp only [underWay, account, fe_step hr, hr, hbell, Bool.not_false, Bool.and_true] at hsum ⊢
  omega

/-- A start is in the start register in the next cycle, with its direction and
length. -/
theorem starts_eq (hr : x.resetting = false) (dir : Bool) :
    (if x.starts i dir then x.regs.dmaLenR.toNat else 0) =
      if (x.step i).regs.dmaStartR && ((x.step i).regs.dmaDirR == dir) then
        (x.step i).regs.dmaLenR.toNat else 0 := by
  have hregs : (x.step i).regs = x.regs.step i.host := if_neg (Bool.eq_false_iff.mp hr)
  rw [hregs]
  cases hw : i.host.writesReg regDmaCtrl with
  | false => simp [starts, Mmio.startsDma, NpuCtrlRegs.step, hw]
  | true =>
      have hlen : i.host.writesReg regDmaLen = false := by
        have haddr : i.host.addr = regDmaCtrl := by
          simpa using (Bool.and_eq_true_iff.mp hw).2
        simp [Mmio.writesReg, haddr, regDmaCtrl, regDmaLen]
      simp [starts, Mmio.startsDma, NpuCtrlRegs.step, hw, hlen, hr]

/-- What a pulse hands to an idle engine. -/
theorem owed_handover {a b : ℕ} {e : DmaEngine a b} {pulse gnt : Bool} {n len : ℕ}
    (hidle : pulse = true → e.state = .idle) (hn : n = e.owed + if pulse then len else 0) :
    n - (e.wrReq && gnt).toNat = e.owed - (e.wrReq && gnt).toNat + if pulse then len else 0 := by
  cases pulse with
  | false => simp [hn]
  | true => simp [hn, DmaEngine.owed, DmaEngine.busy, DmaEngine.wrReq, hidle rfl]

/-- The engines, the start pulse meeting an idle one. -/
theorem Inv.step_bytes (h : Inv x l) (ho : x.Orderly) (hr : x.resetting = false) :
    (x.step i).dma.reader.Counting ∧ (x.step i).dma.writer.Counting ∧
      ((x.account i l).toLocal = (x.step i).dma.reader.owed +
        if (x.step i).regs.dmaStartR && ((x.step i).regs.dmaDirR == false) then
          (x.step i).regs.dmaLenR.toNat else 0) ∧
      ((x.account i l).toExt = (x.step i).dma.writer.owed +
        if (x.step i).regs.dmaStartR && ((x.step i).regs.dmaDirR == true) then
          (x.step i).regs.dmaLenR.toNat else 0) := by
  have hdma : (x.step i).dma = x.dma.step x.regs.dmaCfg i.ext (x.shell.bufRsp (x.shellIn i)) :=
    if_neg (Bool.eq_false_iff.mp hr)
  have hlocal : (x.regs.dmaStartR && (x.regs.dmaDirR == false)) = true →
      x.dma.reader.state = .idle := fun hs ↦
    ho.reader (Bool.and_eq_true_iff.mp hs).1 (eq_of_beq (Bool.and_eq_true_iff.mp hs).2)
  have hext : (x.regs.dmaStartR && (x.regs.dmaDirR == true)) = true →
      x.dma.writer.state = .idle := fun hs ↦
    ho.writer (Bool.and_eq_true_iff.mp hs).1 (eq_of_beq (Bool.and_eq_true_iff.mp hs).2)
  have hrd := DmaEngine.owed_step h.reader (beq_false x.regs.dmaDirR ▸ hlocal) x.regs.dmaExtAddrR
    x.regs.dmaLocAddrR x.regs.dmaLenR i.ext.gnt i.ext.rdata i.ext.rvalid
    (x.shell.bufRsp (x.shellIn i)).gnt
  have hwr := DmaEngine.owed_step h.writer (beq_true x.regs.dmaDirR ▸ hext) x.regs.dmaLocAddrR
    x.regs.dmaExtAddrR x.regs.dmaLenR (x.shell.bufRsp (x.shellIn i)).gnt
    (x.shell.bufRsp (x.shellIn i)).rdata (x.shell.bufRsp (x.shellIn i)).rvalid i.ext.gnt
  have hreader : (x.step i).dma.reader = _ := congrArg NpuDmaFrontend.reader hdma
  have hwriter : (x.step i).dma.writer = _ := congrArg NpuDmaFrontend.writer hdma
  rw [hreader, hwriter]
  refine ⟨hrd.2, hwr.2, ?_, ?_⟩
  · change _ - _ + (if x.starts i false then _ else 0) = _
    rw [starts_eq hr, owed_handover hlocal h.toLocal]
    congr 1
    rw [beq_false]
    exact hrd.1.symm
  · change _ - _ + (if x.starts i true then _ else 0) = _
    rw [starts_eq hr, owed_handover hext h.toExt]
    congr 1
    rw [beq_true]
    exact hwr.1.symm

theorem owed_of_not_busy {a b : ℕ} {e : DmaEngine a b} (h : e.busy = false) :
    e.owed = 0 ∧ e.wrReq = false := by
  cases hs : e.state <;> simp_all [DmaEngine.owed, DmaEngine.busy, DmaEngine.wrReq]

theorem AtRest.underWay (h : x.AtRest) : x.underWay 0 = 0 := by
  simp [Device.underWay, h.doorbell, NpuCmdFetch.busy, NpuCmdDecode.busy, h.fetch, h.decode,
    h.sched]

/-- Nothing is under way after a reset either. -/
theorem Inv.step_resetting (h : Inv x l) (hrest : x.AtRest) (hr : x.resetting = true) :
    Inv (x.step i) (x.account i l) := by
  obtain ⟨xs, hxs, hsum⟩ := h.commands
  obtain rfl : xs = [] := hxs.empty_iff.mp hrest.queue
  rw [List.length_nil, hrest.underWay] at hsum
  have htaking : x.taking = 0 := by rw [taking_eq h.core, decide_eq_false hrest.sched]; rfl
  have herr : x.fe.decode.decodeErr = false := by simp [NpuCmdDecode.decodeErr, hrest.decode]
  have hregs : (x.step i).regs = .reset := if_pos hr
  have hdma : (x.step i).dma = .reset := if_pos hr
  have hfe : (x.step i).fe = .reset _ _ := if_pos hr
  obtain ⟨hlocal, hrd⟩ := owed_of_not_busy hrest.reader
  obtain ⟨hext, hwr⟩ := owed_of_not_busy hrest.writer
  refine ⟨?_, ⟨[], ?_, ?_⟩, ?_, ?_, ?_, ?_⟩
  · rw [core_step_resetting hr]
    have hsilent : ∀ b, NpuCore.Silent b ((x.core.step (x.coreIn i)).clear.be b) :=
      fun b ↦ NpuCore.silent_clear b _
    exact ⟨rfl, fun b _ ↦ hsilent b, fun hw ↦ absurd hw SchedState.noConfusion,
      fun _ ↦ (NpuCore.shares _).free_of_silent _ (hsilent _), rfl⟩
  · rw [hfe]
    exact Fifo.holds_nil
  · simp [account, Device.underWay, hfe, core_step_resetting hr, NpuCore.clear, hr, htaking, herr,
      hsum, FrontEnd.reset, NpuCmdFetch.busy, NpuCmdDecode.busy, NpuScheduler.reset]
  · have hzero : l.toLocal = 0 := by
      rw [h.toLocal, hlocal, hrest.start]
      rfl
    rw [hregs, hdma]
    simp only [account, starts, hr, hrd, hzero, Bool.not_true, Bool.and_false]
    rfl
  · have hzero : l.toExt = 0 := by
      rw [h.toExt, hext, hrest.start]
      rfl
    rw [hregs, hdma]
    simp only [account, starts, hr, hwr, hzero, Bool.not_true, Bool.and_false]
    rfl
  · rw [hdma]
    exact fun hb ↦ absurd hb Bool.false_ne_true
  · rw [hdma]
    exact fun hb ↦ absurd hb Bool.false_ne_true

theorem Inv.step (h : Inv x l) (ho : x.Orderly) : Inv (x.step i) (x.account i l) := by
  cases hr : x.resetting with
  | true => exact h.step_resetting (ho.reset hr) hr
  | false =>
      obtain ⟨hrd, hwr, hlocal, hext⟩ := h.step_bytes (i := i) ho hr
      refine ⟨?_, h.step_commands ho hr, hlocal, hext, hrd, hwr⟩
      rw [core_step hr]
      exact h.core.step (h.core.handover ho.hidden) _

/-! ## Runs -/

section Run

variable (ins : ℕ → DeviceIn)

/-- In a run of `n` cycles: the last command some backend took before cycle `t`
has not come to its done pulse by then, or has an output write granted in `t`
or later. -/
def Unwritten (n : ℕ) (x : Device) (t : ℕ) : Prop :=
  ∃ a b, a < t ∧ (x.run ins a).core.accepts b = true ∧
    (∀ u, a < u → u < t → (x.run ins u).core.accepts b = false) ∧
    ((∀ u, a < u → u < t → (x.run ins u).core.done b = false) ∨
      ∃ u, t ≤ u ∧ u ≤ n ∧ (x.run ins u).core.writes b = true ∧
        ∀ v, t ≤ v → v < u → (x.run ins v).core.accepts b = false)

/-- Some doorbell write has been accepted whose command has neither been
rejected nor written all of its output. -/
def Outstanding (n : ℕ) (x : Device) (t : ℕ) : Prop :=
  (x.ledger ins t).rejected + (x.ledger ins t).taken < (x.ledger ins t).rung ∨
    x.Unwritten ins n t

/-- Some transfer has been started that has not moved its last byte. -/
def Moving (x : Device) (t : ℕ) : Prop :=
  0 < (x.ledger ins t).toLocal + (x.ledger ins t).toExt

variable {ins} {n : ℕ} (ho : ∀ t ≤ n, (x.run ins t).Orderly) (hi : x.Inv ⟨0, 0, 0, 0, 0⟩)
include ho hi

theorem inv_run {t : ℕ} (ht : t ≤ n) : (x.run ins t).Inv (x.ledger ins t) := by
  induction t with
  | zero => exact hi
  | succ t ih => exact (ih (Nat.le_of_succ_le ht)).step (ho t (Nat.le_of_succ_le ht))

/-- A backend that takes a command is engaged until its done pulse and free
from then on. -/
theorem phase {a : ℕ} {b : BackendId} (ha : (x.run ins a).core.accepts b = true) {u : ℕ}
    (hu : a < u) (hn : u ≤ n)
    (hno : ∀ v, a < v → v < u → (x.run ins v).core.accepts b = false) :
    ((∀ v, a < v → v < u → (x.run ins v).core.done b = false) ∧
        NpuCore.Working b ((x.run ins u).core.be b) ∧ NpuCore.Engaged b ((x.run ins u).core.be b)) ∨
      (∃ v, a < v ∧ v < u ∧ (x.run ins v).core.done b = true) ∧
        NpuCore.Free b ((x.run ins u).core.be b) := by
  induction u, hu using Nat.le_induction with
  | base =>
      have hissue : (x.run ins a).core.sched.state = .issue := by
        by_contra hs
        exact Bool.false_ne_true ((NpuCore.accepts_eq_false hs b).symm.trans ha)
      have hr : (x.run ins a).resetting = false :=
        Bool.eq_false_iff.mpr fun hr ↦ ((ho a (by omega)).reset hr).sched hissue
      have hfree := (inv_run ho hi (show a ≤ n by omega)).core.free_of_issue (by simp [hissue]) b
      refine .inl ⟨fun v hv hva ↦ absurd hv (by omega), ?_⟩
      rw [run_succ, core_step hr, NpuCore.be_step, (Bool.and_eq_true_iff.mp ha).1]
      exact ⟨(NpuCore.shares b).accept _ _ _ hfree, (NpuCore.engages b).accept _ _ _ hfree⟩
  | succ u hu ih =>
      have hun : u ≤ n := Nat.le_of_succ_le hn
      have hbefore := ih hun fun v hv hvu ↦ hno v hv (hvu.trans u.lt_succ_self)
      rw [run_succ]
      cases hr : (x.run ins u).resetting with
      | true =>
          rw [core_step_resetting hr]
          rcases hbefore with ⟨-, -, he⟩ | ⟨⟨v, hv, hvu, hd⟩, -⟩
          · exact absurd (((ho u hun).reset hr).free b) ((NpuCore.engages b).not_free _ he)
          · exact .inr ⟨⟨v, hv, hvu.trans u.lt_succ_self, hd⟩,
              (NpuCore.shares b).free_of_silent _ (NpuCore.silent_clear b _)⟩
      | false =>
          have hvalid : (x.run ins u).core.cmdValid b = false := by
            have hacc := hno u hu u.lt_succ_self
            have hcore := (inv_run ho hi hun).core
            apply Bool.eq_false_iff.mpr
            intro hv
            rw [NpuCore.accepts, hv, Bool.true_and] at hacc
            rw [NpuCore.cmdValid_eq, decide_eq_true_eq] at hv
            exact Bool.false_ne_true (hacc.symm.trans
              ((NpuCore.shares b).free_ready _ (hcore.free_of_issue (by simp [hv.1]) b)))
          rw [core_step hr, NpuCore.be_step, hvalid]
          rcases hbefore with ⟨hnd, hw, he⟩ | ⟨⟨v, hv, hvu, hd⟩, hf⟩
          · cases hd : (x.run ins u).core.done b with
            | true =>
                exact .inr ⟨⟨u, hu, u.lt_succ_self, hd⟩,
                  (NpuCore.shares b).working_done _ _ _ hw hd⟩
            | false =>
                refine .inl ⟨fun v hv hvu ↦ ?_, (NpuCore.shares b).working_step _ _ _ hw hd,
                  (NpuCore.engages b).step _ _ _ he hd⟩
                rcases Nat.lt_succ_iff_lt_or_eq.mp hvu with hlt | rfl
                exacts [hnd v hv hlt, hd]
          · exact .inr ⟨⟨v, hv, hvu.trans u.lt_succ_self, hd⟩,
              (NpuCore.shares b).free_step _ _ _ hf⟩

theorem Unwritten.engaged {t : ℕ} (ht : t ≤ n) (h : x.Unwritten ins n t) :
    ∃ b, NpuCore.Engaged b ((x.run ins t).core.be b) := by
  obtain ⟨a, b, hat, ha, hno, hrest⟩ := h
  rcases phase ho hi ha hat ht hno with ⟨-, -, he⟩ | ⟨⟨v, hv, hvt, hd⟩, -⟩
  · exact ⟨b, he⟩
  · exfalso
    rcases hrest with hnd | ⟨u, htu, hun, hw, hno'⟩
    · exact Bool.false_ne_true ((hnd v hv hvt).symm.trans hd)
    · have hquiet : ∀ w, a < w → w < u → (x.run ins w).core.accepts b = false := fun w haw hwu ↦ by
        rcases Nat.lt_or_ge w t with hlt | hge
        exacts [hno w haw hlt, hno' w hge hwu]
      rcases phase ho hi ha (hat.trans_le htu) hun hquiet with ⟨hnd, -⟩ | ⟨-, hf⟩
      · exact Bool.false_ne_true ((hnd v hv (hvt.trans_le htu)).symm.trans hd)
      · exact Bool.false_ne_true ((NpuCore.not_writes_of_free (ho u hun).hidden hf).symm.trans hw)

end Run

/-! ## What the host reads -/

variable (x) in
/-- Work is in a register that the status does not look at. -/
def HandingOver : Prop :=
  x.fe.regs.doorbellR = true ∨ x.regs.dmaStartR = true ∨ x.core.sched.state = .issue

variable (x) in
/-- Work is where the status looks. -/
def AtWork : Prop :=
  x.fe.fetch.state ≠ .idle ∨ x.fe.decode.state ≠ .idle ∨ x.fe.queue.empty = false ∨
    (∃ b, NpuCore.Engaged b (x.core.be b)) ∨ x.dma.reader.busy = true ∨ x.dma.writer.busy = true

variable (x) in
/-- A read of a status register is answered by it, and what is being handed
over is not all there is. -/
structure ReadsTrue : Prop where
  window : x.regs.isBufR = false
  status : x.HandingOver → x.AtWork
  dma : x.regs.dmaStartR = true → x.dma.reader.busy = true ∨ x.dma.writer.busy = true

theorem AtWork.coreIdle (h : x.AtWork) : (x.wires i).coreIdle x.dma.dmaBusy = false := by
  simp only [CoreWires.coreIdle, wires, NpuDmaFrontend.dmaBusy, NpuCmdFetch.busy, NpuCmdDecode.busy]
  rcases h with h | h | h | ⟨b, h⟩ | h | h
  · simp [h]
  · simp [h]
  · simp [h]
  · simp [NpuCore.beBusy_of_engaged h]
  · simp [h]
  · simp [h]

theorem mmioRdata_status (hw : x.regs.isBufR = false) (hh : i.host = .read regStatus) :
    (x.mmioRdata i).getLsbD 0 = (x.wires i).coreIdle x.dma.dmaBusy := by
  have hread : x.mmioRdata i = x.regs.regRdata i.host.addr (x.wires i) x.pending x.dma.dmaBusy :=
    if_neg (Bool.eq_false_iff.mp hw)
  rw [hread, hh]
  change BitVec.getLsbD (BitVec.ofNat 32 (((x.wires i).coreIdle x.dma.dmaBusy).toNat + _ + _)) 0 = _
  cases (x.wires i).coreIdle x.dma.dmaBusy <;> cases ((x.wires i).beBusy || x.dma.dmaBusy) <;>
    cases (x.wires i).queueFull <;> rfl

theorem mmioRdata_dmaStatus (hw : x.regs.isBufR = false) (hh : i.host = .read regDmaStatus) :
    (x.mmioRdata i).getLsbD 0 = x.dma.dmaBusy := by
  have hread : x.mmioRdata i = x.regs.regRdata i.host.addr (x.wires i) x.pending x.dma.dmaBusy :=
    if_neg (Bool.eq_false_iff.mp hw)
  rw [hread, hh]
  change (x.regs.regRdata regDmaStatus _ _ _).getLsbD 0 = _
  rw [NpuCtrlRegs.regRdata_dmaStatus]
  cases x.dma.dmaBusy <;> rfl

theorem Inv.busy_of_owed (h : Inv x l) (hl : 0 < l.toLocal + l.toExt) :
    x.regs.dmaStartR = true ∨ x.dma.reader.busy = true ∨ x.dma.writer.busy = true := by
  by_contra hno
  simp only [not_or, Bool.not_eq_true] at hno
  obtain ⟨hs, hrd, hwr⟩ := hno
  rw [h.toLocal, h.toExt, (owed_of_not_busy hrd).1, (owed_of_not_busy hwr).1, hs] at hl
  simp at hl

/-- A command that is neither rejected nor taken is in some register on the
way. -/
theorem Inv.working_of_lt (h : Inv x l) (hl : l.rejected + l.taken < l.rung) :
    x.HandingOver ∨ x.AtWork := by
  obtain ⟨xs, hxs, hsum⟩ := h.commands
  by_contra hno
  simp only [HandingOver, AtWork, not_or, not_not, Bool.not_eq_true, Bool.not_eq_false] at hno
  obtain ⟨⟨hbell, -, hissue⟩, hfetch, hdecode, hempty, -⟩ := hno
  obtain rfl : xs = [] := hxs.empty_iff.mp hempty
  rw [List.length_nil] at hsum
  have hzero : x.underWay 0 = 0 := by
    simp [Device.underWay, hbell, NpuCmdFetch.busy, NpuCmdDecode.busy, hfetch, hdecode, hissue]
  omega

section Read

variable {ins : ℕ → DeviceIn} {n t : ℕ} (ho : ∀ t ≤ n, (x.run ins t).Orderly)
  (hi : x.Inv ⟨0, 0, 0, 0, 0⟩) (ht : t ≤ n) (hr : (x.run ins t).ReadsTrue)
include ho hi ht hr

theorem idle_eq_false (h : x.Outstanding ins n t ∨ x.Moving ins t)
    (hh : (ins t).host = .read regStatus) :
    ((x.run ins t).mmioRdata (ins t)).getLsbD 0 = false := by
  rw [mmioRdata_status hr.window hh]
  apply AtWork.coreIdle
  have hinv := inv_run ho hi ht
  have hwork : (x.run ins t).HandingOver ∨ (x.run ins t).AtWork := by
    rcases h with (h | h) | h
    · exact hinv.working_of_lt h
    · exact .inr (.inr (.inr (.inr (.inl (h.engaged ho hi ht)))))
    · rcases hinv.busy_of_owed h with h | h
      · exact .inl (.inr (.inl h))
      · exact .inr (.inr (.inr (.inr (.inr h))))
  exact hwork.elim hr.status id

theorem dmaStatus_eq_true (h : x.Moving ins t) (hh : (ins t).host = .read regDmaStatus) :
    ((x.run ins t).mmioRdata (ins t)).getLsbD 0 = true := by
  rw [mmioRdata_dmaStatus hr.window hh, NpuDmaFrontend.dmaBusy, Bool.or_eq_true]
  exact ((inv_run ho hi ht).busy_of_owed h).elim hr.dma id

end Read

end Device

/-! ## Polling -/

/-- A loop of reads until one is `ok`, at most `n` of them. -/
def pollFrom (read : ℕ → MmioData) (ok : MmioData → Bool) (j : ℕ) : ℕ → ℤ
  | 0 => -1
  | n + 1 => if ok (read j) then 0 else pollFrom read ok (j + 1) n

theorem pollFrom_eq_zero {read : ℕ → MmioData} {ok : MmioData → Bool} {j n : ℕ}
    (h : pollFrom read ok j n = 0) : ∃ k, j ≤ k ∧ k < j + n ∧ ok (read k) = true := by
  induction n generalizing j with
  | zero => simp [pollFrom] at h
  | succ n ih =>
      rw [pollFrom] at h
      split at h
      · next hk => exact ⟨j, le_rfl, by omega, hk⟩
      · obtain ⟨k, hjk, hkn, hk⟩ := ih h
        exact ⟨k, by omega, by omega, hk⟩

/-- `npu_poll_idle` on a device: `IDLE` is bit 0 of `STATUS`, `BUSY` bit 1. -/
def npuPollIdle (read : ℕ → MmioData) (timeoutCycles : BitVec 32) : ℤ :=
  pollFrom read (fun val ↦ val.getLsbD 0 && !val.getLsbD 1) 0 timeoutCycles.toNat

/-- `npu_dma_poll` on a device. -/
def npuDmaPoll (read : ℕ → MmioData) (timeoutCycles : BitVec 32) : ℤ :=
  pollFrom read (fun val ↦ !val.getLsbD 0) 0 timeoutCycles.toNat

namespace Device

variable {cmdMem : BitVec 4 → MmioData} {queueMem : BitVec 2 → ConvCmd} {act : BitVec 13 → Byte}
  {wt : BitVec 12 → Byte} {ins : ℕ → DeviceIn} {n : ℕ}

/-- In a run whose cycles are orderly, status reads in cycles in which nothing
is merely being handed over are true, and so are polls made of such reads. -/
theorem no_false_idle {x : Device} (hx : x = reset cmdMem queueMem act wt)
    (ho : ∀ t ≤ n, (x.run ins t).Orderly) :
    (∀ t ≤ n, (x.run ins t).ReadsTrue →
      ((x.Outstanding ins n t ∨ x.Moving ins t) → (ins t).host = .read regStatus →
        ((x.run ins t).mmioRdata (ins t)).getLsbD 0 = false) ∧
      (x.Moving ins t → (ins t).host = .read regDmaStatus →
        ((x.run ins t).mmioRdata (ins t)).getLsbD 0 = true)) ∧
    ∀ (c : ℕ → ℕ) (timeoutCycles : BitVec 32), (∀ j < timeoutCycles.toNat, c j ≤ n ∧
        (x.run ins (c j)).ReadsTrue) →
      ((∀ j, (ins (c j)).host = .read regStatus) →
        npuPollIdle (fun j ↦ (x.run ins (c j)).mmioRdata (ins (c j))) timeoutCycles = 0 →
          ∃ j < timeoutCycles.toNat, ¬x.Outstanding ins n (c j) ∧ ¬x.Moving ins (c j)) ∧
      ((∀ j, (ins (c j)).host = .read regDmaStatus) →
        npuDmaPoll (fun j ↦ (x.run ins (c j)).mmioRdata (ins (c j))) timeoutCycles = 0 →
          ∃ j < timeoutCycles.toNat, ¬x.Moving ins (c j)) := by
  have hi : x.Inv ⟨0, 0, 0, 0, 0⟩ := hx ▸ Inv.reset cmdMem queueMem act wt
  refine ⟨fun t ht hr ↦ ⟨idle_eq_false ho hi ht hr, dmaStatus_eq_true ho hi ht hr⟩,
    fun c timeout hc ↦ ⟨fun hh hz ↦ ?_, fun hh hz ↦ ?_⟩⟩
  · obtain ⟨j, -, hj, hok⟩ := pollFrom_eq_zero hz
    rw [Nat.zero_add] at hj
    obtain ⟨hcn, hr⟩ := hc j hj
    have hidle := (Bool.and_eq_true_iff.mp hok).1
    refine ⟨j, hj, fun h ↦ ?_, fun h ↦ ?_⟩
    · exact Bool.false_ne_true ((idle_eq_false ho hi hcn hr (.inl h) (hh j)).symm.trans hidle)
    · exact Bool.false_ne_true ((idle_eq_false ho hi hcn hr (.inr h) (hh j)).symm.trans hidle)
  · obtain ⟨j, -, hj, hok⟩ := pollFrom_eq_zero hz
    rw [Nat.zero_add] at hj
    obtain ⟨hcn, hr⟩ := hc j hj
    refine ⟨j, hj, fun h ↦ ?_⟩
    rw [dmaStatus_eq_true ho hi hcn hr h (hh j)] at hok
    exact absurd hok (by decide)

/-! ### A doorbell and two reads -/

/-- A doorbell write, and then reads of the status. -/
def ringThenPoll (t : ℕ) : DeviceIn :=
  ⟨if t = 0 then .write regDoorbell 1 else .read regStatus, ⟨false, 0, false⟩, 0, 0, 0⟩

/-- A device with empty storages. -/
def fresh : Device := reset (fun _ ↦ 0) (fun _ ↦ 0) (fun _ ↦ 0) fun _ ↦ 0

theorem no_false_idle_ringThenPoll :
    ((fresh.run ringThenPoll 2).mmioRdata (ringThenPoll 2)).getLsbD 0 = false := by
  have ho : ∀ t ≤ 2, (fresh.run ringThenPoll t).Orderly := by
    intro t ht
    have hquiet : ∀ t ≤ 2, (fresh.run ringThenPoll t).resetting = false ∧
        (∀ b ∈ BackendId.all, NpuCore.Drained b ((fresh.run ringThenPoll t).core.be b)) ∧
        (fresh.run ringThenPoll t).fe.descDone = false ∧
        (fresh.run ringThenPoll t).regs.dmaStartR = false ∧
        ((fresh.run ringThenPoll t).fe.regs.doorbellR = true →
          (fresh.run ringThenPoll t).fe.fetch.state = .idle) := by
      decide +kernel
    obtain ⟨hr, hdrained, hdesc, hstart, hfetch⟩ := hquiet t ht
    exact ⟨hfetch, by simp [hdesc], by simp [hstart], by simp [hstart],
      fun b _ ↦ hdrained b b.mem_all, by simp [hr]⟩
  have htrue : (fresh.run ringThenPoll 2).ReadsTrue :=
    ⟨by decide +kernel, fun _ ↦ .inl (by decide +kernel), fun h ↦ absurd h (by decide +kernel)⟩
  have hout : fresh.Outstanding ringThenPoll 2 2 := .inl (by decide +kernel)
  exact ((no_false_idle rfl ho).1 2 le_rfl htrue).1 (.inl hout) rfl

/-- The doorbell register is not part of the status. -/
theorem not_no_false_idle : ¬∀ n t, t ≤ n → fresh.Outstanding ringThenPoll n t →
    (ringThenPoll t).host = .read regStatus →
      ((fresh.run ringThenPoll t).mmioRdata (ringThenPoll t)).getLsbD 0 = false := by
  intro h
  have hout : fresh.Outstanding ringThenPoll 1 1 := .inl (by decide +kernel)
  exact absurd (h 1 1 le_rfl hout rfl) (by decide +kernel)

end Device

end LgNpu
