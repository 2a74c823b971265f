import LgNpu.Dma.Transfer
import LgNpu.Host.Shell
import LgNpu.Host.Windows

/-!
# A transfer inside the shell

The engines of the shell between the external memory and the port of the
buffers, which they share with the host.  The accesses that the DMA is granted
are those of `DmaSys` with a local memory of its own: a grant goes to the DMA
alone while it is busy, and a response it waits for is its own.
-/

namespace LgNpu

/-- One cycle of the host, of the external memory and of the core. -/
structure SysIn where
  host : Mmio
  ext : PortDelay
  core : CoreWires

/-- The shell with its external memory. -/
structure ShellSys where
  shell : NpuShell
  ext : MemPort 32

namespace DmaEngine

variable {a b : ℕ} {s : DmaEngine a b} {start : Bool} {src : BitVec a} {dst : BitVec b}
  {len : BitVec 16} {rdGnt : Bool} {rdata : MmioData} {rvalid wrGnt : Bool}

/-- A wait begins with a grant and goes on without a response. -/
theorem step_eq_wait (h : (s.step start src dst len rdGnt rdata rvalid wrGnt).state = .wait) :
    (s.state = .rd ∧ rdGnt = true) ∨ s.state = .wait ∧ rvalid = false := by
  rw [step] at h
  cases hs : s.state <;> simp only [hs] at h
  case idle => cases start <;> simp [hs] at h
  case rd => cases rdGnt <;> simp [hs] at h ⊢
  case wait => cases rvalid <;> simp at h ⊢
  case wr =>
    cases wrGnt with
    | false => simp [hs] at h
    | true =>
        simp only [if_true] at h
        split at h <;> simp at h
  case done => simp at h

/-- Without a start an engine does not become busy. -/
theorem busy_of_busy_step (h : (s.step false src dst len rdGnt rdata rvalid wrGnt).busy = true) :
    s.busy = true := by
  cases hs : s.state <;> simp_all [step, busy]

theorem idle_step (h : s.state = .idle) :
    (s.step false src dst len rdGnt rdata rvalid wrGnt).state = .idle := by
  simp [step, h]

end DmaEngine

namespace NpuDmaFrontend

variable {s : NpuDmaFrontend}

/-- The front end looks at the response of the buffers only when the writer
waits for it. -/
theorem step_congr {c : DmaCfg} {ext : ExtRsp} {r r' : HostRsp} (hgnt : r.gnt = r'.gnt)
    (hwait : s.writer.state = .wait → r.rvalid = r'.rvalid ∧ (r.rvalid = true → r.rdata = r'.rdata)) :
    s.step c ext r = s.step c ext r' := by
  rw [step, step, hgnt]
  congr 1
  cases hw : s.writer.state <;> simp only [DmaEngine.step, hw]
  obtain ⟨hv, hd⟩ := hwait hw
  rw [← hv]
  cases hr : r.rvalid with
  | false => rfl
  | true => rw [hd hr]

theorem bufReq_req_of_not_busy (h : s.dmaBusy = false) : s.bufReq.req = false := by
  cases hr : s.reader.state <;> cases hw : s.writer.state <;>
    simp [dmaBusy, bufReq, DmaEngine.busy, DmaEngine.wrReq, DmaEngine.rdReq, hr, hw] at h ⊢

theorem extReq_req_of_not_busy (h : s.dmaBusy = false) : s.extReq.req = false := by
  cases hr : s.reader.state <;> cases hw : s.writer.state <;>
    simp [dmaBusy, extReq, DmaEngine.busy, DmaEngine.wrReq, hr, hw] at h ⊢

end NpuDmaFrontend

namespace MemPort

variable {a : ℕ} {p : MemPort a}

/-- A memory that is not asked and owes nothing. -/
theorem step_idle {d : PortDelay} {addr : BitVec a} {wdata : MmioData} {wr : Bool}
    (h : p.pending = none) : p.step d addr wdata wr false = p := by
  obtain ⟨mem, pending, log⟩ := p
  obtain rfl : pending = none := h
  simp [step, rvalid]

end MemPort

namespace ShellSys

variable (i : SysIn) (x : ShellSys) (ins : ℕ → SysIn)

def shellIn : ShellIn := ⟨i.host, ⟨i.ext.gnt, x.ext.rdata i.ext, x.ext.rvalid i.ext⟩, i.core⟩

def step : ShellSys where
  shell := x.shell.step (x.shellIn i)
  ext := x.ext.step i.ext x.shell.dma.extReq.addr x.shell.dma.extReq.wdata x.shell.dma.extReq.wr
    x.shell.dma.extReq.req

def run (ins : ℕ → SysIn) (x : ShellSys) : ℕ → ShellSys := Clocked.run (fun t ↦ step (ins t)) x

theorem run_succ (t : ℕ) : run ins x (t + 1) = (run ins x t).step (ins t) := rfl

/-- What the shell sees of the run. -/
def shellIns (t : ℕ) : ShellIn := (run ins x t).shellIn (ins t)

theorem shell_run (t : ℕ) : (run ins x t).shell = NpuShell.run (shellIns x ins) x.shell t := by
  induction t with
  | zero => rfl
  | succ t ih =>
      rw [NpuShell.run_succ, ← ih]
      rfl

/-- The delays of the buffers towards the DMA. -/
def locDelay (t : ℕ) : PortDelay := ⟨((run ins x t).shell.bufRsp (shellIns x ins t)).gnt, true, 0⟩

/-- The accesses the buffers grant to the DMA, over a memory of its own that
starts as `m`. -/
def dmaPort (m : MmioAddr → MmioData) : ℕ → MemPort 20
  | 0 => ⟨m, none, []⟩
  | t + 1 => (dmaPort m t).step (locDelay x ins t) (run ins x t).shell.dma.bufReq.addr
      (run ins x t).shell.dma.bufReq.wdata (run ins x t).shell.dma.bufReq.wr
      (run ins x t).shell.dma.bufReq.req

/-- The SRAM writes among some accesses. -/
def sramWrites (log : List (Access 20)) : List (SramLoc × MmioData) :=
  log.flatMap fun
    | .write a d => ((locate a).map fun l ↦ (l, l.trim d)).toList
    | .read _ => []

/-- The buffers as the DMA addresses them. -/
def view (m : NpuMemTop) (a : MmioAddr) : MmioData := (locate a).elim 0 m.look

/-- What the DMA sees from cycle `k + 1` on. -/
def dmaIns (k t : ℕ) : DmaIn :=
  ⟨(run ins x (k + 1 + t)).shell.regs.dmaCfg, (ins (k + 1 + t)).ext, locDelay x ins (k + 1 + t)⟩

/-- The DMA between its memories from cycle `k + 1` on; the local one starts
as the buffers in the first busy cycle. -/
def dmaSys (k t : ℕ) : DmaSys :=
  ⟨(run ins x (k + 1 + t)).shell.dma, (run ins x (k + 1 + t)).ext,
    dmaPort x ins (view (run ins x (k + 2)).shell.mem) (k + 1 + t)⟩

/-- One transfer, started from idle by the write of `DMA_CTRL` in cycle `k`;
no backend writes and there is no reset. -/
structure OneTransfer (k : ℕ) : Prop where
  stable : x.shell.Stable
  noReset : ∀ t, NpuShell.noSoftReset (ins t).host
  noBackend : ∀ t, (ins t).core.be.outWrReq = false
  idle : x.shell.DmaIdle
  extPending : x.ext.pending = none
  extLog : x.ext.log = []
  started : ∀ t, (ins t).host.startsDma = decide (t = k)

def cfg (k : ℕ) : DmaCfg := (run ins x (k + 1)).shell.regs.dmaCfg

variable {i x ins} {k : ℕ}

namespace OneTransfer

variable (h : OneTransfer x ins k)
include h

theorem stableAt (t : ℕ) : (run ins x t).shell.Stable := by
  rw [shell_run]
  exact h.stable.run h.noReset t

theorem idleAt {t : ℕ} (ht : t ≤ k) : (run ins x t).shell.DmaIdle := by
  rw [shell_run]
  refine h.idle.run h.stable h.noReset fun u hu ↦ ?_
  rw [show (shellIns x ins u).host = (ins u).host from rfl, h.started]
  exact decide_eq_false (by omega)

theorem dmaAt : (run ins x (k + 1)).shell.dma.reader.state = .idle ∧
    (run ins x (k + 1)).shell.dma.writer.state = .idle :=
  (h.idleAt le_rfl).step (h.stableAt k)

theorem startAt (t : ℕ) : (run ins x (t + 1)).shell.regs.dmaStartR = decide (t = k) := by
  rw [← h.started t, run_succ, step, NpuShell.regs_step (h.stableAt t)]
  rfl

theorem dma_succ (t : ℕ) : (run ins x (t + 1)).shell.dma =
    (run ins x t).shell.dma.step (run ins x t).shell.regs.dmaCfg (shellIns x ins t).ext
      ((run ins x t).shell.bufRsp (shellIns x ins t)) :=
  NpuShell.dma_step (h.stableAt t)

theorem notBusyAt {t : ℕ} (ht : t ≤ k + 1) : (run ins x t).shell.dma.dmaBusy = false := by
  rcases Nat.lt_succ_iff_lt_or_eq.mp (Nat.lt_succ_of_le ht) with ht | rfl
  · exact (h.idleAt (by omega)).dmaBusy
  · obtain ⟨hr, hw⟩ := h.dmaAt
    rw [NpuDmaFrontend.dmaBusy, DmaEngine.busy_of_idle hr, DmaEngine.busy_of_idle hw]
    rfl

/-- The engine of the other direction stays idle. -/
theorem otherIdle (t : ℕ) (ht : k + 1 ≤ t) :
    if (cfg x ins k).dir then (run ins x t).shell.dma.reader.state = .idle
    else (run ins x t).shell.dma.writer.state = .idle := by
  induction t, ht using Nat.le_induction with
  | base =>
      obtain ⟨hr, hw⟩ := h.dmaAt
      split
      exacts [hr, hw]
  | succ t ht ih =>
      rw [h.dma_succ t, NpuDmaFrontend.step]
      rcases Nat.lt_or_eq_of_le ht with ht | rfl
      · have hstart : (run ins x t).shell.regs.dmaCfg.start = false := by
          obtain ⟨u, rfl⟩ : ∃ u, t = u + 1 := ⟨t - 1, by omega⟩
          exact (h.startAt u).trans (decide_eq_false (by omega))
        rw [hstart, Bool.false_and, Bool.false_and]
        split at ih <;> simpa [*] using DmaEngine.idle_step ih
      · change if (run ins x (k + 1)).shell.regs.dmaCfg.dir then _ else _
        cases hd : (run ins x (k + 1)).shell.regs.dmaCfg.dir with
        | true => simpa using DmaEngine.idle_step h.dmaAt.1
        | false => simpa using DmaEngine.idle_step h.dmaAt.2

theorem start_eq_false {t : ℕ} (ht : k + 2 ≤ t) :
    (run ins x t).shell.regs.dmaCfg.start = false := by
  obtain ⟨u, rfl⟩ : ∃ u, t = u + 1 := ⟨t - 1, by omega⟩
  exact (h.startAt u).trans (decide_eq_false (by omega))

theorem busy_of_busy_succ {t : ℕ} (ht : k + 2 ≤ t)
    (hb : (run ins x (t + 1)).shell.dma.dmaBusy = true) : (run ins x t).shell.dma.dmaBusy = true := by
  rw [h.dma_succ t, NpuDmaFrontend.step, h.start_eq_false ht] at hb
  simp only [NpuDmaFrontend.dmaBusy, Bool.or_eq_true] at hb ⊢
  exact hb.imp DmaEngine.busy_of_busy_step DmaEngine.busy_of_busy_step

/-- Before the start pulse the external memory is not asked. -/
theorem extBefore {t : ℕ} (ht : t ≤ k + 1) : (run ins x t).ext = x.ext := by
  induction t with
  | zero => rfl
  | succ t ih =>
      have ih := ih (by omega)
      rw [run_succ, step, NpuDmaFrontend.extReq_req_of_not_busy (h.notBusyAt (by omega)), ih]
      exact MemPort.step_idle h.extPending

theorem dmaPortBefore (m : MmioAddr → MmioData) {t : ℕ} (ht : t ≤ k + 1) :
    dmaPort x ins m t = ⟨m, none, []⟩ := by
  induction t with
  | zero => rfl
  | succ t ih =>
      rw [dmaPort, NpuDmaFrontend.bufReq_req_of_not_busy (h.notBusyAt (by omega)), ih (by omega)]
      exact MemPort.step_idle rfl

/-! ### The port of the buffers -/

omit h in
theorem bufPort_of_busy {t : ℕ} (hb : (run ins x t).shell.dma.dmaBusy = true) :
    (run ins x t).shell.bufPort (shellIns x ins t) = (run ins x t).shell.dma.bufReq := by
  rw [NpuShell.bufPort, hb, if_pos rfl]

theorem memSucc (t : ℕ) : (run ins x (t + 1)).shell.mem =
    (run ins x t).shell.mem.step ((run ins x t).shell.bufPort (shellIns x ins t)) (ins t).core.be :=
  NpuShell.mem_step (h.stableAt t)

theorem gnt_eq {t : ℕ} (hb : (run ins x t).shell.dma.dmaBusy = true)
    (hreq : (run ins x t).shell.dma.bufReq.req = true) :
    (locDelay x ins t).gnt = (locate (run ins x t).shell.dma.bufReq.addr).isSome := by
  change NpuMemTop.hostGnt ((run ins x t).shell.bufPort (shellIns x ins t)) (ins t).core.be = _
  rw [bufPort_of_busy hb]
  exact NpuMemTop.hostGnt_eq (h.noBackend t) hreq

/-- A busy cycle changes the buffers by the write granted to the DMA. -/
theorem look_busy {t : ℕ} (hb : (run ins x t).shell.dma.dmaBusy = true)
    (m : MmioAddr → MmioData) :
    ∃ log, (dmaPort x ins m (t + 1)).log = (dmaPort x ins m t).log ++ log ∧
      (run ins x (t + 1)).shell.mem.look =
        WriteLog.replay (run ins x t).shell.mem.look (sramWrites log) := by
  refine ⟨_, rfl, ?_⟩
  rw [h.memSucc t, NpuMemTop.look_step _ (h.noBackend t), bufPort_of_busy hb]
  congr 1
  cases hreq : (run ins x t).shell.dma.bufReq.req with
  | false => simp [HostReq.write?, hreq, sramWrites]
  | true =>
      rw [h.gnt_eq hb hreq]
      cases hl : locate (run ins x t).shell.dma.bufReq.addr <;>
        cases hw : (run ins x t).shell.dma.bufReq.wr <;>
        simp [HostReq.write?, hreq, hw, hl, sramWrites]

/-! ### A transfer from the device only reads the buffers -/

section FromDevice

variable (hdir : (cfg x ins k).dir = true)
include hdir

theorem readerIdle (t : ℕ) : (run ins x t).shell.dma.reader.state = .idle := by
  rcases Nat.lt_or_ge t (k + 1) with ht | ht
  · exact (h.idleAt (by omega)).reader
  · have := h.otherIdle t ht
    rwa [hdir, if_pos rfl] at this

theorem bufReq_fromDevice (t : ℕ) : (run ins x t).shell.dma.bufReq.wr = false ∧
    (run ins x t).shell.dma.bufReq.addr = (run ins x t).shell.dma.writer.rdAddr ∧
    (run ins x t).shell.dma.bufReq.req = (run ins x t).shell.dma.writer.rdReq := by
  have hr := h.readerIdle hdir t
  simp [NpuDmaFrontend.bufReq, DmaEngine.busy_of_idle hr, DmaEngine.wrReq, hr]

theorem dmaPort_mem (m : MmioAddr → MmioData) (t : ℕ) : (dmaPort x ins m t).mem = m := by
  induction t with
  | zero => rfl
  | succ t ih => simp [dmaPort, MemPort.step, (h.bufReq_fromDevice hdir t).1, ih]

theorem sramWrites_fromDevice (m : MmioAddr → MmioData) (t : ℕ) :
    sramWrites (dmaPort x ins m t).log = [] := by
  induction t with
  | zero => rfl
  | succ t ih =>
      have hlog : (dmaPort x ins m (t + 1)).log = (dmaPort x ins m t).log ++
          if (run ins x t).shell.dma.bufReq.req && (locDelay x ins t).gnt then
            [.read (run ins x t).shell.dma.bufReq.addr] else [] := by
        simp [dmaPort, MemPort.step, (h.bufReq_fromDevice hdir t).1]
      rw [hlog, sramWrites, List.flatMap_append, ← sramWrites, ih]
      split <;> rfl

theorem look_of_busy {t : ℕ} (ht : k + 2 ≤ t) (hb : (run ins x t).shell.dma.dmaBusy = true) :
    (run ins x t).shell.mem.look = (run ins x (k + 2)).shell.mem.look := by
  induction t, ht using Nat.le_induction with
  | base => rfl
  | succ t ht ih =>
      have hprev := h.busy_of_busy_succ ht hb
      have hnone : (run ins x t).shell.dma.bufReq.write? = none := by
        simp [HostReq.write?, (h.bufReq_fromDevice hdir t).1]
      rw [h.memSucc t, NpuMemTop.look_step _ (h.noBackend t), bufPort_of_busy hprev, hnone]
      exact ih hprev

/-- The response a writer waits for is that of its own read. -/
theorem owed_of_wait (t : ℕ) (ht : k + 1 ≤ t)
    (hw : (run ins x t).shell.dma.writer.state = .wait) :
    ∃ v, (dmaPort x ins (view (run ins x (k + 2)).shell.mem) t).pending = some v ∧
      ∀ r q, ((run ins x t).shell.mem.hostRsp r q).rvalid = true ∧
        ((run ins x t).shell.mem.hostRsp r q).rdata = v := by
  induction t, ht using Nat.le_induction with
  | base => simp [h.dmaAt.2] at hw
  | succ t ht ih =>
      rw [h.dma_succ t] at hw
      rcases DmaEngine.step_eq_wait hw with ⟨hrd, hgnt⟩ | ⟨hwait, hrv⟩
      · have hb : (run ins x t).shell.dma.dmaBusy = true := by
          simp [NpuDmaFrontend.dmaBusy, DmaEngine.busy, hrd]
        have ht : k + 2 ≤ t := by
          by_contra hlt
          rw [h.notBusyAt (by omega)] at hb
          exact Bool.false_ne_true hb
        obtain ⟨hwr, -, hreq⟩ := h.bufReq_fromDevice hdir t
        replace hreq : (run ins x t).shell.dma.bufReq.req = true := by
          simp [hreq, DmaEngine.rdReq, hrd]
        replace hgnt : (locDelay x ins t).gnt = true := hgnt
        obtain ⟨l, hl⟩ := Option.isSome_iff_exists.mp ((h.gnt_eq hb hreq).symm.trans hgnt)
        have hread : ((run ins x t).shell.bufPort (shellIns x ins t)).read? = some l := by
          rw [bufPort_of_busy hb, HostReq.read?, hreq, hwr]
          exact hl
        refine ⟨(run ins x t).shell.mem.look l, ?_, fun r q ↦ ?_⟩
        · simp only [dmaPort, MemPort.step, hreq, hgnt, hwr, h.dmaPort_mem hdir]
          rw [h.look_of_busy hdir ht hb]
          simp [view, hl]
        · rw [h.memSucc t]
          refine ⟨?_, NpuMemTop.rdata_step _ (h.noBackend t) hread r q⟩
          rw [NpuMemTop.rvalid_step _ (h.noBackend t), hread]
          rfl
      · obtain ⟨v, -, hrsp⟩ := ih hwait
        exact absurd (hrv.symm.trans (hrsp _ _).1) Bool.false_ne_true

end FromDevice

/-! ### The transfer as a run of `DmaSys` -/

theorem owed (t : ℕ) (ht : k + 1 ≤ t) (hw : (run ins x t).shell.dma.writer.state = .wait) :
    ∃ v, (dmaPort x ins (view (run ins x (k + 2)).shell.mem) t).pending = some v ∧
      ∀ r q, ((run ins x t).shell.mem.hostRsp r q).rvalid = true ∧
        ((run ins x t).shell.mem.hostRsp r q).rdata = v := by
  cases hdir : (cfg x ins k).dir with
  | true => exact h.owed_of_wait hdir t ht hw
  | false =>
      have hidle := h.otherIdle t ht
      rw [hdir, if_neg Bool.false_ne_true, hw] at hidle
      exact absurd hidle (by decide)

theorem dmaSys_succ (t : ℕ) :
    dmaSys x ins k (t + 1) = (dmaSys x ins k t).step (dmaIns x ins k t) := by
  have hport : (dmaSys x ins k t).loc.rvalid (locDelay x ins (k + 1 + t)) =
      (dmaSys x ins k t).loc.pending.isSome := by
    rw [MemPort.rvalid]
    exact Bool.and_true _
  have hdma : (run ins x (k + 1 + (t + 1))).shell.dma =
      (dmaSys x ins k t).front.step (dmaIns x ins k t).cfg
        ((dmaSys x ins k t).extRsp (dmaIns x ins k t))
        ((dmaSys x ins k t).bufRsp (dmaIns x ins k t)) := by
    refine (h.dma_succ (k + 1 + t)).trans (NpuDmaFrontend.step_congr rfl fun hw ↦ ?_)
    obtain ⟨v, hv, hrsp⟩ := h.owed (k + 1 + t) (Nat.le_add_right _ _) hw
    have hsome : (dmaSys x ins k t).loc.pending = some v := hv
    have hvalid : (dmaSys x ins k t).loc.rvalid (locDelay x ins (k + 1 + t)) = true := by
      rw [hport, hsome]
      rfl
    refine ⟨(hrsp _ _).1.trans hvalid.symm, fun _ ↦ (hrsp _ _).2.trans ?_⟩
    change v = (dmaSys x ins k t).loc.rdata (locDelay x ins (k + 1 + t))
    rw [MemPort.rdata, hvalid, if_pos rfl, hsome]
    rfl
  rw [DmaSys.step, ← hdma]
  rfl

theorem dmaSys_run (t : ℕ) :
    dmaSys x ins k t = DmaSys.run (dmaIns x ins k) (dmaSys x ins k 0) t := by
  induction t with
  | zero => rfl
  | succ t ih => rw [h.dmaSys_succ, DmaSys.run_succ, ← ih]

theorem dmaSys_idle : (dmaSys x ins k 0).Idle where
  reader := h.dmaAt.1
  writer := h.dmaAt.2
  extPending := by
    change (run ins x (k + 1)).ext.pending = none
    rw [h.extBefore le_rfl]
    exact h.extPending
  locPending := by
    change (dmaPort x ins _ (k + 1)).pending = none
    rw [h.dmaPortBefore _ le_rfl]
  extLog := by
    change (run ins x (k + 1)).ext.log = []
    rw [h.extBefore le_rfl]
    exact h.extLog
  locLog := by
    change (dmaPort x ins _ (k + 1)).log = []
    rw [h.dmaPortBefore _ le_rfl]

theorem dmaIns_start (t : ℕ) : (dmaIns x ins k t).cfg.start = decide (t = 0) := by
  cases t with
  | zero => exact (h.startAt k).trans (decide_eq_true rfl)
  | succ t => exact h.start_eq_false (t := k + 1 + (t + 1)) (by omega)

/-- The reader follows the phases of a copy to the buffers. -/
theorem reader_at (hdir : (cfg x ins k).dir = false) (hlen : 0 < (cfg x ins k).len.toNat) (t : ℕ) :
    Copier.At (DmaSys.readJob (cfg x ins k)) x.ext.mem (view (run ins x (k + 2)).shell.mem)
      (Copier.phases (cfg x ins k).len.toNat (fun t ↦ (ins (k + 1 + t)).ext)
        (fun t ↦ locDelay x ins (k + 1 + t)) t)
      (dmaSys x ins k (t + 1)).readCopier := by
  have hrun := DmaSys.readCopier_run h.dmaSys_idle h.dmaIns_start hdir
  have hat := DmaSys.at_run (y := fun t ↦ (dmaSys x ins k t).readCopier)
    (fun t ↦ by rw [h.dmaSys_run (t + 1), h.dmaSys_run t]; exact (hrun t).2)
    h.dmaSys_idle.reader h.dmaSys_idle.extPending h.dmaSys_idle.extLog h.dmaSys_idle.locLog hlen t
  have hext : (dmaSys x ins k 0).readCopier.src.mem = x.ext.mem := by
    change (run ins x (k + 1)).ext.mem = _
    rw [h.extBefore le_rfl]
  have hloc : (dmaSys x ins k 0).readCopier.dst.mem = view (run ins x (k + 2)).shell.mem := by
    change (dmaPort x ins _ (k + 1)).mem = _
    rw [h.dmaPortBefore _ le_rfl]
  rw [hext, hloc] at hat
  exact hat

/-- The writer follows the phases of a copy from the buffers. -/
theorem writer_at (hdir : (cfg x ins k).dir = true) (hlen : 0 < (cfg x ins k).len.toNat) (t : ℕ) :
    Copier.At (DmaSys.writeJob (cfg x ins k)) (view (run ins x (k + 2)).shell.mem) x.ext.mem
      (Copier.phases (cfg x ins k).len.toNat (fun t ↦ locDelay x ins (k + 1 + t))
        (fun t ↦ (ins (k + 1 + t)).ext) t)
      (dmaSys x ins k (t + 1)).writeCopier := by
  have hrun := DmaSys.writeCopier_run h.dmaSys_idle h.dmaIns_start hdir
  have hat := DmaSys.at_run (y := fun t ↦ (dmaSys x ins k t).writeCopier)
    (fun t ↦ by rw [h.dmaSys_run (t + 1), h.dmaSys_run t]; exact (hrun t).2)
    h.dmaSys_idle.writer h.dmaSys_idle.locPending h.dmaSys_idle.locLog h.dmaSys_idle.extLog hlen t
  have hext : (dmaSys x ins k 0).writeCopier.dst.mem = x.ext.mem := by
    change (run ins x (k + 1)).ext.mem = _
    rw [h.extBefore le_rfl]
  have hloc : (dmaSys x ins k 0).writeCopier.src.mem = view (run ins x (k + 2)).shell.mem := by
    change (dmaPort x ins _ (k + 1)).mem = _
    rw [h.dmaPortBefore _ le_rfl]
  rw [hext, hloc] at hat
  exact hat

/-! ### Once the busy bit has fallen -/

theorem toDevice_moved (hdir : (cfg x ins k).dir = false) (hlen : 0 < (cfg x ins k).len.toNat)
    {t : ℕ} (ht : k + 2 ≤ t) (hb : (run ins x t).shell.dma.dmaBusy = false) :
    (run ins x t).ext.log = (DmaSys.readJob (cfg x ins k)).reads (cfg x ins k).len.toNat ∧
      (dmaPort x ins (view (run ins x (k + 2)).shell.mem) t).log =
        (DmaSys.readJob (cfg x ins k)).writes x.ext.mem (cfg x ins k).len.toNat ∧
      (run ins x t).ext.mem = x.ext.mem := by
  obtain ⟨u, rfl⟩ : ∃ u, t = k + 1 + (u + 1) := ⟨t - (k + 2), by omega⟩
  have hat := h.reader_at hdir hlen u
  have hmoved := hat.moved_of_not_busy (Bool.or_eq_false_iff.mp hb).1 (cfg x ins k).len.toNat
  refine ⟨hat.srcLog.trans ?_, hat.dstLog.trans ?_, hat.srcMem⟩ <;>
    rw [show (DmaSys.readJob (cfg x ins k)).len = (cfg x ins k).len from rfl, hmoved]

theorem fromDevice_moved (hdir : (cfg x ins k).dir = true) (hlen : 0 < (cfg x ins k).len.toNat)
    {t : ℕ} (ht : k + 2 ≤ t) (hb : (run ins x t).shell.dma.dmaBusy = false) :
    (dmaPort x ins (view (run ins x (k + 2)).shell.mem) t).log =
        (DmaSys.writeJob (cfg x ins k)).reads (cfg x ins k).len.toNat ∧
      (run ins x t).ext.log = (DmaSys.writeJob (cfg x ins k)).writes
        (view (run ins x (k + 2)).shell.mem) (cfg x ins k).len.toNat ∧
      (run ins x t).ext.mem = (DmaSys.writeJob (cfg x ins k)).written
        (view (run ins x (k + 2)).shell.mem) x.ext.mem (cfg x ins k).len.toNat := by
  obtain ⟨u, rfl⟩ : ∃ u, t = k + 1 + (u + 1) := ⟨t - (k + 2), by omega⟩
  have hat := h.writer_at hdir hlen u
  have hmoved := hat.moved_of_not_busy (Bool.or_eq_false_iff.mp hb).2 (cfg x ins k).len.toNat
  refine ⟨hat.srcLog.trans ?_, hat.dstLog.trans ?_, hat.dstMem.trans ?_⟩ <;>
    rw [show (DmaSys.writeJob (cfg x ins k)).len = (cfg x ins k).len from rfl, hmoved]

/-- The buffers grant only what selects an entry. -/
theorem located (m : MmioAddr → MmioData) (t : ℕ) :
    ∀ acc ∈ (dmaPort x ins m t).log, (locate acc.addr).isSome = true := by
  induction t with
  | zero => exact fun acc hacc ↦ absurd hacc List.not_mem_nil
  | succ t ih =>
      intro acc hacc
      rcases List.mem_append.mp hacc with hacc | hacc
      · exact ih acc hacc
      · split at hacc
        · next hg =>
            rw [Bool.and_eq_true] at hg
            have hb : (run ins x t).shell.dma.dmaBusy = true := by
              by_contra hne
              rw [NpuDmaFrontend.bufReq_req_of_not_busy (Bool.eq_false_iff.mpr hne)] at hg
              exact Bool.false_ne_true hg.1
            have hsome := (h.gnt_eq hb hg.1).symm.trans hg.2
            obtain rfl := List.mem_singleton.mp hacc
            split <;> exact hsome
        · exact absurd hacc List.not_mem_nil

/-- While the host stays away from the buffers they change by the DMA alone. -/
theorem look_quiet (m : MmioAddr → MmioData) (hhost : ∀ t, (ins t).host.bufReq.req = false) (t : ℕ) :
    (run ins x t).shell.mem.look =
      WriteLog.replay x.shell.mem.look (sramWrites (dmaPort x ins m t).log) := by
  induction t with
  | zero => rfl
  | succ t ih =>
      cases hb : (run ins x t).shell.dma.dmaBusy with
      | true =>
          obtain ⟨log, hlog, hlook⟩ := h.look_busy hb m
          rw [hlook, hlog, ih, ← WriteLog.replay_append, sramWrites, sramWrites, sramWrites,
            List.flatMap_append]
      | false =>
          have hport : (run ins x t).shell.bufPort (shellIns x ins t) = (ins t).host.bufReq := by
            rw [NpuShell.bufPort, hb, if_neg Bool.false_ne_true]
            rfl
          have hlog : (dmaPort x ins m (t + 1)).log = (dmaPort x ins m t).log := by
            simp [dmaPort, MemPort.step, NpuDmaFrontend.bufReq_req_of_not_busy hb]
          have hnone : (ins t).host.bufReq.write? = none := by simp [HostReq.write?, hhost t]
          rw [h.memSucc t, NpuMemTop.look_step _ (h.noBackend t), hport, hlog, hnone]
          exact ih

end OneTransfer

end ShellSys

end LgNpu
