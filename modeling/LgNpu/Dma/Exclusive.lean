import LgNpu.Host.Shell
import LgNpu.Dma.Transfer

/-!
# One direction at a time

Nothing between `DMA_CTRL` and the engines looks at `busy`: a start pulse is
taken by the engine of its direction whenever that one is idle.  A transfer is
followed here from its start under arbitrary host accesses, next to the other
engine, on the ports that both of them share.
-/

namespace LgNpu

/-- The access that a port grants in one cycle. -/
def granted {a : ℕ} (addr : BitVec a) (wdata : MmioData) (wr req gnt : Bool) : List (Access a) :=
  if req && gnt then [if wr then .write addr wdata else .read addr] else []

/-- A transfer since its start: the programmed job, the accesses granted on the
two ports while it runs, and the data it has taken. -/
structure Course (a b : ℕ) where
  job : CopyJob a b
  src : List (Access a)
  dst : List (Access b)
  got : List MmioData

namespace Course

variable {a b : ℕ}

def start (j : CopyJob a b) : Course a b := ⟨j, [], [], []⟩

/-- One cycle, with what the two ports grant in it. -/
def step (c : Course a b) (e : DmaEngine a b) (start : Bool) (j : CopyJob a b)
    (src : List (Access a)) (dst : List (Access b)) (rdata : MmioData) (rvalid : Bool) :
    Course a b :=
  if e.state = .idle && start then .start j
  else if e.busy then
    { c with
      src := c.src ++ src
      dst := c.dst ++ dst
      got := c.got ++ if e.state = .wait && rvalid then [rdata] else [] }
  else c

/-- The job has one byte when its length is 0. -/
def bytes (c : Course a b) : ℕ := max 1 c.job.len.toNat

/-- Byte `j` of those taken, at its place in the destination. -/
def writes (c : Course a b) (k : ℕ) : List (Access b) :=
  (List.range k).map fun j ↦ .write (c.job.dstAt j) (c.got.getD j 0)

theorem writes_succ (c : Course a b) (k : ℕ) :
    c.writes (k + 1) = c.writes k ++ [.write (c.job.dstAt k) (c.got.getD k 0)] := by
  simp [writes, List.range_succ]

theorem writes_concat (c : Course a b) (v : MmioData) :
    { c with got := c.got ++ [v] }.writes c.got.length = c.writes c.got.length := by
  refine List.map_congr_left fun i hi ↦ ?_
  rw [List.getD_eq_getElem?_getD, List.getElem?_append_left (List.mem_range.mp hi),
    List.getD_eq_getElem?_getD]

end Course

namespace DmaEngine

variable {a b : ℕ}

/-- The engine works on byte `k` of its course. -/
structure Carries (e : DmaEngine a b) (c : Course a b) (k : ℕ) : Prop where
  len : e.lenR = c.job.len
  src : e.srcAddrR = c.job.srcAt k
  dst : e.dstAddrR = c.job.dstAt k
  cnt : e.cntR = .ofNat 16 k
  more : e.busy = true → k < c.bytes
  all : e.state = .done → k = c.bytes
  reads : c.src = c.job.reads (k + (decide (e.state = .wait) || decide (e.state = .wr)).toNat)
  writes : c.dst = c.writes k
  got : c.got.length = k + (decide (e.state = .wr)).toNat
  data : e.state = .wr → e.dataR = c.got.getD k 0

/-- An engine that is not idle is on its course. -/
def OnCourse (e : DmaEngine a b) (c : Course a b) : Prop := e.state ≠ .idle → ∃ k, e.Carries c k

/-- The last byte is granted in this cycle. -/
def finishes (e : DmaEngine a b) (wrGnt : Bool) : Bool := e.state = .wr && e.lastByte && wrGnt

section Step

variable {e : DmaEngine a b} {c : Course a b} {start rdGnt rvalid wrGnt : Bool} {rdata : MmioData}
  {j : CopyJob a b}

theorem busy_step (src : BitVec a) (dst : BitVec b) (len : BitVec 16) :
    (e.step start src dst len rdGnt rdata rvalid wrGnt).busy =
      ((e.state = .idle && start) || (e.busy && !e.finishes wrGnt)) := by
  cases hst : e.state with
  | idle => cases start <;> simp [step, busy, finishes, hst]
  | rd => cases rdGnt <;> simp [step, busy, finishes, hst]
  | wait => cases rvalid <;> simp [step, busy, finishes, hst]
  | wr => cases wrGnt <;> cases hl : e.lastByte <;> simp [step, busy, finishes, hst, hl]
  | done => simp [step, busy, finishes, hst]

theorem carries_start (hst : e.state = .idle) :
    (e.step true j.src j.dst j.len rdGnt rdata rvalid wrGnt).Carries (.start j) 0 := by
  constructor <;>
    simp [step, hst, Course.start, Course.bytes, Course.writes, CopyJob.srcAt, CopyJob.dstAt,
      CopyJob.reads]

theorem Carries.lastByte_iff {k : ℕ} (h : e.Carries c k) (hb : e.busy = true) :
    e.lastByte = decide (k + 1 = c.bytes) := by
  have hlt := h.more hb
  have hmax := c.job.len.isLt
  rw [Course.bytes] at hlt ⊢
  have hsum : (e.cntR + 1).toNat = k + 1 := by
    rw [h.cnt, toNat_add_one] <;> rw [BitVec.toNat_ofNat, Nat.mod_eq_of_lt (by omega)]
    omega
  rw [DmaEngine.lastByte, BitVec.ult_eq_decide, hsum, h.len, Bool.eq_iff_iff]
  simp only [Bool.not_eq_true', decide_eq_false_iff_not, decide_eq_true_eq]
  omega

theorem Carries.step {k : ℕ} (h : e.Carries c k) (hb : e.busy = true) :
    (e.step start j.src j.dst j.len rdGnt rdata rvalid wrGnt).OnCourse
      (c.step e start j (granted e.rdAddr 0 false e.rdReq rdGnt)
        (granted e.wrAddr e.wrData e.wrReq e.wrReq wrGnt) rdata rvalid) := by
  intro _
  have hreads := h.reads
  have hgot := h.got
  cases hst : e.state with
  | idle => simp [busy, hst] at hb
  | rd =>
      simp only [hst] at hreads hgot
      have hcourse : c.step e start j (granted e.rdAddr 0 false e.rdReq rdGnt)
          (granted e.wrAddr e.wrData e.wrReq e.wrReq wrGnt) rdata rvalid =
            { c with src := c.src ++ if rdGnt then [.read (c.job.srcAt k)] else [] } := by
        simp [Course.step, hst, busy, granted, rdReq, rdAddr, wrReq, h.src]
      rw [hcourse]
      cases rdGnt with
      | false => exact ⟨k, by simpa [DmaEngine.step, hst] using h⟩
      | true =>
          have hengine : e.step start j.src j.dst j.len true rdata rvalid wrGnt =
              { e with state := .wait } := by
            simp [DmaEngine.step, hst]
          rw [hengine]
          refine ⟨k, h.len, h.src, h.dst, h.cnt, fun _ ↦ h.more hb, (DmaState.noConfusion ·),
            ?_, h.writes, hgot, (DmaState.noConfusion ·)⟩
          change c.src ++ [.read (c.job.srcAt k)] = _
          rw [hreads]
          exact (c.job.reads_succ k).symm
  | wait =>
      simp only [hst] at hreads hgot
      have hcourse : c.step e start j (granted e.rdAddr 0 false e.rdReq rdGnt)
          (granted e.wrAddr e.wrData e.wrReq e.wrReq wrGnt) rdata rvalid =
            { c with got := c.got ++ if rvalid then [rdata] else [] } := by
        simp [Course.step, hst, busy, granted, rdReq, wrReq]
      rw [hcourse]
      cases rvalid with
      | false => exact ⟨k, by simpa [DmaEngine.step, hst] using h⟩
      | true =>
          have hengine : e.step start j.src j.dst j.len rdGnt rdata true wrGnt =
              { e with state := .wr, dataR := rdata } := by
            simp [DmaEngine.step, hst]
          rw [hengine]
          have hlen : c.got.length = k := by simpa using hgot
          refine ⟨k, h.len, h.src, h.dst, h.cnt, fun _ ↦ h.more hb, (DmaState.noConfusion ·),
            hreads, ?_, ?_, fun _ ↦ ?_⟩
          · rw [h.writes, ← hlen]
            exact (c.writes_concat rdata).symm
          · simp [hlen]
          · simp [← hlen]
  | wr =>
      simp only [hst] at hreads hgot
      have hcourse : c.step e start j (granted e.rdAddr 0 false e.rdReq rdGnt)
          (granted e.wrAddr e.wrData e.wrReq e.wrReq wrGnt) rdata rvalid =
            { c with
              dst := c.dst ++
                if wrGnt then [.write (c.job.dstAt k) (c.got.getD k 0)] else [] } := by
        simp [Course.step, hst, busy, granted, rdReq, wrReq, wrAddr, wrData, h.dst, h.data hst]
      rw [hcourse]
      cases wrGnt with
      | false => exact ⟨k, by simpa [DmaEngine.step, hst] using h⟩
      | true =>
          have hlt := h.more hb
          have hengine : e.step start j.src j.dst j.len rdGnt rdata rvalid true =
              { e with
                state := if k + 1 = c.bytes then .done else .rd
                cntR := e.cntR + 1
                srcAddrR := e.srcAddrR + 1
                dstAddrR := e.dstAddrR + 1 } := by
            simp [DmaEngine.step, hst, h.lastByte_iff hb]
          rw [hengine]
          have hmoves : (if k + 1 = c.bytes then DmaState.done else .rd) ≠ .wait ∧
              (if k + 1 = c.bytes then DmaState.done else .rd) ≠ .wr := by
            split <;> decide
          refine ⟨k + 1, h.len, ?_, ?_, ?_, fun hb' ↦ ?_, fun hd ↦ ?_, ?_, ?_, ?_, ?_⟩
          · exact (congrArg (· + 1) h.src).trans (c.job.srcAt_succ k)
          · exact (congrArg (· + 1) h.dst).trans (c.job.dstAt_succ k)
          · change e.cntR + 1 = _
            rw [h.cnt, BitVec.ofNat_add]
            rfl
          · have hne : k + 1 ≠ c.bytes := fun heq ↦ by simp [busy, heq] at hb'
            exact Nat.lt_of_le_of_ne hlt hne
          · by_contra hne
            exact absurd ((if_neg hne).symm.trans hd) (by decide)
          · simpa [hmoves] using hreads
          · change c.dst ++ [.write (c.job.dstAt k) (c.got.getD k 0)] = _
            rw [h.writes]
            exact (c.writes_succ k).symm
          · simpa [hmoves] using hgot
          · exact fun hw ↦ absurd hw hmoves.2
  | done => simp [busy, hst] at hb

/-- An engine whose own accesses are the ones granted stays on its course. -/
theorem OnCourse.step {src : List (Access a)} {dst : List (Access b)} (h : e.OnCourse c)
    (hports : e.busy = true → src = granted e.rdAddr 0 false e.rdReq rdGnt ∧
      dst = granted e.wrAddr e.wrData e.wrReq e.wrReq wrGnt) :
    (e.step start j.src j.dst j.len rdGnt rdata rvalid wrGnt).OnCourse
      (c.step e start j src dst rdata rvalid) := by
  cases hb : e.busy with
  | true =>
      obtain ⟨rfl, rfl⟩ := hports hb
      obtain ⟨k, hk⟩ := h fun hst ↦ by simp [busy_of_idle hst] at hb
      exact hk.step hb
  | false =>
      cases hst : e.state with
      | idle =>
          cases start with
          | false => exact fun hne ↦ by simp [DmaEngine.step, hst] at hne
          | true =>
              rw [Course.step, hst]
              exact fun _ ↦ ⟨0, carries_start hst⟩
      | done => exact fun hne ↦ absurd hne (by simp [DmaEngine.step, hst])
      | rd => simp [busy, hst] at hb
      | wait => simp [busy, hst] at hb
      | wr => simp [busy, hst] at hb

end Step

end DmaEngine

/-! ## The shared ports -/

namespace NpuDmaFrontend

variable {s : NpuDmaFrontend}

def extGranted (s : NpuDmaFrontend) (gnt : Bool) : List (Access 32) :=
  granted s.extReq.addr s.extReq.wdata s.extReq.wr s.extReq.req gnt

theorem extGranted_of_reader (h : s.writer.busy = false) (hb : s.reader.busy = true) (gnt : Bool) :
    s.extGranted gnt = granted s.reader.rdAddr 0 false s.reader.rdReq gnt := by
  simp [extGranted, extReq, h, hb]

theorem extGranted_of_writer (h : s.reader.busy = false) (hb : s.writer.busy = true) (gnt : Bool) :
    s.extGranted gnt =
      granted s.writer.wrAddr s.writer.wrData s.writer.wrReq s.writer.wrReq gnt := by
  simp [extGranted, extReq, h, hb]

end NpuDmaFrontend

namespace NpuShell

variable (s : NpuShell) (i : ShellIn)

/-- The access that the buffers grant, to the DMA or to the host. -/
def bufGranted : List (Access 20) :=
  granted (s.bufPort i).addr (s.bufPort i).wdata (s.bufPort i).wr (s.bufPort i).req (s.bufRsp i).gnt

variable {s}

theorem bufGranted_of_reader (h : s.dma.writer.busy = false) (hb : s.dma.reader.busy = true) :
    s.bufGranted i = granted s.dma.reader.wrAddr s.dma.reader.wrData s.dma.reader.wrReq
      s.dma.reader.wrReq (s.bufRsp i).gnt := by
  have hrd : s.dma.writer.rdReq = false := by
    cases hst : s.dma.writer.state <;> simp [DmaEngine.busy, DmaEngine.rdReq, hst] at h ⊢
  simp [bufGranted, bufPort, NpuDmaFrontend.dmaBusy, NpuDmaFrontend.bufReq, hb, hrd]

theorem bufGranted_of_writer (h : s.dma.reader.busy = false) (hb : s.dma.writer.busy = true) :
    s.bufGranted i =
      granted s.dma.writer.rdAddr 0 false s.dma.writer.rdReq (s.bufRsp i).gnt := by
  have hwr : s.dma.reader.wrReq = false := by
    cases hst : s.dma.reader.state <;> simp [DmaEngine.busy, DmaEngine.wrReq, hst] at h ⊢
  have hdata : s.dma.reader.wrData = 0 := by
    cases hst : s.dma.reader.state <;> simp [DmaEngine.busy, DmaEngine.wrData, hst] at h ⊢
  simp [bufGranted, bufPort, NpuDmaFrontend.dmaBusy, NpuDmaFrontend.bufReq, h, hb, hwr, hdata]

/-! ## Runs -/

/-- The courses of the two engines. -/
structure Courses where
  reader : Course 32 20
  writer : Course 20 32

/-- What the registers hold at the start pulse is programmed. -/
def Courses.step (c : Courses) (s : NpuShell) (i : ShellIn) : Courses :=
  let cfg := s.regs.dmaCfg
  { reader := c.reader.step s.dma.reader (cfg.start && !cfg.dir) ⟨cfg.extAddr, cfg.locAddr, cfg.len⟩
      (s.dma.extGranted i.ext.gnt) (s.bufGranted i) i.ext.rdata i.ext.rvalid
    writer := c.writer.step s.dma.writer (cfg.start && cfg.dir) ⟨cfg.locAddr, cfg.extAddr, cfg.len⟩
      (s.bufGranted i) (s.dma.extGranted i.ext.gnt) (s.bufRsp i).rdata (s.bufRsp i).rvalid }

def courses (ins : ℕ → ShellIn) (s : NpuShell) : ℕ → Courses
  | 0 => ⟨.start ⟨0, 0, 0⟩, .start ⟨0, 0, 0⟩⟩
  | t + 1 => (courses ins s t).step (run ins s t) (ins t)

/-- One engine at most runs, and each one keeps its addresses, its length and
its direction and puts every byte where it was programmed. -/
structure Exclusive (c : Courses) (s : NpuShell) : Prop where
  single : ¬(s.dma.reader.busy = true ∧ s.dma.writer.busy = true)
  reader : s.dma.reader.OnCourse c.reader
  writer : s.dma.writer.OnCourse c.writer

/-- A start pulse that is taken finds the other engine idle or granted its last
byte. -/
structure StartsAlone (s : NpuShell) (i : ShellIn) : Prop where
  reader : s.resetting = false → s.regs.dmaStartR = true → s.regs.dmaDirR = false →
    s.dma.reader.state = .idle → s.dma.writer.busy = true → s.dma.writer.finishes i.ext.gnt = true
  writer : s.resetting = false → s.regs.dmaStartR = true → s.regs.dmaDirR = true →
    s.dma.writer.state = .idle → s.dma.reader.busy = true →
      s.dma.reader.finishes (s.bufRsp i).gnt = true

section Step

variable {i} {c : Courses}

theorem dma_step_eq (i : ShellIn) (hr : s.resetting = false) :
    (s.step i).dma = s.dma.step s.regs.dmaCfg i.ext (s.bufRsp i) :=
  if_neg (Bool.eq_false_iff.mp hr)

theorem dma_step_resetting (i : ShellIn) (hr : s.resetting = true) : (s.step i).dma = .reset :=
  if_pos hr

/-- Both engines run in the next cycle exactly when a start is taken next to a
transfer that goes on. -/
theorem single_step (h : ¬(s.dma.reader.busy = true ∧ s.dma.writer.busy = true)) :
    ¬((s.step i).dma.reader.busy = true ∧ (s.step i).dma.writer.busy = true) ↔ s.StartsAlone i := by
  cases hr : s.resetting with
  | true =>
      rw [dma_step_resetting i hr]
      refine iff_of_true (by decide) ⟨fun h' ↦ ?_, fun h' ↦ ?_⟩ <;> simp [hr] at h'
  | false =>
      have hridle : s.dma.reader.state = .idle → s.dma.reader.busy = false :=
        DmaEngine.busy_of_idle
      have hwidle : s.dma.writer.state = .idle → s.dma.writer.busy = false :=
        DmaEngine.busy_of_idle
      rw [dma_step_eq i hr, NpuDmaFrontend.step, DmaEngine.busy_step, DmaEngine.busy_step]
      simp only [NpuCtrlRegs.dmaCfg, Bool.or_eq_true, Bool.and_eq_true, decide_eq_true_eq,
        Bool.not_eq_true']
      constructor
      · intro hnot
        refine ⟨fun _ hs hd hidle hb ↦ ?_, fun _ hs hd hidle hb ↦ ?_⟩
        · by_contra hf
          exact hnot ⟨.inl ⟨hidle, hs, hd⟩, .inr ⟨hb, Bool.eq_false_iff.mpr hf⟩⟩
        · by_contra hf
          exact hnot ⟨.inr ⟨hb, Bool.eq_false_iff.mpr hf⟩, .inl ⟨hidle, hs, hd⟩⟩
      · rintro ⟨hreader, hwriter⟩ ⟨⟨hidle, hs, hd⟩ | ⟨hb, hf⟩, ⟨hidle', hs', hd'⟩ | ⟨hb', hf'⟩⟩
        · exact Bool.false_ne_true (hd.symm.trans hd')
        · exact Bool.false_ne_true (hf'.symm.trans (hreader hr hs hd hidle hb'))
        · exact Bool.false_ne_true (hf.symm.trans (hwriter hr hs' hd' hidle' hb))
        · exact h ⟨hb, hb'⟩

/-- A transfer that runs alone has the shared ports for itself. -/
theorem Exclusive.step (h : Exclusive c s) (hs : s.StartsAlone i) :
    Exclusive (c.step s i) (s.step i) := by
  have hsingle := (single_step h.single).mpr hs
  cases hr : s.resetting with
  | true =>
      rw [dma_step_resetting i hr] at hsingle
      refine ⟨?_, ?_, ?_⟩ <;> rw [dma_step_resetting i hr]
      · exact hsingle
      · exact fun hne ↦ absurd rfl hne
      · exact fun hne ↦ absurd rfl hne
  | false =>
      rw [dma_step_eq i hr] at hsingle
      refine ⟨?_, ?_, ?_⟩ <;> rw [dma_step_eq i hr]
      · exact hsingle
      · refine h.reader.step (j := ⟨s.regs.dmaExtAddrR, s.regs.dmaLocAddrR, s.regs.dmaLenR⟩)
          fun hb ↦ ?_
        have hidle : s.dma.writer.busy = false :=
          Bool.eq_false_iff.mpr fun hw ↦ h.single ⟨hb, hw⟩
        exact ⟨s.dma.extGranted_of_reader hidle hb _, s.bufGranted_of_reader i hidle hb⟩
      · refine h.writer.step (j := ⟨s.regs.dmaLocAddrR, s.regs.dmaExtAddrR, s.regs.dmaLenR⟩)
          fun hb ↦ ?_
        have hidle : s.dma.reader.busy = false :=
          Bool.eq_false_iff.mpr fun hrd ↦ h.single ⟨hrd, hb⟩
        exact ⟨s.bufGranted_of_writer i hidle hb, s.dma.extGranted_of_writer hidle hb _⟩

/-- The writer stays idle while the host asks for the other direction. -/
theorem writer_idle_step (i : ShellIn) (hidle : s.dma.writer.state = .idle)
    (hdir : s.regs.dmaDirR = false)
    (hm : i.host.writesReg regDmaCtrl = true → i.host.wdata.getLsbD 1 = false) :
    (s.step i).dma.writer.state = .idle ∧ (s.step i).regs.dmaDirR = false := by
  have hregs : (s.step i).regs = if s.resetting then .reset else s.regs.step i.host := rfl
  rw [hregs]
  cases hr : s.resetting with
  | true =>
      rw [dma_step_resetting i hr]
      exact ⟨rfl, rfl⟩
  | false =>
      rw [dma_step_eq i hr]
      refine ⟨?_, ?_⟩
      · simp [NpuDmaFrontend.step, DmaEngine.step, NpuCtrlRegs.dmaCfg, hidle, hdir]
      · change (if i.host.writesReg regDmaCtrl then _ else s.regs.dmaDirR) = false
        split
        · next hw => exact hm hw
        · exact hdir

end Step

section Run

variable {ins : ℕ → ShellIn}

/-- The directions exclude each other, in every cycle of a run, exactly when no
start is taken next to a transfer that goes on. -/
theorem dma_exclusive (hs : s.dma = .reset) :
    (∀ t, Exclusive (courses ins s t) (run ins s t)) ↔
      ∀ t, (run ins s t).StartsAlone (ins t) := by
  constructor
  · exact fun h t ↦ (single_step (h t).single).mp (h (t + 1)).single
  · intro h t
    induction t with
    | zero =>
        have hdma : (run ins s 0).dma = .reset := hs
        refine ⟨?_, ?_, ?_⟩ <;> rw [hdma]
        · decide
        · exact fun hne ↦ absurd rfl hne
        · exact fun hne ↦ absurd rfl hne
    | succ t ih => exact ih.step (h t)

/-- Starts of one direction in every cycle. -/
def sameDirection (_ : ℕ) : ShellIn := ⟨.write regDmaCtrl 1, ⟨true, 7, true⟩, .idle⟩

theorem writer_idle_sameDirection (t : ℕ) :
    (run sameDirection (reset (fun _ ↦ 0) fun _ ↦ 0) t).dma.writer.state = .idle ∧
      (run sameDirection (reset (fun _ ↦ 0) fun _ ↦ 0) t).regs.dmaDirR = false := by
  induction t with
  | zero => exact ⟨rfl, rfl⟩
  | succ t ih =>
      refine writer_idle_step (sameDirection t) ih.1 ih.2 fun _ ↦ ?_
      simp [sameDirection, Mmio.write]

theorem dma_exclusive_sameDirection :
    (run sameDirection (reset (fun _ ↦ 0) fun _ ↦ 0) 3).dma.reader.busy = true ∧
      ∀ t, Exclusive (courses sameDirection (reset (fun _ ↦ 0) fun _ ↦ 0) t)
        (run sameDirection (reset (fun _ ↦ 0) fun _ ↦ 0) t) := by
  refine ⟨by decide +kernel, (dma_exclusive rfl).mpr fun t ↦ ?_⟩
  obtain ⟨hidle, hdir⟩ := writer_idle_sameDirection t
  refine ⟨fun _ _ _ _ hb ↦ ?_, fun _ _ hd ↦ ?_⟩
  · rw [DmaEngine.busy_of_idle hidle] at hb
    cases hb
  · rw [hdir] at hd
    cases hd

/-- `DMA_CTRL` is written with both directions in turn; the external memory
grants nothing. -/
def bothDirections (t : ℕ) : ShellIn :=
  ⟨([.write regDmaCtrl 1, .write regDmaCtrl 3] : List Mmio).getD t .idle, ⟨false, 0, false⟩, .idle⟩

theorem not_exclusive_bothDirections :
    ¬∀ t, Exclusive (courses bothDirections (reset (fun _ ↦ 0) fun _ ↦ 0) t)
      (run bothDirections (reset (fun _ ↦ 0) fun _ ↦ 0) t) :=
  fun h ↦ (h 3).single (by decide +kernel)

end Run

end NpuShell

end LgNpu
