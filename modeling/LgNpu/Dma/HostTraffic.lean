import LgNpu.Dma.Driver
import LgNpu.Host.Bus

/-!
# Host accesses during a transfer

The shell switches the requests of the buffer port between the host and the
DMA, but both see every grant and every response.  The DMA is not disturbed by
the host; the host is answered in the DMA's place when its access is pending in
a cycle in which the DMA is granted or answered.
-/

namespace LgNpu

namespace ShellSys

variable (x : ShellSys) (ins : ℕ → SysIn)

/-- The host's access of a cycle completes. -/
def hostDone (t : ℕ) : Bool := (run ins x t).shell.completes (shellIns x ins t)

/-- The buffer write the host has completed in a cycle. -/
def hostWrite (t : ℕ) : List (SramLoc × MmioData) :=
  if hostDone x ins t then (ins t).host.bufReq.write?.toList else []

/-- The access the buffers grant to the DMA in a cycle. -/
def dmaAccess (t : ℕ) : List (Access 20) :=
  if (run ins x t).shell.dma.bufReq.req && (locDelay x ins t).gnt then
    [if (run ins x t).shell.dma.bufReq.wr then
      .write (run ins x t).shell.dma.bufReq.addr (run ins x t).shell.dma.bufReq.wdata
    else .read (run ins x t).shell.dma.bufReq.addr]
  else []

/-- The writes that host and DMA have been told are done, in order. -/
def acknowledged : ℕ → List (SramLoc × MmioData)
  | 0 => []
  | n + 1 => acknowledged n ++ (hostWrite x ins n ++ sramWrites (dmaAccess x ins n))

/-- The accesses of the DMA are those of its transfer, in order; all have been
made when the busy bit has fallen. -/
structure CopyAccesses {a b : ℕ} (j : CopyJob a b) (m : BitVec a → MmioData)
    (src : ℕ → List (Access a)) (dst : ℕ → List (Access b)) (busy : ℕ → Bool) (k : ℕ) : Prop where
  reads : ∀ t, src t <+: j.reads j.len.toNat
  writes : ∀ t, dst t <+: j.writes m j.len.toNat
  all : ∀ t, k + 2 ≤ t → busy t = false →
    src t = j.reads j.len.toNat ∧ dst t = j.writes m j.len.toNat

/-- No acknowledged write is lost, no read returns another address's data, and
the DMA moves its own bytes. -/
structure HostDmaCorrect (k : ℕ) : Prop where
  contents : ∀ n, (run ins x n).shell.mem.look =
    WriteLog.replay x.shell.mem.look (acknowledged x ins n)
  bufRead : ∀ t, (ins t).host.readsBuf = true → hostDone x ins t = true →
    ∃ l, locate (ins t).host.addr = some l ∧
      (run ins x t).shell.mmioRdata (shellIns x ins t) = (run ins x t).shell.mem.look l
  dma : if (cfg x ins k).dir then
      CopyAccesses (DmaSys.writeJob (cfg x ins k)) (view (run ins x (k + 2)).shell.mem)
        (fun t ↦ (dmaPort x ins (view (run ins x (k + 2)).shell.mem) t).log)
        (fun t ↦ (run ins x t).ext.log) (fun t ↦ (run ins x t).shell.dma.dmaBusy) k
    else
      CopyAccesses (DmaSys.readJob (cfg x ins k)) x.ext.mem (fun t ↦ (run ins x t).ext.log)
        (fun t ↦ (dmaPort x ins (view (run ins x (k + 2)).shell.mem) t).log)
        (fun t ↦ (run ins x t).shell.dma.dmaBusy) k

/-- The host has no write pending when the DMA is granted, no read pending when
the DMA is answered, and no read that meets the response of another one. -/
structure NoClash : Prop where
  grant : ∀ t, dmaAccess x ins t ≠ [] → (ins t).host.writes = true → (ins t).host.isBuf = false
  response : ∀ t a, dmaAccess x ins t = [.read a] → (ins (t + 1)).host.readsBuf = false
  backToBack : ∀ t, (ins t).host.readsBuf = true → hostDone x ins t = true →
    (ins (t + 1)).host.readsBuf = true → (ins (t + 1)).host.addr = (ins t).host.addr

variable {x ins} {k : ℕ}

namespace OneTransfer

variable (h : OneTransfer x ins k)
include h

omit h in
theorem dmaAccess_of_not_busy {t : ℕ} (hb : (run ins x t).shell.dma.dmaBusy = false) :
    dmaAccess x ins t = [] := by
  rw [dmaAccess, NpuDmaFrontend.bufReq_req_of_not_busy hb]
  rfl

/-- The prefixes of the transfer, and the whole of it once not busy. -/
theorem copyAccesses (hlen : 0 < (cfg x ins k).len.toNat) : if (cfg x ins k).dir then
      CopyAccesses (DmaSys.writeJob (cfg x ins k)) (view (run ins x (k + 2)).shell.mem)
        (fun t ↦ (dmaPort x ins (view (run ins x (k + 2)).shell.mem) t).log)
        (fun t ↦ (run ins x t).ext.log) (fun t ↦ (run ins x t).shell.dma.dmaBusy) k
    else
      CopyAccesses (DmaSys.readJob (cfg x ins k)) x.ext.mem (fun t ↦ (run ins x t).ext.log)
        (fun t ↦ (dmaPort x ins (view (run ins x (k + 2)).shell.mem) t).log)
        (fun t ↦ (run ins x t).shell.dma.dmaBusy) k := by
  have hext : ∀ t ≤ k + 1, (run ins x t).ext.log = [] := fun t ht ↦ by
    rw [h.extBefore ht]
    exact h.extLog
  have hloc : ∀ t ≤ k + 1,
      (dmaPort x ins (view (run ins x (k + 2)).shell.mem) t).log = [] := fun t ht ↦ by
    rw [h.dmaPortBefore _ ht]
  cases hdir : (cfg x ins k).dir with
  | true =>
      have hat := h.writer_at hdir hlen
      have hle := Copier.moved_le (fun t ↦ locDelay x ins (k + 1 + t))
        (fun t ↦ (ins (k + 1 + t)).ext) hlen
      refine ⟨fun t ↦ ?_, fun t ↦ ?_, fun t ht hb ↦ ?_⟩
      · rcases Nat.lt_or_ge t (k + 2) with ht | ht
        · rw [hloc t (by omega)]
          exact List.nil_prefix
        · obtain ⟨u, rfl⟩ : ∃ u, t = k + 1 + (u + 1) := ⟨t - (k + 2), by omega⟩
          exact (hat u).srcLog ▸ WriteLog.map_range_isPrefix _ (hle u).1
      · rcases Nat.lt_or_ge t (k + 2) with ht | ht
        · rw [hext t (by omega)]
          exact List.nil_prefix
        · obtain ⟨u, rfl⟩ : ∃ u, t = k + 1 + (u + 1) := ⟨t - (k + 2), by omega⟩
          exact (hat u).dstLog ▸ WriteLog.map_range_isPrefix _ (hle u).2
      · obtain ⟨hsrc, hdst, -⟩ := h.fromDevice_moved hdir hlen ht hb
        exact ⟨hsrc, hdst⟩
  | false =>
      have hat := h.reader_at hdir hlen
      have hle := Copier.moved_le (fun t ↦ (ins (k + 1 + t)).ext)
        (fun t ↦ locDelay x ins (k + 1 + t)) hlen
      refine ⟨fun t ↦ ?_, fun t ↦ ?_, fun t ht hb ↦ ?_⟩
      · rcases Nat.lt_or_ge t (k + 2) with ht | ht
        · rw [hext t (by omega)]
          exact List.nil_prefix
        · obtain ⟨u, rfl⟩ : ∃ u, t = k + 1 + (u + 1) := ⟨t - (k + 2), by omega⟩
          exact (hat u).srcLog ▸ WriteLog.map_range_isPrefix _ (hle u).1
      · rcases Nat.lt_or_ge t (k + 2) with ht | ht
        · rw [hloc t (by omega)]
          exact List.nil_prefix
        · obtain ⟨u, rfl⟩ : ∃ u, t = k + 1 + (u + 1) := ⟨t - (k + 2), by omega⟩
          exact (hat u).dstLog ▸ WriteLog.map_range_isPrefix _ (hle u).2
      · obtain ⟨hsrc, hdst, -⟩ := h.toDevice_moved hdir hlen ht hb
        exact ⟨hsrc, hdst⟩

omit h in
/-- The grant of a busy cycle is the DMA's. -/
theorem dmaAccess_of_gnt {t : ℕ} (hb : (run ins x t).shell.dma.dmaBusy = true)
    (hgnt : (locDelay x ins t).gnt = true) : dmaAccess x ins t ≠ [] := by
  have hreq : (run ins x t).shell.dma.bufReq.req = true := by
    by_contra hne
    have hfalse : (locDelay x ins t).gnt = false := by
      change NpuMemTop.hostGnt ((run ins x t).shell.bufPort (shellIns x ins t)) _ = false
      rw [bufPort_of_busy hb]
      exact NpuMemTop.hostGnt_of_not_req (Bool.eq_false_iff.mpr hne)
    exact absurd (hfalse.symm.trans hgnt) Bool.false_ne_true
  rw [dmaAccess, hreq, hgnt]
  exact List.cons_ne_nil _ _

omit h in
/-- Without clash no buffer write of the host completes in a busy cycle. -/
theorem hostWrite_of_busy (hc : NoClash x ins) {t : ℕ}
    (hb : (run ins x t).shell.dma.dmaBusy = true) : hostWrite x ins t = [] := by
  rw [hostWrite]
  split
  · next hd =>
      rw [hostDone, NpuShell.completes, Bool.and_eq_true] at hd
      cases hw : (ins t).host.wr with
      | false => simp [HostReq.write?, Mmio.bufReq, hw]
      | true =>
          cases hbuf : (ins t).host.isBuf with
          | false => simp [HostReq.write?, Mmio.bufReq, hbuf]
          | true =>
              have hready := hd.2
              rw [NpuShell.mmioReady, show (shellIns x ins t).host = (ins t).host from rfl, hbuf,
                if_pos rfl, hw, if_pos rfl] at hready
              have hwrites : (ins t).host.writes = true := by
                rw [Mmio.writes, hw, Bool.and_true]
                exact hd.1
              exact absurd ((hc.grant t (dmaAccess_of_gnt hb hready) hwrites).symm.trans hbuf)
                Bool.false_ne_true
  · rfl

/-- While the DMA is not busy every buffer write of the host completes. -/
theorem hostWrite_of_not_busy {t : ℕ} (hb : (run ins x t).shell.dma.dmaBusy = false) :
    hostWrite x ins t = (ins t).host.bufReq.write?.toList := by
  rw [hostWrite]
  split
  · rfl
  · next hd =>
      cases hv : (ins t).host.valid with
      | false => simp [HostReq.write?, Mmio.bufReq, hv]
      | true =>
          cases hw : (ins t).host.wr with
          | false => simp [HostReq.write?, Mmio.bufReq, hw]
          | true =>
              refine absurd ?_ hd
              rw [hostDone, NpuShell.completes,
                NpuShell.mmioReady_of_write (i := shellIns x ins t) hb (h.noBackend t) hv hw,
                Bool.and_true]
              exact hv

/-- In a cycle without clash the buffers change by what is acknowledged. -/
theorem look_succ (hc : NoClash x ins) (t : ℕ) : (run ins x (t + 1)).shell.mem.look =
    WriteLog.replay (run ins x t).shell.mem.look
      (hostWrite x ins t ++ sramWrites (dmaAccess x ins t)) := by
  cases hb : (run ins x t).shell.dma.dmaBusy with
  | true =>
      obtain ⟨log, hlog, hlook⟩ := h.look_busy hb fun _ ↦ 0
      obtain rfl : dmaAccess x ins t = log := List.append_cancel_left hlog
      rw [hlook, hostWrite_of_busy hc hb, List.nil_append]
  | false =>
      rw [dmaAccess_of_not_busy hb, h.memSucc t, NpuMemTop.look_step _ (h.noBackend t),
        NpuShell.bufPort_of_idle hb, h.hostWrite_of_not_busy hb,
        show sramWrites [] = [] from rfl, List.append_nil]
      rfl

/-- A completed buffer read answers for the entry of its address. -/
theorem bufRead_eq (hs : x.shell.BusIdle) (hp : x.shell.HostHolds (shellIns x ins))
    (hc : NoClash x ins) {t : ℕ} (hread : (ins t).host.readsBuf = true)
    (hdone : hostDone x ins t = true) : ∃ l, locate (ins t).host.addr = some l ∧
      (run ins x t).shell.mmioRdata (shellIns x ins t) = (run ins x t).shell.mem.look l := by
  have hrv := NpuShell.rvalid_of_completes (i := shellIns x ins t) hread hdone
  cases t with
  | zero => exact absurd ((hs.rvalid _ _).symm.trans hrv) Bool.false_ne_true
  | succ t =>
      have hb : (run ins x t).shell.dma.dmaBusy = false := Bool.eq_false_iff.mpr fun hb ↦ by
        -- The response would be the DMA's.
        obtain ⟨l, hl, -, -⟩ := NpuShell.rsp_step (s := (run ins x t).shell)
          (i := shellIns x ins t) (h.noBackend t) hrv
        rw [bufPort_of_busy hb] at hl
        have hreq : (run ins x t).shell.dma.bufReq.req = true ∧
            (run ins x t).shell.dma.bufReq.wr = false := by
          cases hr : (run ins x t).shell.dma.bufReq.req <;>
            cases hw : (run ins x t).shell.dma.bufReq.wr <;>
            simp [HostReq.read?, hr, hw] at hl ⊢
        have hloc : locate (run ins x t).shell.dma.bufReq.addr = some l := by
          simpa [HostReq.read?, hreq.1, hreq.2] using hl
        have hacc : dmaAccess x ins t = [.read (run ins x t).shell.dma.bufReq.addr] := by
          rw [dmaAccess, hreq.1, h.gnt_eq hb hreq.1, hloc, hreq.2]
          rfl
        exact absurd ((hc.response t _ hacc).symm.trans hread) Bool.false_ne_true
      exact NpuShell.bufRead_step (i := shellIns x ins t) hb
        (h.noBackend t) (fun hv hd ↦ hp t hv (by rw [← shell_run]; exact hd)) (hc.backToBack t)
        hread hdone

/-- Without clash host and DMA do not disturb one another. -/
theorem host_dma_correct (hlen : 0 < (cfg x ins k).len.toNat) (hs : x.shell.BusIdle)
    (hp : x.shell.HostHolds (shellIns x ins)) (hc : NoClash x ins) : HostDmaCorrect x ins k where
  contents n := by
    induction n with
    | zero => rfl
    | succ n ih =>
        rw [h.look_succ hc, ih, acknowledged]
        exact (WriteLog.replay_append ..).symm
  bufRead _ := h.bufRead_eq hs hp hc
  dma := h.copyAccesses hlen

end OneTransfer

/-! ## A host write before and during a transfer of one byte -/

/-- The transfer of `oneByte`, and a write of the next entry in cycle `w`. -/
def writingAt (w t : ℕ) : Mmio := if t = w then .write 0x20001 9 else pollAt 8 t

theorem writingAt_late {w t : ℕ} (hw : w < 10) (ht : 10 ≤ t) : writingAt w t = .idle := by
  simp only [writingAt, pollAt]
  split_ifs <;> first | omega | rfl

/-- What holds of the accesses up to cycle 9 and of an idle bus. -/
theorem writingAt_forall {P : ℕ → Mmio → Prop} {w : ℕ} (hw : w < 10)
    (hearly : ∀ t < 10, P t (writingAt w t)) (hidle : ∀ t, 10 ≤ t → P t .idle) (t : ℕ) :
    P t (writingAt w t) := by
  rcases Nat.lt_or_ge t 10 with ht | ht
  · exact hearly t ht
  · rw [writingAt_late hw ht]
    exact hidle t ht

theorem oneTransfer_writingAt {w : ℕ} (hw : w < 10)
    (hstart : ∀ t < 10, (writingAt w t).startsDma = decide (t = 3))
    (hctrl : ∀ t < 10, (writingAt w t).writesReg regCtrl = false) :
    OneTransfer sevens (prompt (writingAt w)) 3 where
  stable := ⟨rfl, rfl, rfl⟩
  noReset t hr := by
    have hnone := writingAt_forall (P := fun _ m ↦ m.writesReg regCtrl = false) hw hctrl
      (fun _ _ ↦ rfl) t
    exact absurd (hnone.symm.trans hr) Bool.false_ne_true
  noBackend _ := rfl
  idle := ⟨rfl, rfl, rfl⟩
  extPending := rfl
  extLog := rfl
  started := writingAt_forall (P := fun t m ↦ m.startsDma = decide (t = 3)) hw hstart
    fun t ht ↦ (decide_eq_false (by omega)).symm

theorem busIdle_sevens : sevens.shell.BusIdle := ⟨rfl, fun _ _ ↦ rfl⟩

theorem hostHolds_writingAt {w : ℕ} (hw : w < 10)
    (hready : ∀ t < 10, (writingAt w t).valid = true → (NpuShell.run (shellIns sevens
      (prompt (writingAt w))) sevens.shell t).mmioReady (shellIns sevens (prompt (writingAt w)) t) =
        true) : sevens.shell.HostHolds (shellIns sevens (prompt (writingAt w))) := by
  intro t hv hr
  rcases Nat.lt_or_ge t 10 with ht | ht
  · exact absurd (hr.symm.trans (hready t ht hv)) Bool.false_ne_true
  · have hidle : (shellIns sevens (prompt (writingAt w)) t).host = .idle := writingAt_late hw ht
    rw [hidle] at hv
    exact absurd hv Bool.false_ne_true

theorem host_dma_correct_writingAt : HostDmaCorrect sevens (prompt (writingAt 4)) 3 := by
  have hread : ∀ t, (writingAt 4 t).readsBuf = false :=
    writingAt_forall (P := fun _ m ↦ m.readsBuf = false) (by decide) (by decide) fun _ _ ↦ rfl
  refine (oneTransfer_writingAt (by decide) (by decide) (by decide)).host_dma_correct (by decide)
    busIdle_sevens (hostHolds_writingAt (by decide) (by decide)) ⟨fun t hacc hw ↦ ?_, fun t a _ ↦
      hread (t + 1), fun t hr ↦ absurd ((hread t).symm.trans hr) Bool.false_ne_true⟩
  rcases Nat.lt_or_ge t 10 with ht | ht
  · have hnone : ∀ t < 10, dmaAccess sevens (prompt (writingAt 4)) t ≠ [] →
        (writingAt 4 t).writes = true → (writingAt 4 t).isBuf = false := by decide
    exact hnone t ht hacc hw
  · have hidle : (prompt (writingAt 4) t).host = .idle := writingAt_late (by decide) ht
    rw [hidle] at hw
    exact absurd hw Bool.false_ne_true

/-- The write meets the DMA's grant: it completes and is lost. -/
theorem not_hostDmaCorrect_writingAt : OneTransfer sevens (prompt (writingAt 7)) 3 ∧
    0 < (cfg sevens (prompt (writingAt 7)) 3).len.toNat ∧ sevens.shell.BusIdle ∧
      sevens.shell.HostHolds (shellIns sevens (prompt (writingAt 7))) ∧
        ¬HostDmaCorrect sevens (prompt (writingAt 7)) 3 :=
  ⟨oneTransfer_writingAt (by decide) (by decide) (by decide), by decide, busIdle_sevens,
    hostHolds_writingAt (by decide) (by decide),
    fun h ↦ absurd (congrFun (h.contents 8) (.act 1)) (by decide)⟩

end ShellSys

end LgNpu
