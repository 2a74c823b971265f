import LgNpu.Host.Shell

/-!
# The runtime's DMA requests

`npu_dma_start` of the runtime library.  Its request holds a 16-bit local
address, below every buffer window, so that the router grants none of the
engine's accesses: the transfer stays busy for good.
-/

namespace LgNpu

/-- `struct npu_dma_req`; an `enum` holds any 32-bit value. -/
structure NpuDmaReq where
  extAddr : BitVec 32
  locAddr : BitVec 16
  len : BitVec 16
  dir : BitVec 32

namespace NpuDmaReq

variable (req : NpuDmaReq)

def fromDevice : Bool := req.dir == 1

def ctrl : MmioData := if req.fromDevice then 0x1 ||| 0x2 else 0x1

/-- The writes of `npu_dma_start`, which then returns 0. -/
def npuDmaStart : List Mmio :=
  dmaProgram req.extAddr (req.locAddr.setWidth 32) (req.len.setWidth 32) req.ctrl

theorem ctrl_start : req.ctrl.getLsbD 0 = true := by
  rw [ctrl]
  split <;> rfl

end NpuDmaReq

/-! ## Addresses below the windows -/

theorem NpuMemTop.hostGnt_eq_false {h : HostReq} (q : BeReq) (ha : h.addr.ult weightBufBase = true) :
    NpuMemTop.hostGnt h q = false := by
  have hlt : h.addr.toNat < 0x10000 := by simpa [BitVec.ult, weightBufBase] using ha
  have hact : h.addr.ult actBufBase = true := by simp [BitVec.ult, actBufBase]; omega
  have hpsum : h.addr.ult psumBufBase = true := by simp [BitVec.ult, psumBufBase]; omega
  simp [NpuMemTop.hostGnt, NpuMemTop.hostSelWt, NpuMemTop.hostSelAct, NpuMemTop.hostSelPsum, ha,
    hact, hpsum]

namespace NpuShell

/-- An engine that has not been granted its first local access. -/
structure Stuck (s : NpuShell) (a : MmioAddr) : Prop where
  engines : (s.dma.writer.state = .idle ∧ s.dma.reader.dstAddrR = a ∧
      (s.dma.reader.state = .rd ∨ s.dma.reader.state = .wait ∨ s.dma.reader.state = .wr)) ∨
    s.dma.reader.state = .idle ∧ s.dma.writer.srcAddrR = a ∧ s.dma.writer.state = .rd
  start : s.regs.dmaStartR = false

variable {s : NpuShell} {i : ShellIn} {a : MmioAddr}

theorem Stuck.busy (h : s.Stuck a) : s.dma.dmaBusy = true := by
  rcases h.engines with ⟨-, -, hr | hr | hr⟩ | ⟨-, -, hw⟩ <;>
    simp [NpuDmaFrontend.dmaBusy, DmaEngine.busy, *]

/-- No access of a stuck engine is granted. -/
theorem Stuck.gnt (h : s.Stuck a) (ha : a.ult weightBufBase = true) :
    (s.bufPort i).req = true → (s.bufRsp i).gnt = false := by
  have hport : s.bufPort i = s.dma.bufReq := by rw [bufPort, h.busy, if_pos rfl]
  intro hreq
  refine NpuMemTop.hostGnt_eq_false _ ?_
  rw [hport] at hreq ⊢
  rcases h.engines with ⟨hw, hdst, hr | hr | hr⟩ | ⟨hr, hsrc, hw⟩
  · simp [NpuDmaFrontend.bufReq, DmaEngine.wrReq, DmaEngine.rdReq, hw, hr] at hreq
  · simp [NpuDmaFrontend.bufReq, DmaEngine.wrReq, DmaEngine.rdReq, hw, hr] at hreq
  · simpa [NpuDmaFrontend.bufReq, DmaEngine.busy, DmaEngine.wrAddr, hr, hdst] using ha
  · simpa [NpuDmaFrontend.bufReq, DmaEngine.busy, DmaEngine.rdAddr, hr, hw, hsrc] using ha

theorem Stuck.step (h : s.Stuck a) (hs : s.Stable) (ha : a.ult weightBufBase = true)
    (hno : i.host.writesReg regDmaCtrl = false) : (s.step i).Stuck a := by
  have hgnt := h.gnt (i := i) ha
  have hport : s.bufPort i = s.dma.bufReq := by rw [bufPort, h.busy, if_pos rfl]
  have hstart : (s.step i).regs.dmaStartR = false := by
    rw [regs_step hs]
    simp [NpuCtrlRegs.step, hno]
  refine ⟨?_, hstart⟩
  rw [dma_step hs]
  rcases h.engines with ⟨hw, hdst, hr⟩ | ⟨hr, hsrc, hw⟩
  · refine .inl ⟨?_, ?_⟩
    · simp [NpuDmaFrontend.step, DmaEngine.step, hw, NpuCtrlRegs.dmaCfg, h.start]
    rcases hr with hr | hr | hr
    · cases hg : i.ext.gnt <;> simp [NpuDmaFrontend.step, DmaEngine.step, hr, hdst, hg]
    · cases hv : i.ext.rvalid <;> simp [NpuDmaFrontend.step, DmaEngine.step, hr, hdst, hv]
    · have hfalse : (s.bufRsp i).gnt = false := hgnt <| by
        rw [hport]
        simp [NpuDmaFrontend.bufReq, DmaEngine.wrReq, hr]
      simp [NpuDmaFrontend.step, DmaEngine.step, hr, hdst, hfalse]
  · refine .inr ⟨?_, ?_⟩
    · simp [NpuDmaFrontend.step, DmaEngine.step, hr, NpuCtrlRegs.dmaCfg, h.start]
    · have hfalse : (s.bufRsp i).gnt = false := hgnt <| by
        rw [hport]
        simp [NpuDmaFrontend.bufReq, DmaEngine.rdReq, hw]
      simp [NpuDmaFrontend.step, DmaEngine.step, hw, hsrc, hfalse]

/-- The start pulse, and the engine it starts. -/
theorem Stuck.start_step (hr : s.dma.reader.state = .idle) (hw : s.dma.writer.state = .idle)
    (hstart : s.regs.dmaStartR = true) (hs : s.Stable)
    (hno : i.host.writesReg regDmaCtrl = false) : (s.step i).Stuck s.regs.dmaLocAddrR := by
  have hnext : (s.step i).regs.dmaStartR = false := by
    rw [regs_step hs]
    simp [NpuCtrlRegs.step, hno]
  refine ⟨?_, hnext⟩
  rw [dma_step hs]
  cases hd : s.regs.dmaDirR with
  | false =>
      refine .inl ⟨?_, ?_, .inl ?_⟩ <;>
        simp [NpuDmaFrontend.step, DmaEngine.step, hr, hw, NpuCtrlRegs.dmaCfg, hstart, hd]
  | true =>
      refine .inr ⟨?_, ?_, ?_⟩ <;>
        simp [NpuDmaFrontend.step, DmaEngine.step, hr, hw, NpuCtrlRegs.dmaCfg, hstart, hd]

/-! ## Whole runs -/

/-- The accesses of the DMA that the buffers grant in the first `n` cycles. -/
def moved (ins : ℕ → ShellIn) (s : NpuShell) : ℕ → ℕ
  | 0 => 0
  | n + 1 => moved ins s n + ((run ins s n).dma.dmaBusy && ((run ins s n).bufPort (ins n)).req &&
      ((run ins s n).bufRsp (ins n)).gnt).toNat

/-- `DMA_STATUS.busy` falls, `len` bytes having been moved. -/
def Completes (ins : ℕ → ShellIn) (s : NpuShell) (len : ℕ) : Prop :=
  ∃ T, (run ins s T).dma.dmaBusy = true ∧ (run ins s (T + 1)).dma.dmaBusy = false ∧
    moved ins s (T + 1) = len

variable {ins : ℕ → ShellIn} {req : NpuDmaReq} {n : ℕ}

/-- After `npu_dma_start` the device is busy for good. -/
theorem busy_forever (hs : s.Stable) (hidle : s.DmaIdle) (hm : ∀ t, noSoftReset (ins t).host)
    (hacc : accesses (fun t ↦ (ins t).host) n = req.npuDmaStart)
    (hquiet : ∀ t, n ≤ t → (ins t).host.writesReg regDmaCtrl = false) :
    ∃ k < n, (∀ t ≤ k + 1, (run ins s t).dma.dmaBusy = false) ∧
      ∀ t, k + 2 ≤ t → (run ins s t).Stuck (req.locAddr.setWidth 20) := by
  obtain ⟨k, hp⟩ := exists_programmed ins hs hidle hm hacc req.ctrl_start
  have hno : ∀ t, k < t → (ins t).host.writesReg regDmaCtrl = false := by
    intro t ht
    rcases Nat.lt_or_ge t n with hn | hn
    · simp [Mmio.writesReg, Mmio.writes, hp.rest t ht hn]
    · exact hquiet t hn
  have hloc : (run ins s (k + 1)).regs.dmaLocAddrR = req.locAddr.setWidth 20 :=
    (congrArg DmaCfg.locAddr hp.cfg).trans
      (BitVec.setWidth_setWidth_of_le _ (by decide : 20 ≤ 32))
  refine ⟨k, hp.lt, fun t ht ↦ ?_, fun t ht ↦ ?_⟩
  · rcases Nat.lt_succ_iff_lt_or_eq.mp (Nat.lt_succ_of_le ht) with ht | rfl
    · exact (hp.idle t (by omega)).dmaBusy
    · rw [NpuDmaFrontend.dmaBusy, DmaEngine.busy_of_idle hp.reader,
        DmaEngine.busy_of_idle hp.writer]
      rfl
  · have haddr : (req.locAddr.setWidth 20).ult weightBufBase = true := by
      have := req.locAddr.isLt
      simp only [BitVec.ult_eq_decide, BitVec.toNat_setWidth, weightBufBase, decide_eq_true_eq]
      rw [Nat.mod_eq_of_lt (by omega)]
      exact this
    induction t, ht using Nat.le_induction with
    | base =>
        rw [← hloc]
        exact Stuck.start_step hp.reader hp.writer (congrArg DmaCfg.start hp.cfg)
          (hs.run hm (k + 1)) (hno _ k.lt_succ_self)
    | succ t ht ih => exact ih.step (hs.run hm t) haddr (hno t (by omega))

theorem not_completes {len k : ℕ} (hbefore : ∀ t ≤ k + 1, (run ins s t).dma.dmaBusy = false)
    (hstuck : ∀ t, k + 2 ≤ t → (run ins s t).Stuck a) : ¬Completes ins s len := by
  rintro ⟨T, hbusy, hfall, -⟩
  rcases Nat.lt_or_ge T (k + 2) with hT | hT
  · exact Bool.false_ne_true ((hbefore T (by omega)).symm.trans hbusy)
  · exact Bool.false_ne_true (hfall.symm.trans (hstuck (T + 1) (by omega)).busy)

/-- No request of the runtime ever completes, whatever the external memory
does and whatever the host does afterwards, short of another start or a reset. -/
theorem npuDmaStart_not_completes (hs : s.Stable) (hidle : s.DmaIdle)
    (hm : ∀ t, noSoftReset (ins t).host)
    (hacc : accesses (fun t ↦ (ins t).host) n = req.npuDmaStart)
    (hquiet : ∀ t, n ≤ t → (ins t).host.writesReg regDmaCtrl = false) :
    ¬Completes ins s req.len.toNat := by
  obtain ⟨k, -, hbefore, hstuck⟩ := busy_forever hs hidle hm hacc hquiet
  exact not_completes hbefore hstuck

/-- The host issues `npu_dma_start` in four cycles and polls `DMA_STATUS`; the
external memory grants always and answers the read of cycle 5. -/
def polling (req : NpuDmaReq) (t : ℕ) : ShellIn where
  host := if h : t < 4 then req.npuDmaStart.get ⟨t, h⟩ else .read regDmaStatus
  ext := ⟨true, 7, decide (t = 6)⟩
  core := .idle

/-- Sixteen bytes to local address `0x100`. -/
def toLocal : NpuDmaReq := ⟨0x1000, 0x100, 16, 0⟩

/-- Sixteen bytes from local address `0x100`. -/
def fromLocal : NpuDmaReq := ⟨0x1000, 0x100, 16, 1⟩

theorem noSoftReset_polling (req : NpuDmaReq) (t : ℕ) : noSoftReset (polling req t).host := by
  intro hw
  have hfalse : (polling req t).host.writesReg regCtrl = false := by
    rcases t with _ | _ | _ | _ | t <;> rfl
  exact absurd (hfalse.symm.trans hw) Bool.false_ne_true

theorem polling_quiet (req : NpuDmaReq) (t : ℕ) (ht : 4 ≤ t) :
    (polling req t).host.writesReg regDmaCtrl = false := by
  rw [polling, dif_neg (by omega)]
  rfl

theorem npuDmaStart_not_completes_fromLocal :
    ¬Completes (polling fromLocal) (.reset (fun _ ↦ 0) fun _ ↦ 0) 16 :=
  npuDmaStart_not_completes (n := 4) ⟨rfl, rfl, rfl⟩ ⟨rfl, rfl, rfl⟩
    (noSoftReset_polling fromLocal) rfl (polling_quiet fromLocal)

/-- A request of the library's type, accepted on an idle device, that never
completes. -/
theorem not_completes_toLocal :
    accesses (fun t ↦ (polling toLocal t).host) 4 = toLocal.npuDmaStart ∧
      (∀ t, (polling toLocal t).ext.gnt = true) ∧ 1 ≤ toLocal.len.toNat ∧
      ¬Completes (polling toLocal) (.reset (fun _ ↦ 0) fun _ ↦ 0) toLocal.len.toNat := by
  obtain ⟨k, -, hbefore, hstuck⟩ := busy_forever
    (s := .reset (fun _ ↦ 0) fun _ ↦ 0) (n := 4) ⟨rfl, rfl, rfl⟩ ⟨rfl, rfl, rfl⟩
    (noSoftReset_polling toLocal) rfl (polling_quiet toLocal)
  exact ⟨rfl, fun _ ↦ rfl, by decide, not_completes hbefore hstuck⟩

end NpuShell

end LgNpu
