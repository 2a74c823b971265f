import LgNpu.Host.Shell
import LgNpu.Host.Windows

/-!
# The host bus as a memory

With no DMA transfer running and no backend writing, the shell answers a host
that holds its accesses until they are ready like a memory with registers in
front, except after a buffer access: the response mux still selects the buffers
for a register read that follows, and a buffer read is requested again in the
cycle that completes it.
-/

namespace LgNpu

namespace Mmio

variable (m : Mmio)

def readsBuf : Bool := m.valid && !m.wr && m.isBuf

def readsReg : Bool := m.valid && !m.wr && m.isReg

end Mmio

/-- A change of a register or of an SRAM entry. -/
inductive Effect
  | reg (a : MmioAddr) (d : MmioData)
  | sram (l : SramLoc) (d : MmioData)
  deriving DecidableEq

/-- What a write is for. -/
def Mmio.effect (m : Mmio) : List Effect :=
  if m.isReg then [.reg m.addr m.wdata]
  else ((locate m.addr).map fun l ↦ .sram l (l.trim m.wdata)).toList

/-- The value a bus address has after the writes `ws`. -/
def busValue (s : NpuMemTop) (ws : List Mmio) : MmioAddr → MmioData :=
  WriteLog.replay (fun a ↦ (locate a).elim 0 s.look)
    (ws.map fun m ↦ (m.addr, (locate m.addr).elim 0 fun l ↦ l.trim m.wdata))

namespace NpuShell

variable (i : ShellIn) (s : NpuShell) (ins : ℕ → ShellIn)

/-- The host samples `mmio_ready` high. -/
def completes : Bool := i.host.valid && s.mmioReady i

/-- The host holds an access until it completes. -/
def HostHolds : Prop := ∀ t, (ins t).host.valid = true →
  (run ins s t).mmioReady (ins t) = false → (ins (t + 1)).host = (ins t).host

/-- The writes completed in the first `n` cycles. -/
def written : ℕ → List Mmio
  | 0 => []
  | n + 1 => written n ++
      if completes (ins n) (run ins s n) && (ins n).host.wr then [(ins n).host] else []

/-- The write enables of a clock edge. -/
def effect : List Effect :=
  (if i.host.writes && i.host.isReg && !s.resetting then [.reg i.host.addr i.host.wdata] else []) ++
    ((s.bufPort i).write?.map fun w ↦ .sram w.1 w.2).toList

/-- What the first `n` cycles have changed. -/
def effects : ℕ → List Effect
  | 0 => []
  | n + 1 => effects n ++ effect (ins n) (run ins s n)

/-- Every register read returns the register's value in its cycle, every
buffer read the value last written to its address, and every write is performed
once. -/
structure BusCorrect : Prop where
  regRead : ∀ t, (ins t).host.readsReg = true → completes (ins t) (run ins s t) = true →
    (run ins s t).mmioRdata (ins t) = (run ins s t).regRdata (ins t)
  bufRead : ∀ t, (ins t).host.readsBuf = true → completes (ins t) (run ins s t) = true →
    (run ins s t).mmioRdata (ins t) = busValue s.mem (written s ins t) (ins t).host.addr
  once : ∀ n, effects s ins n = (written s ins n).flatMap Mmio.effect

/-- No response pending, and the response mux on the registers. -/
structure BusIdle : Prop where
  isBufR : s.regs.isBufR = false
  rvalid : ∀ h q, (s.mem.hostRsp h q).rvalid = false

/-- The accesses that do not meet the response mux or a pending response of an
earlier one, do not share an SRAM entry under two addresses, and do not write a
register in reset. -/
structure NoHazard : Prop where
  regAfterBuf : ∀ t, (ins t).host.readsReg = true →
    ∀ m, (accesses (fun t ↦ (ins t).host) t).getLast? = some m → m.isBuf = false
  backToBack : ∀ t, (ins t).host.readsBuf = true → completes (ins t) (run ins s t) = true →
    (ins (t + 1)).host.readsBuf = true → (ins (t + 1)).host.addr = (ins t).host.addr
  noAlias : ∀ u t, u < t → (ins u).host.writes = true → (ins t).host.readsBuf = true →
    locate (ins u).host.addr = locate (ins t).host.addr → (ins u).host.addr = (ins t).host.addr
  reset : ∀ t, (ins t).host.writes = true → (ins t).host.isReg = true →
    (run ins s t).resetting = false

variable {i s ins}

/-! ## The buffers behind the port -/

theorem look_clear (m : NpuMemTop) : m.clear.look = m.look := by
  funext l
  cases l <;> rfl

/-- Contents change by the write of the port alone, reset or not. -/
theorem look_step (hq : i.core.be.outWrReq = false) :
    (s.step i).mem.look = WriteLog.replay s.mem.look (s.bufPort i).write?.toList := by
  have h := NpuMemTop.look_step s.mem (h := s.bufPort i) hq
  rw [NpuShell.step]
  split
  · exact (look_clear _).trans h
  · exact h

/-- A response is that of the port's read of the cycle before. -/
theorem rsp_step (hq : i.core.be.outWrReq = false) {h : HostReq} {q : BeReq}
    (hr : ((s.step i).mem.hostRsp h q).rvalid = true) :
    ∃ l, (s.bufPort i).read? = some l ∧ s.resetting = false ∧
      ((s.step i).mem.hostRsp h q).rdata = (s.step i).mem.look l := by
  cases hreset : s.resetting with
  | true =>
      rw [NpuShell.step, hreset, if_pos rfl] at hr
      simp [NpuMemTop.hostRsp, NpuMemTop.clear] at hr
  | false =>
      have hmem : (s.step i).mem = s.mem.step (s.bufPort i) i.core.be := by
        rw [NpuShell.step, hreset]
        rfl
      rw [hmem] at hr ⊢
      rw [NpuMemTop.rvalid_step s.mem hq] at hr
      obtain ⟨l, hl⟩ := Option.isSome_iff_exists.mp hr
      refine ⟨l, hl, rfl, ?_⟩
      have hnone : (s.bufPort i).write? = none := by
        cases hw : (s.bufPort i).wr <;> simp [HostReq.read?, HostReq.write?, hw] at hl ⊢
      rw [NpuMemTop.rdata_step s.mem hq hl, NpuMemTop.look_step s.mem hq, hnone]
      rfl

theorem isBuf_eq (m : Mmio) : m.isBuf = (locate m.addr).isSome := (isSome_locate m.addr).symm

theorem isReg_of_isBuf {m : Mmio} (h : m.isBuf = true) : m.isReg = false := by
  simp only [Mmio.isBuf, Mmio.isReg, BitVec.ult_eq_decide, weightBufBase, cmdQueueBase,
    Bool.not_eq_true', decide_eq_false_iff_not] at h ⊢
  exact fun hlt ↦ h (hlt.trans (by decide))

/-! ## The host on the port -/

/-- With the DMA idle the port is the host's. -/
theorem bufPort_of_idle (h : s.dma.dmaBusy = false) : s.bufPort i = i.host.bufReq := by
  rw [bufPort, h, if_neg Bool.false_ne_true]

theorem read?_bufReq {m : Mmio} {l : SramLoc} (h : m.bufReq.read? = some l) :
    m.readsBuf = true ∧ locate m.addr = some l := by
  cases hv : m.valid <;> cases hb : m.isBuf <;> cases hw : m.wr <;>
    simp [HostReq.read?, Mmio.bufReq, Mmio.readsBuf, hv, hb, hw] at h ⊢
  exact h

theorem write?_bufReq (m : Mmio) : (m.bufReq.write?.map fun w ↦ Effect.sram w.1 w.2).toList =
    if m.writes && m.isBuf then m.effect else [] := by
  cases hv : m.valid <;> cases hb : m.isBuf <;> cases hw : m.wr <;>
    simp [HostReq.write?, Mmio.bufReq, Mmio.writes, hv, hb, hw]
  rw [Mmio.effect, isReg_of_isBuf hb, if_neg Bool.false_ne_true]
  cases locate m.addr <;> rfl

/-- A write completes in its first cycle. -/
theorem mmioReady_of_write (hidle : s.dma.dmaBusy = false) (hq : i.core.be.outWrReq = false)
    (hv : i.host.valid = true) (hw : i.host.wr = true) : s.mmioReady i = true := by
  rw [mmioReady]
  cases hb : i.host.isBuf with
  | false => rfl
  | true =>
      rw [if_pos rfl, hw, if_pos rfl]
      change NpuMemTop.hostGnt (s.bufPort i) i.core.be = true
      rw [bufPort_of_idle hidle,
        NpuMemTop.hostGnt_eq hq (show i.host.bufReq.req = true by simp [Mmio.bufReq, hv, hb])]
      exact (isBuf_eq _).symm.trans hb

theorem rvalid_of_completes (hread : i.host.readsBuf = true) (hdone : s.completes i = true) :
    (s.bufRsp i).rvalid = true := by
  simp only [Mmio.readsBuf, completes, Bool.and_eq_true, Bool.not_eq_true'] at hread hdone
  simpa [mmioReady, hread] using hdone.2

/-- A buffer read that completes in the cycle after one in which the host had
the port is answered for its own address: the read of that cycle was held until
now, or has just completed. -/
theorem bufRead_step {i' : ShellIn} (hidle : s.dma.dmaBusy = false)
    (hq : i.core.be.outWrReq = false)
    (hheld : i.host.valid = true → s.mmioReady i = false → i'.host = i.host)
    (hback : i.host.readsBuf = true → s.completes i = true → i'.host.readsBuf = true →
      i'.host.addr = i.host.addr)
    (hread : i'.host.readsBuf = true) (hdone : (s.step i).completes i' = true) :
    ∃ l, locate i'.host.addr = some l ∧ (s.step i).mmioRdata i' = (s.step i).mem.look l := by
  obtain ⟨l, hl, hreset, hdata⟩ := rsp_step hq (rvalid_of_completes hread hdone)
  rw [bufPort_of_idle hidle] at hl
  obtain ⟨hprev, hloc⟩ := read?_bufReq hl
  have hv : i.host.valid = true ∧ i.host.isBuf = true := by
    simp only [Mmio.readsBuf, Bool.and_eq_true] at hprev
    exact ⟨hprev.1.1, hprev.2⟩
  have haddr : i'.host.addr = i.host.addr := by
    cases hd : s.completes i with
    | true => exact hback hprev hd hread
    | false =>
        rw [completes, hv.1, Bool.true_and] at hd
        rw [hheld hv.1 hd]
  refine ⟨l, by rw [haddr]; exact hloc, ?_⟩
  have hsel : (s.step i).regs.isBufR = true := by
    rw [step, hreset]
    simp [NpuCtrlRegs.step, hv]
  rw [mmioRdata, hsel, if_pos rfl]
  exact hdata

/-! ## Runs -/

theorem mem_written {n : ℕ} {m : Mmio} (h : m ∈ written s ins n) :
    ∃ t < n, (ins t).host = m ∧ m.valid = true ∧ m.wr = true := by
  induction n with
  | zero => simp [written] at h
  | succ n ih =>
      rcases List.mem_append.mp h with h | h
      · obtain ⟨t, ht, hm⟩ := ih h
        exact ⟨t, ht.trans n.lt_succ_self, hm⟩
      · split at h
        · next hc =>
            obtain rfl := List.mem_singleton.mp h
            simp only [completes, Bool.and_eq_true] at hc
            exact ⟨n, n.lt_succ_self, rfl, hc.1.1, hc.2⟩
        · exact absurd h List.not_mem_nil

/-- An entry holds the value last written to its one bus address. -/
theorem replay_eq_busValue (m₀ : NpuMemTop) {ws : List Mmio} {a : MmioAddr} {l : SramLoc}
    (hl : locate a = some l) (hws : ∀ m ∈ ws, m.valid = true ∧ m.wr = true)
    (hone : ∀ m ∈ ws, locate m.addr = some l → m.addr = a) :
    WriteLog.replay m₀.look (ws.flatMap fun m ↦ m.bufReq.write?.toList) l = busValue m₀ ws a := by
  induction ws using List.reverseRecOn with
  | nil => simp [busValue, hl]
  | append_singleton ws m ih =>
      have ih := ih (fun k hk ↦ hws k (List.mem_append_left _ hk)) fun k hk ↦
        hone k (List.mem_append_left _ hk)
      obtain ⟨hv, hw⟩ := hws m (List.mem_append_right _ List.mem_cons_self)
      have hwrite : m.bufReq.write? = (locate m.addr).map fun l ↦ (l, l.trim m.wdata) := by
        have hb := isBuf_eq m
        cases hloc : locate m.addr with
        | none => simp [HostReq.write?, Mmio.bufReq, hloc]
        | some l => simp [HostReq.write?, Mmio.bufReq, hloc, hv, hw, hb]
      rw [List.flatMap_append, List.flatMap_singleton, WriteLog.replay_append, busValue,
        List.map_append, List.map_singleton, WriteLog.replay_concat, hwrite]
      cases hloc : locate m.addr with
      | none =>
          have hne : a ≠ m.addr := fun h ↦ by simp [h, hloc] at hl
          rw [Function.update_of_ne hne]
          exact ih
      | some l' =>
          by_cases heq : l' = l
          · subst heq
            obtain rfl := hone m (List.mem_append_right _ List.mem_cons_self) hloc
            rw [Function.update_self]
            simp
          · have hne : a ≠ m.addr := fun h ↦ heq <| by
              rw [h, hloc] at hl
              exact Option.some.inj hl
            rw [Function.update_of_ne hne]
            rw [Option.map_some, Option.toList_some, WriteLog.replay_cons, WriteLog.replay_nil,
              Function.update_of_ne (Ne.symm heq)]
            exact ih

/-- The response mux selects the buffers only after a buffer access. -/
theorem isBufR_run (h0 : s.regs.isBufR = false) {t : ℕ}
    (h : (run ins s t).regs.isBufR = true) :
    ∃ m, (accesses (fun t ↦ (ins t).host) t).getLast? = some m ∧ m.isBuf = true := by
  induction t with
  | zero => exact absurd (h0.symm.trans h) Bool.false_ne_true
  | succ t ih =>
      rw [run_succ, step] at h
      rw [accesses_succ]
      cases hv : (ins t).host.valid with
      | true =>
          refine ⟨(ins t).host, by simp, ?_⟩
          split at h
          · exact absurd h Bool.false_ne_true
          · simpa [NpuCtrlRegs.step, hv] using h
      | false =>
          split at h
          · exact absurd h Bool.false_ne_true
          · simpa using ih (by simpa [NpuCtrlRegs.step, hv] using h)

section Run

variable (hidle : ∀ t, (run ins s t).dma.dmaBusy = false)
  (hbe : ∀ t, (ins t).core.be.outWrReq = false)
include hidle hbe

theorem look_run (n : ℕ) : (run ins s n).mem.look =
    WriteLog.replay s.mem.look ((written s ins n).flatMap fun m ↦ m.bufReq.write?.toList) := by
  induction n with
  | zero => rfl
  | succ n ih =>
      rw [run_succ, look_step (hbe n), bufPort_of_idle (hidle n), ih, written, List.flatMap_append,
        WriteLog.replay_append]
      congr 1
      cases hv : (ins n).host.valid <;> cases hw : (ins n).host.wr
      case true.true =>
        rw [completes, hv, mmioReady_of_write (hidle n) (hbe n) hv hw]
        simp
      all_goals simp [HostReq.write?, Mmio.bufReq, completes, hv, hw]

/-- Every completed write is performed once and nothing else is. -/
theorem effects_eq (hreset : ∀ t, (ins t).host.writes = true → (ins t).host.isReg = true →
    (run ins s t).resetting = false)
    (n : ℕ) : effects s ins n = (written s ins n).flatMap Mmio.effect := by
  induction n with
  | zero => rfl
  | succ n ih =>
      rw [effects, written, List.flatMap_append, ih, effect, bufPort_of_idle (hidle n),
        write?_bufReq]
      congr 1
      cases hv : (ins n).host.valid with
      | false => simp [Mmio.writes, completes, hv]
      | true =>
          cases hw : (ins n).host.wr with
          | false => simp [Mmio.writes, completes, hw]
          | true =>
              have hwrites : (ins n).host.writes = true := by rw [Mmio.writes, hv, hw]; rfl
              rw [completes, hv, mmioReady_of_write (hidle n) (hbe n) hv hw, hwrites]
              cases hb : (ins n).host.isBuf with
              | true => simp [isReg_of_isBuf hb]
              | false =>
                  have hnone : locate (ins n).host.addr = none := by
                    simpa using (isBuf_eq (ins n).host).symm.trans hb
                  cases hr : (ins n).host.isReg with
                  | false => simp [Mmio.effect, hr, hnone]
                  | true => simp [Mmio.effect, hr, hreset n hwrites hr]

/-- A completed buffer read answers for the entry of its address. -/
theorem bufRead_eq (hs : s.BusIdle) (hp : HostHolds s ins) (hc : NoHazard s ins) {t : ℕ}
    (hread : (ins t).host.readsBuf = true) (hdone : completes (ins t) (run ins s t) = true) :
    ∃ l, locate (ins t).host.addr = some l ∧
      (run ins s t).mmioRdata (ins t) = (run ins s t).mem.look l := by
  cases t with
  | zero =>
      exact absurd ((hs.rvalid _ _).symm.trans (rvalid_of_completes hread hdone))
        Bool.false_ne_true
  | succ t =>
      exact bufRead_step (hidle t) (hbe t) (fun hv hd ↦ hp t hv hd) (hc.backToBack t) hread hdone

/-- A host without hazards sees a memory-mapped bus. -/
theorem bus_correct (hs : s.BusIdle) (hp : HostHolds s ins) (hc : NoHazard s ins) :
    BusCorrect s ins where
  regRead t hread _ := by
    have hsel : (run ins s t).regs.isBufR = false := Bool.eq_false_iff.mpr fun h ↦ by
      obtain ⟨m, hm, hb⟩ := isBufR_run hs.isBufR h
      exact absurd ((hc.regAfterBuf t hread m hm).symm.trans hb) Bool.false_ne_true
    rw [mmioRdata, hsel, if_neg Bool.false_ne_true]
  bufRead t hread hdone := by
    obtain ⟨l, hl, hdata⟩ := bufRead_eq hidle hbe hs hp hc hread hdone
    rw [hdata, look_run hidle hbe]
    refine replay_eq_busValue s.mem hl (fun m hm ↦ ?_) fun m hm hloc ↦ ?_
    · obtain ⟨u, -, -, hm⟩ := mem_written hm
      exact hm
    · obtain ⟨u, hu, rfl, hv, hw⟩ := mem_written hm
      refine hc.noAlias u t hu ?_ hread (hloc.trans hl.symm)
      rw [Mmio.writes, hv, hw]
      rfl
  once := effects_eq hidle hbe hc.reset

end Run

/-! ## A byte written and read back, and a register read in between -/

/-- The host's accesses, the core and the external memory at rest. -/
def hostOnly (host : ℕ → Mmio) (t : ℕ) : ShellIn := ⟨host t, ⟨false, 0, false⟩, .idle⟩

theorem dmaBusy_hostOnly {host : ℕ → Mmio} (hs : s.Stable) (hidle : s.DmaIdle)
    (hctrl : ∀ t, (host t).writesReg regCtrl = false)
    (hdma : ∀ t, (host t).writesReg regDmaCtrl = false) (t : ℕ) :
    (run (hostOnly host) s t).dma.dmaBusy = false :=
  (hidle.run hs
    (fun t hw ↦ absurd ((hctrl t).symm.trans hw) Bool.false_ne_true)
    fun t _ ↦ by
      rw [Mmio.startsDma, show (hostOnly host t).host = host t from rfl, hdma t]
      rfl).dmaBusy

/-- A weight byte written, and read in the two cycles after. -/
def writeThenRead : ℕ → Mmio
  | 0 => .write 0x10000 5
  | 1 => .read 0x10000
  | 2 => .read 0x10000
  | _ => .idle

/-- A weight byte written and `FEATURE_ID` read in the next cycle. -/
def writeThenFeatureId : ℕ → Mmio
  | 0 => .write 0x10000 5
  | 1 => .read regFeatureId
  | _ => .idle

def fresh : NpuShell := .reset (fun _ ↦ 0) fun _ ↦ 0

theorem busIdle_fresh : fresh.BusIdle := ⟨rfl, fun _ _ ↦ rfl⟩

theorem bus_correct_writeThenRead : BusCorrect fresh (hostOnly writeThenRead) := by
  refine bus_correct (dmaBusy_hostOnly ⟨rfl, rfl, rfl⟩ ⟨rfl, rfl, rfl⟩ ?_ ?_) (fun _ ↦ rfl)
    busIdle_fresh ?_ ⟨?_, ?_, ?_, ?_⟩
  · rintro (_ | _ | _ | t) <;> rfl
  · rintro (_ | _ | _ | t) <;> rfl
  · rintro (_ | _ | _ | t) hv hr
    · exact absurd hr (by decide)
    · rfl
    · exact absurd hr (by decide)
    · exact absurd hv Bool.false_ne_true
  · rintro (_ | _ | _ | t) hr <;> exact absurd hr Bool.false_ne_true
  · rintro (_ | _ | _ | t) hr hd hn
    · exact absurd hr Bool.false_ne_true
    · rfl
    · exact absurd hn Bool.false_ne_true
    · exact absurd hr Bool.false_ne_true
  · rintro (_ | _ | _ | u) (_ | _ | _ | t) - hu ht - <;>
      first | rfl | exact absurd hu Bool.false_ne_true | exact absurd ht Bool.false_ne_true
  · rintro (_ | _ | _ | t) hv hr
    · rfl
    · exact absurd hv Bool.false_ne_true
    · exact absurd hv Bool.false_ne_true
    · exact absurd hv Bool.false_ne_true

/-- The register read after a buffer access returns what the buffers drive. -/
theorem not_busCorrect_writeThenFeatureId :
    (∀ t, (run (hostOnly writeThenFeatureId) fresh t).dma.dmaBusy = false) ∧ fresh.BusIdle ∧
      HostHolds fresh (hostOnly writeThenFeatureId) ∧
      ¬BusCorrect fresh (hostOnly writeThenFeatureId) := by
  refine ⟨dmaBusy_hostOnly ⟨rfl, rfl, rfl⟩ ⟨rfl, rfl, rfl⟩ ?_ ?_, busIdle_fresh, ?_, fun h ↦ ?_⟩
  · rintro (_ | _ | t) <;> rfl
  · rintro (_ | _ | t) <;> rfl
  · rintro (_ | _ | t) hv hr
    · exact absurd hr (by decide)
    · exact absurd hr (by decide)
    · exact absurd hv Bool.false_ne_true
  · exact absurd (h.regRead 1 rfl rfl) (by decide)

end NpuShell

end LgNpu
