import LgNpu.Dma.InShell

/-!
# The driver's transfers

`lgnpu_dma_transfer` programs the engine, polls `DMA_STATUS` until it reads
idle and returns 0.  Its arguments are 32 bits wide and the registers narrower,
and the first poll can come before the start pulse has reached the engine.
-/

namespace LgNpu

/-- `struct lgnpu_ioctl_dma`, the arguments of `lgnpu_dma_transfer`. -/
structure LgnpuIoctlDma where
  extAddr : BitVec 32
  locAddr : BitVec 32
  len : BitVec 32
  dir : BitVec 32

def lgnpuDmaPollIters : ℕ := 10000

/-- Entry `i` of the local range that starts at `loc`. -/
def locAt (loc : BitVec 32) (i : ℕ) : Option SramLoc :=
  if loc.toNat + i < 2 ^ 20 then locate (.ofNat 20 (loc.toNat + i)) else none

namespace LgnpuIoctlDma

variable (d : LgnpuIoctlDma)

def fromDevice : Bool := d.dir == 1

def ctl : MmioData := if d.fromDevice then 0x1 ||| 0x2 else 0x1

/-- The register accesses of `lgnpu_dma_transfer` when poll `i` finds the
engines idle, before it returns 0. -/
def lgnpuDmaTransfer (i : ℕ) : List Mmio :=
  dmaProgram d.extAddr d.locAddr d.len d.ctl ++
    (List.replicate (i + 1) (.read regDmaStatus) ++ [.write regIrqClear 1])

/-- External byte `i`. -/
def extAt (i : ℕ) : BitVec 32 := d.extAddr + .ofNat 32 i

/-- Exactly the bytes of the request have been copied from `x` to `y`. -/
structure Copied (x y : ShellSys) : Prop where
  moved : ∀ i < d.len.toNat, ∃ l, locAt d.locAddr i = some l ∧
    if d.fromDevice then y.ext.mem (d.extAt i) = x.shell.mem.look l
    else y.shell.mem.look l = l.trim (x.ext.mem (d.extAt i))
  localFrame : ∀ l, (d.fromDevice = false → ∀ i < d.len.toNat, locAt d.locAddr i ≠ some l) →
    y.shell.mem.look l = x.shell.mem.look l
  extFrame : ∀ e, (d.fromDevice = true → ∀ i < d.len.toNat, d.extAt i ≠ e) →
    y.ext.mem e = x.ext.mem e

theorem ctl_start : d.ctl.getLsbD 0 = true := by
  rw [ctl]
  split <;> rfl

theorem ctl_dir : d.ctl.getLsbD 1 = d.fromDevice := by
  rw [ctl]
  cases d.fromDevice <;> rfl

end LgnpuIoctlDma

namespace ShellSys

variable (x : ShellSys) (ins : ℕ → SysIn) (d : LgnpuIoctlDma)

/-- The values the host has read in the first `n` cycles. -/
def readValues : ℕ → List MmioData
  | 0 => []
  | n + 1 => readValues n ++ if (ins n).host.valid && !(ins n).host.wr then
      [(run ins x n).shell.mmioRdata (shellIns x ins n)] else []

/-- By cycle `n` the driver has made the accesses of `lgnpu_dma_transfer`, all
polls but the last having read busy: the call returns 0. -/
def ReturnsZero (n : ℕ) : Prop := ∃ i < lgnpuDmaPollIters,
  accesses (fun t ↦ (ins t).host) n = d.lgnpuDmaTransfer i ∧
    (readValues x ins n).map (·.getLsbD 0) = List.replicate i true ++ [false]

/-- Neither a transfer nor a reset is going on; the accesses of the external
memory are counted from here. -/
structure Idle : Prop where
  stable : x.shell.Stable
  dma : x.shell.DmaIdle
  extPending : x.ext.pending = none
  extLog : x.ext.log = []

/-- A request the registers can hold, whose local bytes have an entry each,
polled no earlier than two cycles after the start. -/
structure Sound : Prop where
  lenPos : 0 < d.len.toNat
  lenLt : d.len.toNat < 2 ^ 16
  locLt : d.locAddr.toNat < 2 ^ 20
  oneEach : d.fromDevice = false → ∀ i < d.len.toNat, ∀ j < d.len.toNat, ∀ l,
    locAt d.locAddr i = some l → locAt d.locAddr j = some l → i = j
  gap : ∀ t, (ins t).host.startsDma = true → (ins (t + 1)).host.valid = false

variable {x ins d}

theorem readValues_mem {n : ℕ} {b : Bool} (h : b ∈ (readValues x ins n).map (·.getLsbD 0)) :
    ∃ t < n, (ins t).host.valid = true ∧ (ins t).host.wr = false ∧
      ((run ins x t).shell.mmioRdata (shellIns x ins t)).getLsbD 0 = b := by
  induction n with
  | zero => simp [readValues] at h
  | succ n ih =>
      rw [readValues, List.map_append, List.mem_append] at h
      rcases h with h | h
      · obtain ⟨t, ht, hb⟩ := ih h
        exact ⟨t, ht.trans n.lt_succ_self, hb⟩
      · split at h
        · next hv =>
            rw [Bool.and_eq_true, Bool.not_eq_true'] at hv
            exact ⟨n, n.lt_succ_self, hv.1, hv.2, (List.mem_singleton.mp h).symm⟩
        · exact absurd h List.not_mem_nil

/-- Later inputs do not matter. -/
theorem run_congr {ins' : ℕ → SysIn} {n : ℕ} (h : ∀ t < n, ins t = ins' t) :
    ∀ t ≤ n, run ins x t = run ins' x t :=
  Clocked.run_congr fun t ht ↦ by rw [h t ht]

/-- The host stops in cycle `n`. -/
def quietAfter (ins : ℕ → SysIn) (n t : ℕ) : SysIn :=
  if t < n then ins t else { ins t with host := .idle }

theorem quietAfter_of_lt {n t : ℕ} (ht : t < n) : quietAfter ins n t = ins t := if_pos ht

theorem quietAfter_host {n t : ℕ} (ht : n ≤ t) : (quietAfter ins n t).host = .idle := by
  rw [quietAfter, if_neg (Nat.not_lt.mpr ht)]

theorem quietAfter_core (n t : ℕ) : (quietAfter ins n t).core = (ins t).core := by
  rw [quietAfter]
  split <;> rfl

theorem Sound.quietAfter (h : Sound ins d) (n : ℕ) : Sound (ShellSys.quietAfter ins n) d := by
  refine ⟨h.lenPos, h.lenLt, h.locLt, h.oneEach, fun t hs ↦ ?_⟩
  rcases Nat.lt_or_ge (t + 1) n with ht | ht
  · rw [quietAfter_of_lt (by omega)] at hs
    rw [quietAfter_of_lt ht]
    exact h.gap t hs
  · rw [quietAfter_host ht]
    rfl

/-! ## The accesses of a transfer -/

/-- The host makes only the accesses of `lgnpu_dma_transfer`. -/
structure Driven (x : ShellSys) (ins : ℕ → SysIn) (d : LgnpuIoctlDma) (k n : ℕ) : Prop where
  lt : k < n
  one : OneTransfer x ins k
  cfg : cfg x ins k = ⟨d.extAddr, d.locAddr.setWidth 20, d.len.setWidth 16, true, d.fromDevice⟩
  noBuf : ∀ t, (ins t).host.bufReq.req = false
  start : (ins k).host = .write regDmaCtrl d.ctl
  before : ∀ t ≤ k, (ins t).host.valid = true → (ins t).host.wr = true
  after : ∀ t, k < t → (ins t).host.valid = true → (ins t).host.wr = false →
    (ins t).host = .read regDmaStatus

theorem exists_driven (hx : x.Idle) (hbe : ∀ t, (ins t).core.be.outWrReq = false) {i n : ℕ}
    (hacc : accesses (fun t ↦ (ins t).host) n = d.lgnpuDmaTransfer i)
    (hquiet : ∀ t, n ≤ t → (ins t).host.valid = false) : ∃ k, Driven x ins d k n := by
  have hmem : ∀ t, (ins t).host.valid = true → (ins t).host ∈ d.lgnpuDmaTransfer i := by
    intro t hv
    rcases Nat.lt_or_ge t n with ht | ht
    · rw [← hacc]
      exact mem_accesses (fun t ↦ (ins t).host) ht hv
    · exact absurd ((hquiet t ht).symm.trans hv) Bool.false_ne_true
  have hkinds : ∀ m ∈ d.lgnpuDmaTransfer i, m.writesReg regCtrl = false ∧ m.isBuf = false := by
    intro m hm
    simp only [LgnpuIoctlDma.lgnpuDmaTransfer, dmaProgram, List.cons_append, List.nil_append,
      List.mem_cons, List.mem_append, List.mem_replicate, List.not_mem_nil, or_false] at hm
    rcases hm with rfl | rfl | rfl | rfl | ⟨-, rfl⟩ | rfl <;> exact ⟨rfl, rfl⟩
  have hreset : ∀ t, NpuShell.noSoftReset (ins t).host := by
    intro t hw
    cases hv : (ins t).host.valid with
    | false => simp [Mmio.writesReg, Mmio.writes, hv] at hw
    | true => exact absurd ((hkinds _ (hmem t hv)).1.symm.trans hw) Bool.false_ne_true
  obtain ⟨p, hp, hprog⟩ := exists_accesses_eq hacc
  obtain ⟨k, hk⟩ :=
    exists_programmed (shellIns x ins) hx.stable hx.dma hreset hprog d.ctl_start
  have hstart : (ins k).host = .write regDmaCtrl d.ctl := hk.write
  have hrest : ∀ t, k < t → (ins t).host.valid = true →
      (ins t).host = .read regDmaStatus ∨ (ins t).host = .write regIrqClear 1 := by
    intro t ht hv
    have hpt : p ≤ t := by
      by_contra hlt
      exact absurd ((hk.rest t ht (by omega)).symm.trans hv) Bool.false_ne_true
    have htn : t < n := by
      by_contra hge
      exact absurd ((hquiet t (by omega)).symm.trans hv) Bool.false_ne_true
    have hm := mem_of_accesses_append hacc hprog hpt htn hv
    simpa using hm
  refine ⟨k, hk.lt.trans_le hp, ⟨hx.stable, hreset, hbe, hx.dma, hx.extPending, hx.extLog,
    fun t ↦ ?_⟩, ?_, fun t ↦ ?_, hstart, fun t ht hv ↦ ?_, fun t ht hv hw ↦ ?_⟩
  · rcases Nat.lt_trichotomy t k with ht | rfl | ht
    · rw [decide_eq_false (by omega)]
      cases hv : (ins t).host.valid with
      | false => simp [Mmio.startsDma, Mmio.writesReg, Mmio.writes, hv]
      | true =>
          have hm := mem_accesses (fun t ↦ (ins t).host) ht hv
          rw [show accesses (fun t ↦ (ins t).host) k = _ from hk.before] at hm
          simp only [List.mem_cons, List.not_mem_nil, or_false] at hm
          rcases hm with hm | hm | hm <;> rw [hm] <;> rfl
    · rw [hstart, decide_eq_true rfl, Mmio.startsDma]
      exact d.ctl_start
    · rw [decide_eq_false (by omega)]
      cases hv : (ins t).host.valid with
      | false => simp [Mmio.startsDma, Mmio.writesReg, Mmio.writes, hv]
      | true => rcases hrest t ht hv with hm | hm <;> rw [hm] <;> rfl
  · rw [ShellSys.cfg, shell_run, hk.cfg, d.ctl_dir]
  · cases hv : (ins t).host.valid with
    | false => simp [Mmio.bufReq, hv]
    | true => simp [Mmio.bufReq, (hkinds _ (hmem t hv)).2]
  · rcases Nat.eq_or_lt_of_le ht with rfl | ht
    · rw [hstart]
      rfl
    · have hm := mem_accesses (fun t ↦ (ins t).host) ht hv
      rw [show accesses (fun t ↦ (ins t).host) k = _ from hk.before] at hm
      simp only [List.mem_cons, List.not_mem_nil, or_false] at hm
      rcases hm with hm | hm | hm <;> rw [hm] <;> rfl
  · rcases hrest t ht hv with hm | hm
    · exact hm
    · rw [hm] at hw
      exact absurd hw (by decide)

/-! ## Polls -/

section Driven

variable {k n : ℕ} (hd : Driven x ins d k n)
include hd

theorem isBufR_of_driven {t : ℕ} (ht : k + 1 ≤ t) :
    (run ins x t).shell.regs.isBufR = false := by
  have hstep : ∀ u, (run ins x (u + 1)).shell.regs.isBufR =
      if (ins u).host.valid then (ins u).host.isBuf else (run ins x u).shell.regs.isBufR := fun u ↦
    congrArg NpuCtrlRegs.isBufR (NpuShell.regs_step (hd.one.stableAt u))
  induction t, ht using Nat.le_induction with
  | base =>
      rw [hstep, hd.start]
      rfl
  | succ t ht ih =>
      rw [hstep]
      have hreq := hd.noBuf t
      cases hv : (ins t).host.valid with
      | true => simpa [Mmio.bufReq, hv] using hreq
      | false => simpa using ih

/-- A poll after the start reads the busy wire. -/
theorem mmioRdata_of_driven {t : ℕ} (ht : k + 1 ≤ t) (hread : (ins t).host = .read regDmaStatus) :
    ((run ins x t).shell.mmioRdata (shellIns x ins t)).getLsbD 0 =
      (run ins x t).shell.dma.dmaBusy := by
  rw [NpuShell.mmioRdata, isBufR_of_driven hd ht, if_neg Bool.false_ne_true, NpuShell.regRdata,
    show (shellIns x ins t).host = _ from hread]
  change ((run ins x t).shell.regs.regRdata regDmaStatus _ _ _).getLsbD 0 = _
  rw [NpuCtrlRegs.regRdata_dmaStatus]
  cases (run ins x t).shell.dma.dmaBusy <;> rfl

theorem notBusy_after {r t : ℕ} (hr : k + 2 ≤ r) (hb : (run ins x r).shell.dma.dmaBusy = false)
    (ht : r ≤ t) : (run ins x t).shell.dma.dmaBusy = false := by
  induction t, ht using Nat.le_induction with
  | base => exact hb
  | succ t ht ih =>
      exact Bool.eq_false_iff.mpr fun hbusy ↦ absurd
        (ih.symm.trans (hd.one.busy_of_busy_succ (hr.trans ht) hbusy)) Bool.false_ne_true

/-- A poll that reads idle, two cycles after the start or later, comes after
the transfer. -/
theorem notBusy_of_poll (hgap : (ins (k + 1)).host.valid = false) {r : ℕ} (hr : r < n)
    (hv : (ins r).host.valid = true) (hw : (ins r).host.wr = false)
    (hbit : ((run ins x r).shell.mmioRdata (shellIns x ins r)).getLsbD 0 = false) :
    k + 2 ≤ n ∧ (run ins x n).shell.dma.dmaBusy = false := by
  have hkr : k < r := by
    by_contra hle
    exact absurd ((hd.before r (by omega) hv).symm.trans hw) (by decide)
  have hne : r ≠ k + 1 := by
    rintro rfl
    exact absurd (hgap.symm.trans hv) Bool.false_ne_true
  rw [mmioRdata_of_driven hd hkr (hd.after r hkr hv hw)] at hbit
  exact ⟨by omega, notBusy_after hd (r := r) (by omega) hbit hr.le⟩

end Driven

/-! ## Bytes -/

theorem locate_zero : locate 0 = none := rfl

theorem setWidth_add_ofNat (loc : BitVec 32) (i : ℕ) :
    loc.setWidth 20 + .ofNat 20 i = .ofNat 20 (loc.toNat + i) := by
  apply BitVec.eq_of_toNat_eq
  simp [Nat.add_mod]

/-- A range all of whose addresses select an entry does not wrap around. -/
theorem locAt_eq {loc : BitVec 32} {len : ℕ} (hloc : loc.toNat < 2 ^ 20)
    (hall : ∀ i < len, (locate (loc.setWidth 20 + .ofNat 20 i)).isSome = true) {i : ℕ}
    (hi : i < len) : locAt loc i = locate (loc.setWidth 20 + .ofNat 20 i) := by
  have hlt : loc.toNat + i < 2 ^ 20 := by
    by_contra hge
    have hzero := hall (2 ^ 20 - loc.toNat) (by omega)
    rw [setWidth_add_ofNat, Nat.add_sub_cancel' hloc.le,
      show BitVec.ofNat 20 (2 ^ 20) = 0 from rfl, locate_zero] at hzero
    exact Bool.false_ne_true hzero
  rw [locAt, if_pos hlt, setWidth_add_ofNat]

theorem sramWrites_writes (j : CopyJob 32 20) (m : BitVec 32 → MmioData) (n : ℕ) :
    sramWrites (j.writes m n) = (List.range n).flatMap fun i ↦
      ((locate (j.dstAt i)).map fun l ↦ (l, l.trim (m (j.srcAt i)))).toList := by
  simp [sramWrites, CopyJob.writes, List.flatMap_map]

section Copied

variable {k n : ℕ} (hd : Driven x ins d k n) (hc : Sound ins d) (hkn : k + 2 ≤ n)
  (hb : (run ins x n).shell.dma.dmaBusy = false)
include hd hc

omit hc in
theorem job_of_driven : DmaSys.readJob (cfg x ins k) =
      ⟨d.extAddr, d.locAddr.setWidth 20, d.len.setWidth 16⟩ ∧
    DmaSys.writeJob (cfg x ins k) = ⟨d.locAddr.setWidth 20, d.extAddr, d.len.setWidth 16⟩ := by
  rw [hd.cfg]
  exact ⟨rfl, rfl⟩

theorem len_of_driven : (cfg x ins k).len.toNat = d.len.toNat := by
  rw [hd.cfg]
  exact (BitVec.toNat_setWidth ..).trans (Nat.mod_eq_of_lt hc.lenLt)

include hkn hb

theorem copied_toDevice (hdir : d.fromDevice = false) : d.Copied x (run ins x n) := by
  have hcfg : (cfg x ins k).dir = false := (congrArg DmaCfg.dir hd.cfg).trans hdir
  have hlen := len_of_driven hd hc
  obtain ⟨-, hlog, hmem⟩ := hd.one.toDevice_moved hcfg (hlen ▸ hc.lenPos) hkn hb
  rw [(job_of_driven hd).1, hlen] at hlog
  have hall : ∀ i < d.len.toNat,
      (locate (d.locAddr.setWidth 20 + .ofNat 20 i)).isSome = true := fun i hi ↦ by
    refine hd.one.located (view (run ins x (k + 2)).shell.mem) n
      (.write _ (x.ext.mem (d.extAt i))) ?_
    rw [hlog]
    exact List.mem_map.mpr ⟨i, List.mem_range.mpr hi, rfl⟩
  have hlook := hd.one.look_quiet (view (run ins x (k + 2)).shell.mem) hd.noBuf n
  rw [hlog, sramWrites_writes] at hlook
  -- The entries written, one for each byte.
  have hwrites : ∀ i < d.len.toNat, ∃ l, locAt d.locAddr i = some l ∧
      ((locate (d.locAddr.setWidth 20 + .ofNat 20 i)).map fun l ↦
        (l, l.trim (x.ext.mem (d.extAt i)))).toList = [(l, l.trim (x.ext.mem (d.extAt i)))] := by
    intro i hi
    obtain ⟨l, hl⟩ := Option.isSome_iff_exists.mp (hall i hi)
    exact ⟨l, (locAt_eq hc.locLt hall hi).trans hl, by rw [hl]; rfl⟩
  choose! loc hloc hentry using hwrites
  have hflat : ((List.range d.len.toNat).flatMap fun i ↦
      ((locate (d.locAddr.setWidth 20 + .ofNat 20 i)).map fun l ↦
        (l, l.trim (x.ext.mem (d.extAt i)))).toList) =
      (List.range d.len.toNat).map fun i ↦ (loc i, (loc i).trim (x.ext.mem (d.extAt i))) := by
    rw [List.map_eq_flatMap]
    exact List.flatMap_congr fun i hi ↦ hentry i (List.mem_range.mp hi)
  replace hlook := hlook.trans (congrArg (WriteLog.replay x.shell.mem.look) hflat)
  refine ⟨fun i hi ↦ ⟨loc i, hloc i hi, ?_⟩, fun l hl ↦ ?_, fun e _ ↦ congrFun hmem e⟩
  · rw [hdir, if_neg Bool.false_ne_true, hlook]
    refine WriteLog.replay_of_mem ?_ (List.mem_map.mpr ⟨i, List.mem_range.mpr hi, rfl⟩)
    rw [List.map_map]
    refine List.Nodup.map_on (fun a ha b hb' hab ↦ ?_) List.nodup_range
    have ha := List.mem_range.mp ha
    have hb' := List.mem_range.mp hb'
    exact hc.oneEach hdir a ha b hb' (loc a) (hloc a ha)
      ((hloc b hb').trans (congrArg some (show loc b = loc a from hab.symm)))
  · rw [hlook]
    refine WriteLog.replay_of_notMem fun w hw ↦ ?_
    obtain ⟨i, hi, rfl⟩ := List.mem_map.mp hw
    exact fun heq ↦ hl hdir i (List.mem_range.mp hi)
      ((hloc i (List.mem_range.mp hi)).trans (congrArg some heq))

theorem copied_fromDevice (hdir : d.fromDevice = true) : d.Copied x (run ins x n) := by
  have hcfg : (cfg x ins k).dir = true := (congrArg DmaCfg.dir hd.cfg).trans hdir
  have hlen := len_of_driven hd hc
  obtain ⟨hlog, -, hmem⟩ := hd.one.fromDevice_moved hcfg (hlen ▸ hc.lenPos) hkn hb
  rw [(job_of_driven hd).2, hlen] at hlog hmem
  have hall : ∀ i < d.len.toNat,
      (locate (d.locAddr.setWidth 20 + .ofNat 20 i)).isSome = true := fun i hi ↦ by
    refine hd.one.located (view (run ins x (k + 2)).shell.mem) n (.read _) ?_
    rw [hlog]
    exact List.mem_map.mpr ⟨i, List.mem_range.mpr hi, rfl⟩
  have hlook : ∀ t, (run ins x t).shell.mem.look = x.shell.mem.look := by
    intro t
    rw [hd.one.look_quiet (view (run ins x (k + 2)).shell.mem) hd.noBuf t,
      hd.one.sramWrites_fromDevice hcfg]
    rfl
  have hext : (d.len.setWidth 16).toNat = d.len.toNat :=
    (BitVec.toNat_setWidth ..).trans (Nat.mod_eq_of_lt hc.lenLt)
  refine ⟨fun i hi ↦ ?_, fun l _ ↦ congrFun (hlook n) l, fun e he ↦ ?_⟩
  · obtain ⟨l, hl⟩ := Option.isSome_iff_exists.mp (hall i hi)
    refine ⟨l, (locAt_eq hc.locLt hall hi).trans hl, ?_⟩
    rw [hdir, if_pos rfl, hmem]
    refine (Copier.written_apply (j := ⟨d.locAddr.setWidth 20, d.extAddr, d.len.setWidth 16⟩)
      (by decide) hext.ge hi).trans ?_
    change view _ (d.locAddr.setWidth 20 + .ofNat 20 i) = _
    rw [view, hl, Option.elim_some, hlook]
  · rw [hmem]
    exact Copier.written_of_ne fun i hi ↦ he hdir i hi

end Copied

/-- A transfer that the driver reports as done is done, when its request fits
the registers and no poll comes in the cycle after the start. -/
theorem dma_transfer_copies {n : ℕ} (hx : x.Idle) (hbe : ∀ t, (ins t).core.be.outWrReq = false)
    (hc : Sound ins d) (hret : ReturnsZero x ins d n) : d.Copied x (run ins x n) := by
  obtain ⟨i, -, hacc, hpolls⟩ := hret
  obtain ⟨r, hr, hv, hw, hbit⟩ := readValues_mem (b := false)
    (by rw [hpolls]; exact List.mem_append_right _ List.mem_cons_self)
  -- What the host does after cycle `n` does not matter.
  have hsame : ∀ t < n, ins t = quietAfter ins n t := fun t ht ↦ (quietAfter_of_lt ht).symm
  have hrun := run_congr (x := x) hsame
  have hacc' : accesses (fun t ↦ (quietAfter ins n t).host) n = d.lgnpuDmaTransfer i := by
    rw [← hacc]
    exact accesses_congr fun t ht ↦ by rw [hsame t ht]
  have hc' := hc.quietAfter n
  obtain ⟨k, hd⟩ := exists_driven (d := d) hx (fun t ↦ by rw [quietAfter_core, hbe t]) hacc'
    fun t ht ↦ by rw [quietAfter_host ht]; rfl
  have hgap : (quietAfter ins n (k + 1)).host.valid = false := hc'.gap k <| by
    rw [hd.start, Mmio.startsDma]
    exact d.ctl_start
  rw [hsame r hr] at hv hw
  rw [show shellIns x ins r = shellIns x (quietAfter ins n) r by
    rw [shellIns, shellIns, hrun r hr.le, hsame r hr], hrun r hr.le] at hbit
  obtain ⟨hkn, hb⟩ := notBusy_of_poll hd hgap hr hv hw hbit
  rw [hrun n le_rfl]
  cases hdir : d.fromDevice with
  | false => exact copied_toDevice hd hc' hkn hb hdir
  | true => exact copied_fromDevice hd hc' hkn hb hdir

/-! ## One byte, polled late and polled early -/

/-- One byte to the first activation entry. -/
def oneByte : LgnpuIoctlDma := ⟨0x1000, 0x20000, 1, 0⟩

/-- Out of reset, every external byte 7. -/
def sevens : ShellSys := ⟨.reset (fun _ ↦ 0) fun _ ↦ 0, fun _ ↦ 7, none, []⟩

/-- The host's accesses beside an external memory that grants and answers at
once. -/
def prompt (host : ℕ → Mmio) (t : ℕ) : SysIn := ⟨host t, ⟨true, true, 0⟩, .idle⟩

/-- The program of one byte, one poll in cycle `p` and the clearing of the
interrupt after it. -/
def pollAt (p t : ℕ) : Mmio :=
  if t = 0 then .write regDmaExtAddr 0x1000
  else if t = 1 then .write regDmaLocAddr 0x20000
  else if t = 2 then .write regDmaLen 1
  else if t = 3 then .write regDmaCtrl 1
  else if t = p then .read regDmaStatus
  else if t = p + 1 then .write regIrqClear 1
  else .idle

theorem sevens_idle : sevens.Idle := ⟨⟨rfl, rfl, rfl⟩, ⟨rfl, rfl, rfl⟩, rfl, rfl⟩

theorem dma_transfer_copies_oneByte : oneByte.Copied sevens (run (prompt (pollAt 8)) sevens 10) := by
  refine dma_transfer_copies sevens_idle (fun _ ↦ rfl) ⟨by decide, by decide, by decide, ?_, ?_⟩
    ⟨0, by decide, rfl, rfl⟩
  · intro _ i hi j hj _ _ _
    have hi : i < 1 := hi
    have hj : j < 1 := hj
    omega
  · rintro (_ | _ | _ | _ | t) hs
    · exact absurd hs Bool.false_ne_true
    · exact absurd hs Bool.false_ne_true
    · exact absurd hs Bool.false_ne_true
    · rfl
    · have hctrl : (pollAt 8 (t + 4)).startsDma = false := by
        simp only [pollAt]
        split_ifs <;> first | omega | rfl
      exact absurd (hctrl.symm.trans hs) Bool.false_ne_true

/-- Polled in the cycle after the start, the transfer is reported as done
before its byte has moved. -/
theorem not_copied_oneByte : sevens.Idle ∧ ReturnsZero sevens (prompt (pollAt 4)) oneByte 6 ∧
    ¬oneByte.Copied sevens (run (prompt (pollAt 4)) sevens 6) := by
  refine ⟨sevens_idle, ⟨0, by decide, rfl, rfl⟩, fun h ↦ ?_⟩
  obtain ⟨l, hl, hmoved⟩ := h.moved 0 (by decide)
  obtain rfl := Option.some.inj (hl.symm.trans (show locAt 0x20000 0 = some (.act 0) from rfl))
  exact absurd hmoved (by decide)

end ShellSys

end LgNpu
