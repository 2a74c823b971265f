import LgNpu.Lib.Region
import LgNpu.Sw.Command
import LgNpu.Tb.Harness

/-!
# What the harness writes

`load_bytes`, the sixteen words and the doorbell of a submission, and the
`read_bytes` that follows; what they do to the ideal device.
-/

namespace LgNpu

open NpuCore

namespace NpuTb

def weightBase : MmioData := 0x10000
def actBase : MmioData := 0x20000
def cmdBase : MmioData := 0x1000

/-- The pins take the low 20 bits of an address. -/
def mmioWrite (addr data : MmioData) : Mmio := .write (addr.setWidth 20) data

def mmioRead (addr : MmioData) : Mmio := .read (addr.setWidth 20)

def loadBytes (base : MmioData) (data : List Byte) : List Mmio :=
  (List.range data.length).map fun i ↦
    mmioWrite (base + .ofNat 32 i) ((data.getD i 0).setWidth 32)

/-- The window writes of `submit_conv` and its siblings. -/
def submitWords (words : NpuCmdDesc) : List Mmio :=
  (List.range 16).map fun i ↦ mmioWrite (cmdBase + .ofNat 32 i * 4) (words (.ofNat 4 i))

/-- The reads of `read_bytes`. -/
def readsOf (base : MmioData) (count : ℕ) : List Mmio :=
  (List.range count).map fun i ↦ mmioRead (base + .ofNat 32 i)

/-- One of the `run_*_test` functions: what it writes before the doorbell,
where it reads, and what it expects there. -/
structure Test where
  loads : List Mmio
  outBase : MmioData
  expected : List Byte

namespace Test

variable (p : Test) (env : ℕ → DeviceIn) (w : ℕ) (x : Watched)

def script : List (Option Mmio) := scriptOf p.loads w (readsOf p.outBase p.expected.length)

def ins : ℕ → DeviceIn := drive env (p.script w)

/-- What `read_bytes` returns. -/
def got : List Byte :=
  (List.range p.expected.length).map fun j ↦
    (sampled (p.ins env w) x (p.loads.length + 1 + w + j) &&& 0xFF).setWidth 8

/-- No access waits, and the output is the expected one. -/
structure Passes : Prop where
  prompt : ∀ t m, (p.script w)[t]? = some (some m) → prompt (p.ins env w) x t = true
  got : p.got env w x = p.expected

end Test

/-! ## Addresses -/

theorem toNat_bus {base : MmioData} {n : ℕ} (h : base.toNat + n < 2 ^ 20) :
    ((base + .ofNat 32 n).setWidth 20).toNat = base.toNat + n := by
  rw [BitVec.toNat_setWidth, BitVec.toNat_add, BitVec.toNat_ofNat]
  omega

theorem bus_assoc (base addr : MmioData) (i : ℕ) :
    base + addr + .ofNat 32 i = base + .ofNat 32 (addr.toNat + i) := by
  rw [BitVec.ofNat_add, BitVec.ofNat_toNat, BitVec.setWidth_eq, BitVec.add_assoc]

section Windows

variable {n : ℕ}

theorem locate_weight (h : n < 4096) :
    locate ((weightBase + .ofNat 32 n).setWidth 20) = some (.wt (.ofNat 12 n)) := by
  have hnat : ((weightBase + .ofNat 32 n).setWidth 20).toNat = 0x10000 + n :=
    toNat_bus (by simp [weightBase]; omega)
  have hidx : ((weightBase + .ofNat 32 n).setWidth 20).setWidth 12 = BitVec.ofNat 12 n := by
    apply BitVec.eq_of_toNat_eq
    rw [BitVec.toNat_setWidth, hnat, BitVec.toNat_ofNat]
    omega
  have hsel : NpuMemTop.hostSelWt ((weightBase + .ofNat 32 n).setWidth 20) = true := by
    simp only [NpuMemTop.hostSelWt, BitVec.ult_eq_decide, hnat]
    simp [weightBufBase, actBufBase]
    omega
  rw [locate, if_pos hsel, hidx]

theorem locate_act (h : n < 8192) :
    locate ((actBase + .ofNat 32 n).setWidth 20) = some (.act (.ofNat 13 n)) := by
  have hnat : ((actBase + .ofNat 32 n).setWidth 20).toNat = 0x20000 + n :=
    toNat_bus (by simp [actBase]; omega)
  have hidx : ((actBase + .ofNat 32 n).setWidth 20).setWidth 13 = BitVec.ofNat 13 n := by
    apply BitVec.eq_of_toNat_eq
    rw [BitVec.toNat_setWidth, hnat, BitVec.toNat_ofNat]
    omega
  have hwt : NpuMemTop.hostSelWt ((actBase + .ofNat 32 n).setWidth 20) = false := by
    simp only [NpuMemTop.hostSelWt, BitVec.ult_eq_decide, hnat]
    simp [weightBufBase, actBufBase]
  have hsel : NpuMemTop.hostSelAct ((actBase + .ofNat 32 n).setWidth 20) = true := by
    simp only [NpuMemTop.hostSelAct, BitVec.ult_eq_decide, hnat]
    simp [actBufBase, psumBufBase]
    omega
  rw [locate, hwt, if_neg Bool.false_ne_true, if_pos hsel, hidx]

theorem isCmdQueue_cmd (h : n < 16) :
    Mmio.isCmdQueue (mmioWrite (cmdBase + .ofNat 32 n * 4) 0) = true ∧
      windowIdx ((cmdBase + .ofNat 32 n * 4).setWidth 20) = .ofNat 4 n := by
  interval_cases n <;> exact ⟨rfl, rfl⟩

end Windows

end NpuTb

/-! ## Writing a region -/

namespace Ideal

open NpuTb

variable {a : Ideal}

theorem after_range {f : ℕ → Mmio} {g : ℕ → Ideal} {n : ℕ}
    (h : ∀ i < n, (g i).step (f i) = g (i + 1)) : (g 0).after ((List.range n).map f) = g n := by
  induction n with
  | zero => rfl
  | succ n ih =>
      rw [List.range_succ, List.map_append, after_append, ih fun i hi ↦ h i (by omega)]
      exact h n (Nat.lt_succ_self n)

/-- A buffer write reaches the entry it selects and nothing else. -/
theorem step_of_locate {addr data : MmioData} {l : SramLoc}
    (h : locate (addr.setWidth 20) = some l) :
    a.step (mmioWrite addr data) = { a with sram := a.sram.store l data } := by
  have hbuf : (mmioWrite addr data).isBuf = true := by
    rw [NpuShell.isBuf_eq]
    exact Option.isSome_iff_exists.mpr ⟨l, h⟩
  have hreg : (mmioWrite addr data).isReg = false := NpuShell.isReg_of_isBuf hbuf
  have hcmd : (mmioWrite addr data).isCmdQueue = false := by
    simp only [Mmio.isBuf, Bool.not_eq_true'] at hbuf
    simp [Mmio.isCmdQueue, hbuf]
  have hrings := Mmio.rings_of_not_isReg hreg
  rw [step, hrings, hcmd, Bool.and_false, if_neg Bool.false_ne_true, if_neg Bool.false_ne_true]
  change Ideal.mk ((locate (addr.setWidth 20)).elim _ _) _ _ = _
  rw [h]
  rfl

theorem step_of_isCmdQueue {addr data : MmioData} {k : BitVec 4}
    (h : (mmioWrite addr 0).isCmdQueue = true) (hk : windowIdx (addr.setWidth 20) = k) :
    a.step (mmioWrite addr data) =
      { a with window := Function.update a.window k data } := by
  have hreg : (mmioWrite addr data).isReg = false := by
    simp only [Mmio.isCmdQueue, Bool.and_eq_true, Bool.not_eq_true'] at h
    exact h.1
  have hnone : locate (addr.setWidth 20) = none := by
    simp only [Mmio.isCmdQueue, Bool.and_eq_true] at h
    apply Option.not_isSome_iff_eq_none.mp
    rw [isSome_locate]
    simp only [Bool.not_eq_true', Bool.not_eq_false]
    exact h.2
  have hrings := Mmio.rings_of_not_isReg hreg
  have hcmd : (mmioWrite addr data).isCmdQueue = true := h
  rw [step, hrings, hcmd, if_neg Bool.false_ne_true]
  change Ideal.mk ((locate (addr.setWidth 20)).elim _ _)
    (Function.update a.window (windowIdx (addr.setWidth 20)) data) _ = _
  rw [hnone, hk]
  rfl

section Loads

variable {addr : MmioData} {data : List Byte}

theorem after_loadBytes_weight (h : addr.toNat + data.length ≤ 4096) :
    a.after (loadBytes (weightBase + addr) data) =
      { a with sram := { a.sram with
        wt := WriteLog.replay a.sram.wt
          (Region.cells 12 addr.toNat data.length fun i ↦ data.getD i 0) } } := by
  refine @after_range _ (fun n ↦ { a with sram := { a.sram with
    wt := WriteLog.replay a.sram.wt (Region.cells 12 addr.toNat n fun i ↦ data.getD i 0) } }) _
    fun i hi ↦ ?_
  have hloc := locate_weight (n := addr.toNat + i) (by omega)
  rw [← bus_assoc] at hloc
  rw [step_of_locate hloc]
  simp only [Region.cells_succ, WriteLog.replay_concat, Sram.store, BitVec.setWidth_setWidth_of_le,
    BitVec.setWidth_eq, Nat.reduceLeDiff]

theorem after_loadBytes_act (h : addr.toNat + data.length ≤ 8192) :
    a.after (loadBytes (actBase + addr) data) =
      { a with sram := { a.sram with
        act := WriteLog.replay a.sram.act
          (Region.cells 13 addr.toNat data.length fun i ↦ data.getD i 0) } } := by
  refine @after_range _ (fun n ↦ { a with sram := { a.sram with
    act := WriteLog.replay a.sram.act (Region.cells 13 addr.toNat n fun i ↦ data.getD i 0) } }) _
    fun i hi ↦ ?_
  have hloc := locate_act (n := addr.toNat + i) (by omega)
  rw [← bus_assoc] at hloc
  rw [step_of_locate hloc]
  simp only [Region.cells_succ, WriteLog.replay_concat, Sram.store, BitVec.setWidth_setWidth_of_le,
    BitVec.setWidth_eq, Nat.reduceLeDiff]

end Loads

/-- The sixteen words fill the window. -/
theorem after_submitWords (words : NpuCmdDesc) :
    a.after (submitWords words) = { a with window := words } := by
  have hfill : ∀ n, n ≤ 16 → a.after ((List.range n).map fun i ↦
      mmioWrite (cmdBase + .ofNat 32 i * 4) (words (.ofNat 4 i))) =
        { a with
          window := WriteLog.replay a.window (Region.cells 4 0 n fun i ↦ words (.ofNat 4 i)) } := by
    intro n hn
    refine @after_range _ (fun n ↦ { a with
      window := WriteLog.replay a.window (Region.cells 4 0 n fun i ↦ words (.ofNat 4 i)) }) n
        fun i hi ↦ ?_
    obtain ⟨hcmd, hidx⟩ := isCmdQueue_cmd (hi.trans_le hn)
    rw [step_of_isCmdQueue hcmd hidx, Region.cells_succ, WriteLog.replay_concat, Nat.zero_add]
  rw [submitWords, hfill 16 le_rfl]
  congr 1
  funext k
  have hheld := @Region.holds_cells _ 4 0 16 (fun i ↦ words (.ofNat 4 i)) a.window le_rfl
    k.toNat k.isLt
  simpa using hheld

end Ideal

namespace NpuTb

theorem loads_loadBytes {base addr : MmioData} {data : List Byte} {n : ℕ}
    (hn : base.toNat + n ≤ 2 ^ 20) (hbase : 0x10000 ≤ base.toNat)
    (h : addr.toNat + data.length ≤ n) : ∀ m ∈ loadBytes (base + addr) data, m.loads = true := by
  intro m hm
  obtain ⟨i, hi, rfl⟩ := List.mem_map.mp hm
  have hi' := List.mem_range.mp hi
  have hbuf : Mmio.isBuf (mmioWrite (base + addr + .ofNat 32 i) ((data.getD i 0).setWidth 32)) =
      true := by
    change (!((base + addr + .ofNat 32 i).setWidth 20).ult weightBufBase) = true
    rw [bus_assoc, BitVec.ult_eq_decide, toNat_bus (by omega)]
    simp [weightBufBase]
    omega
  rw [Mmio.loads, hbuf]
  rfl

theorem loads_submitWords (words : NpuCmdDesc) : ∀ m ∈ submitWords words, m.loads = true := by
  intro m hm
  obtain ⟨i, hi, rfl⟩ := List.mem_map.mp hm
  have hcmd := (isCmdQueue_cmd (List.mem_range.mp hi)).1
  change (true && (_ || Mmio.isCmdQueue (mmioWrite (cmdBase + .ofNat 32 i * 4) 0))) = true
  rw [hcmd, Bool.or_true]
  rfl

theorem byte_of_raw (b : Byte) : ((b.setWidth 32 : MmioData) &&& 0xFF).setWidth 8 = b := by
  ext i hi
  interval_cases i <;> simp

/-- A test passes after a long enough wait when the ideal device holds what it
expects. -/
theorem Test.passes {p : Test} {env : ℕ → DeviceIn} {x : Watched} {a : Ideal} (hx : x.Rest a)
    (hq : 9 ≤ x.quiet) (henv : ∀ t, (env t).host.polls = true)
    (hl : ∀ m ∈ p.loads, m.loads = true)
    (hs : (a.after p.loads).sram.Servable (a.after p.loads).window) {addr : MmioData}
    (hbase : p.outBase = actBase + addr) (hfit : addr.toNat + p.expected.length ≤ 8192)
    (hout : Region.Holds ((a.after p.loads).sram.exec (a.after p.loads).window).act addr.toNat
      p.expected.length fun i ↦ p.expected.getD i 0) :
    ∃ W, ∀ w, W ≤ w → p.Passes env w x := by
  obtain ⟨W, hW⟩ := reads_back hx hq hl henv hs
  refine ⟨W, fun w hw ↦ ?_⟩
  have hloc : ∀ i < p.expected.length, locate ((p.outBase + .ofNat 32 i).setWidth 20) =
      some (.act (.ofNat 13 (addr.toNat + i))) := by
    intro i hi
    rw [hbase, bus_assoc]
    exact locate_act (by omega)
  have hreads : ∀ m ∈ readsOf p.outBase p.expected.length, m.readsBuf = true := by
    intro m hm
    obtain ⟨i, hi, rfl⟩ := List.mem_map.mp hm
    have hbuf : (mmioRead (p.outBase + .ofNat 32 i)).isBuf = true := by
      rw [NpuShell.isBuf_eq]
      exact Option.isSome_iff_exists.mpr ⟨_, hloc i (List.mem_range.mp hi)⟩
    simp only [Mmio.readsBuf, hbuf]
    rfl
  obtain ⟨hprompt, hdata⟩ := hW w hw _ hreads
  refine ⟨hprompt, ?_⟩
  apply List.ext_getElem
  · simp [Test.got]
  · intro j hj hj'
    have hlen : j < (readsOf p.outBase p.expected.length).length := by simpa [readsOf] using hj'
    have hread : (readsOf p.outBase p.expected.length)[j] =
        mmioRead (p.outBase + .ofNat 32 j) := by simp [readsOf]
    have hsample := hdata j hlen (.act (.ofNat 13 (addr.toNat + j))) (by
      rw [hread]
      exact hloc j hj')
    simp only [Test.got, List.getElem_map, List.getElem_range]
    refine (congrArg (fun d : MmioData ↦ (d &&& 0xFF).setWidth 8) hsample).trans ?_
    rw [Sram.load, byte_of_raw]
    exact (hout j hj').trans (List.getD_eq_getElem _ _ hj')

/-- A table of bytes stored one after another. -/
theorem holds_store {m : BitVec 13 → Byte} {base n : ℕ} {v v' : ℕ → Byte} {out : List Byte}
    (hfit : base + n ≤ 8192) (hout : out = (List.range n).map v') (hv : ∀ e < n, v e = v' e) :
    Region.Holds (store m ((List.range n).map fun e ↦ (.ofNat 16 (base + e), v e))) base out.length
      fun i ↦ out.getD i 0 := by
  have hcells : sramWrites ((List.range n).map fun e ↦ (.ofNat 16 (base + e), v e)) =
      Region.cells 13 base n v := by
    rw [sramWrites, List.map_map, Region.cells]
    exact List.map_congr_left fun e _ ↦ Prod.ext (setWidth13_ofNat _) rfl
  rw [store, hcells]
  subst hout
  rw [List.length_map, List.length_range]
  refine (Region.holds_cells hfit).congr fun e he ↦ ?_
  rw [hv e he, List.getD_eq_getElem _ _ (by simpa using he)]
  simp

/-- It is enough that the command is in range and its table is the expected
vector. -/
theorem Test.passes_of_table {p : Test} {env : ℕ → DeviceIn} {x : Watched} {a : Ideal}
    {words : NpuCmdDesc} {b : BackendId} {cmd : BeCmd b} {addr : MmioData} {n : ℕ}
    {v v' : ℕ → Byte} (hx : x.Rest a) (hq : 9 ≤ x.quiet) (henv : ∀ t, (env t).host.polls = true)
    (hl : ∀ m ∈ p.loads, m.loads = true) (hwords : (a.after p.loads).window = words)
    (hop : (packCmd words).opcode = b.opcode) (hcmd : beCmd (packCmd words) b = cmd)
    (hproper : Proper b cmd) (hserved : Served b cmd (a.after p.loads).sram.act)
    (hbase : p.outBase = actBase + addr) (hfit : addr.toNat + n ≤ 8192)
    (htable : refWrites b cmd (a.after p.loads).sram.act (a.after p.loads).sram.wt =
      (List.range n).map fun e ↦ (.ofNat 16 (addr.toNat + e), v e))
    (hexpected : p.expected = (List.range n).map v') (hv : ∀ e < n, v e = v' e) :
    ∃ W, ∀ w, W ≤ w → p.Passes env w x := by
  subst hcmd hwords
  apply Test.passes hx hq henv hl (Sram.servable_of hop hproper hserved) hbase
  · rwa [hexpected, List.length_map, List.length_range]
  · rw [Sram.exec_eq hop, htable]
    exact holds_store hfit hexpected hv

end NpuTb

end LgNpu
