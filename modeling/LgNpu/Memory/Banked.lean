import LgNpu.Memory
import LgNpu.Lib.Clocked

/-!
# The SRAM wrappers on Sky130 macros

The `g_sky130` branches of `mem_macro_1rw1r_wrap` and `mem_macro_wrap` tile
512-row macros along a bank axis.  They return the data of the flop branches
and keep the same contents, whatever a macro drives on a port that writes.
-/

namespace LgNpu

/-! ## The macro -/

/-- The inputs of a `sky130_sram_2kbyte_1rw1r_32x512_8` in one cycle. -/
structure SramPins where
  csb0 : Bool
  web0 : Bool
  wmask0 : BitVec 4
  addr0 : BitVec 9
  din0 : BitVec 32
  csb1 : Bool
  addr1 : BitVec 9

/-- The macro, its array seen as `word`. -/
structure SramMacro (μ : Type*) where
  edge : μ → SramPins → μ
  word : μ → BitVec 9 → BitVec 32
  dout0 : μ → BitVec 32
  dout1 : μ → BitVec 32

def byteLane (w : BitVec 32) (l : BitVec 2) : Byte := w.extractLsb' (l.toNat * 8) 8

def ofLanes (f : BitVec 2 → Byte) : BitVec 32 := f 3 ++ f 2 ++ f 1 ++ f 0

theorem byteLane_ofLanes (f : BitVec 2 → Byte) (l : BitVec 2) : byteLane (ofLanes f) l = f l := by
  apply BitVec.eq_of_getLsbD_eq
  intro j hj
  have hcases : l = 0 ∨ l = 1 ∨ l = 2 ∨ l = 3 := by
    revert l
    decide
  rw [byteLane, BitVec.getLsbD_extractLsb', ofLanes]
  simp only [BitVec.getLsbD_append]
  rcases hcases with rfl | rfl | rfl | rfl <;> grind

theorem byteLane_ext {x y : BitVec 32} (h : ∀ l, byteLane x l = byteLane y l) : x = y := by
  apply BitVec.eq_of_getLsbD_eq
  intro j hj
  have hlane := congrArg (fun b ↦ b.getLsbD (j % 8)) (h (.ofNat 2 (j / 8)))
  have hl : (BitVec.ofNat 2 (j / 8)).toNat = j / 8 := by
    rw [BitVec.toNat_ofNat, Nat.mod_eq_of_lt (by omega)]
  simp only [byteLane, BitVec.getLsbD_extractLsb', hl] at hlane
  have hsplit : j / 8 * 8 + j % 8 = j := by omega
  have hlt : j % 8 < 8 := Nat.mod_lt _ (by omega)
  simpa [hsplit, hlt] using hlane

def SramPins.writes (p : SramPins) (r : BitVec 9) (l : BitVec 2) : Bool :=
  !p.csb0 && !p.web0 && p.wmask0.getLsbD l.toNat && p.addr0 == r

/-- A synchronous byte-masked RAM: a read returns the data from before the
edge, and a port that is not selected holds its output. -/
structure SramMacro.Synchronous {μ : Type*} (M : SramMacro μ) : Prop where
  byteLane_edge : ∀ m p r l, byteLane (M.word (M.edge m p) r) l =
    if p.writes r l then byteLane p.din0 l else byteLane (M.word m r) l
  dout0_read : ∀ m p, p.csb0 = false → p.web0 = true → M.dout0 (M.edge m p) = M.word m p.addr0
  dout1_read : ∀ m p, p.csb1 = false → M.dout1 (M.edge m p) = M.word m p.addr1
  dout0_hold : ∀ m p, p.csb0 = true → M.dout0 (M.edge m p) = M.dout0 m
  dout1_hold : ∀ m p, p.csb1 = true → M.dout1 (M.edge m p) = M.dout1 m

/-! ## `mem_macro_1rw1r_wrap` -/

/-- The inputs of both ports in one cycle. -/
structure Ports1rw1r (aw dw : ℕ) where
  aAddr : BitVec aw
  aWdata : BitVec dw
  aWe : Bool
  aEn : Bool
  bAddr : BitVec aw
  bEn : Bool

def MemMacro1rw1r.edge {aw dw : ℕ} (s : MemMacro1rw1r aw dw) (i : Ports1rw1r aw dw) :
    MemMacro1rw1r aw dw :=
  s.step i.aAddr i.aWdata i.aWe i.aEn i.bAddr i.bEn

/-- The banked wrapper with `2 ^ k` banks: `k = 1` for a depth of 4096 and
`k = 2` for 8192. -/
structure BankedMem1rw1r (k : ℕ) (μ : Type*) where
  bank : BitVec k → μ
  aBankR : BitVec k
  aLaneR : BitVec 2
  bBankR : BitVec k
  bLaneR : BitVec 2

namespace BankedMem1rw1r

variable {k : ℕ} {μ : Type*} (M : SramMacro μ)

def lane (addr : BitVec (k + 11)) : BitVec 2 := addr.extractLsb' 0 2

def row (addr : BitVec (k + 11)) : BitVec 9 := addr.extractLsb' 2 9

def bankOf (addr : BitVec (k + 11)) : BitVec k := addr.extractLsb' 11 k

def wmask (i : Ports1rw1r (k + 11) 8) : BitVec 4 :=
  if i.aWe then 1 <<< (lane i.aAddr).toNat else 0

def pins (i : Ports1rw1r (k + 11) 8) (gi : BitVec k) : SramPins where
  csb0 := !(i.aEn && bankOf i.aAddr == gi)
  web0 := !i.aWe
  wmask0 := wmask i
  addr0 := row i.aAddr
  din0 := i.aWdata ++ i.aWdata ++ i.aWdata ++ i.aWdata
  csb1 := !(i.bEn && bankOf i.bAddr == gi)
  addr1 := row i.bAddr

def edge (s : BankedMem1rw1r k μ) (i : Ports1rw1r (k + 11) 8) : BankedMem1rw1r k μ where
  bank gi := M.edge (s.bank gi) (pins i gi)
  aBankR := if i.aEn then bankOf i.aAddr else s.aBankR
  aLaneR := if i.aEn then lane i.aAddr else s.aLaneR
  bBankR := if i.bEn then bankOf i.bAddr else s.bBankR
  bLaneR := if i.bEn then lane i.bAddr else s.bLaneR

variable (s : BankedMem1rw1r k μ)

def aRdata : Byte := byteLane (M.dout0 (s.bank s.aBankR)) s.aLaneR

def bRdata : Byte := byteLane (M.dout1 (s.bank s.bBankR)) s.bLaneR

def contents (addr : BitVec (k + 11)) : Byte :=
  byteLane (M.word (s.bank (bankOf addr)) (row addr)) (lane addr)

/-! The slices determine the address, so a write touches one byte. -/

theorem addr_ext {a b : BitVec (k + 11)} (hlane : lane a = lane b) (hrow : row a = row b)
    (hbank : bankOf a = bankOf b) : a = b := by
  apply BitVec.eq_of_getLsbD_eq
  intro j hj
  have hl := congrArg (fun x ↦ x.getLsbD j) hlane
  have hr := congrArg (fun x ↦ x.getLsbD (j - 2)) hrow
  have hb := congrArg (fun x ↦ x.getLsbD (j - 11)) hbank
  simp only [lane, row, bankOf, BitVec.getLsbD_extractLsb'] at hl hr hb
  by_cases hj2 : j < 2
  · simpa [hj2] using hl
  by_cases hj11 : j < 11
  · simpa [show j - 2 < 9 by omega, show 2 + (j - 2) = j by omega] using hr
  · simpa [show j - 11 < k by omega, show 11 + (j - 11) = j by omega] using hb

theorem getLsbD_wmask (i : Ports1rw1r (k + 11) 8) (l : BitVec 2) :
    (wmask i).getLsbD l.toNat = (i.aWe && lane i.aAddr == l) := by
  rw [wmask]
  cases i.aWe
  · simp
  · generalize lane i.aAddr = n
    revert n l
    decide

theorem writes_pins (i : Ports1rw1r (k + 11) 8) (a : BitVec (k + 11)) :
    (pins i (bankOf a)).writes (row a) (lane a) = (i.aEn && i.aWe && i.aAddr == a) := by
  have haddr : (i.aAddr == a) = (bankOf i.aAddr == bankOf a && row i.aAddr == row a &&
      lane i.aAddr == lane a) := by
    rw [Bool.eq_iff_iff]
    simp only [Bool.and_eq_true, beq_iff_eq]
    exact ⟨fun h ↦ h ▸ ⟨⟨rfl, rfl⟩, rfl⟩, fun h ↦ addr_ext h.2 h.1.2 h.1.1⟩
  rw [haddr, SramPins.writes, show (pins i (bankOf a)).wmask0 = wmask i from rfl, getLsbD_wmask]
  cases hen : i.aEn <;> cases hwe : i.aWe <;>
    simp [pins, hen, hwe, Bool.and_assoc, Bool.and_comm (row i.aAddr == row a)]

variable {M} (hM : M.Synchronous)
include hM

theorem contents_edge (i : Ports1rw1r (k + 11) 8) : (s.edge M i).contents M =
    if i.aEn && i.aWe then Function.update (s.contents M) i.aAddr i.aWdata else s.contents M := by
  funext a
  have hdin : byteLane (pins i (bankOf a)).din0 (lane a) = i.aWdata :=
    byteLane_ofLanes (fun _ ↦ i.aWdata) (lane a)
  have hlane : (s.edge M i).contents M a =
      if i.aEn && i.aWe && i.aAddr == a then i.aWdata else s.contents M a := by
    rw [← writes_pins, ← hdin]
    exact hM.byteLane_edge _ _ _ _
  rw [hlane]
  by_cases ha : a = i.aAddr
  · subst ha
    cases i.aEn && i.aWe <;> simp
  · have hne : (i.aAddr == a) = false := beq_eq_false_iff_ne.mpr (Ne.symm ha)
    cases i.aEn && i.aWe <;> simp [hne, ha]

theorem aRdata_edge (i : Ports1rw1r (k + 11) 8) (hen : i.aEn = true) (hwe : i.aWe = false) :
    (s.edge M i).aRdata M = s.contents M i.aAddr := by
  have hout : M.dout0 (M.edge (s.bank (bankOf i.aAddr)) (pins i (bankOf i.aAddr))) =
      M.word (s.bank (bankOf i.aAddr)) (row i.aAddr) :=
    hM.dout0_read _ _ (by simp [pins, hen]) (by simp [pins, hwe])
  rw [aRdata, contents, ← hout]
  simp [edge, hen]

theorem bRdata_edge (i : Ports1rw1r (k + 11) 8) (hen : i.bEn = true) :
    (s.edge M i).bRdata M = s.contents M i.bAddr := by
  have hout : M.dout1 (M.edge (s.bank (bankOf i.bAddr)) (pins i (bankOf i.bAddr))) =
      M.word (s.bank (bankOf i.bAddr)) (row i.bAddr) :=
    hM.dout1_read _ _ (by simp [pins, hen])
  rw [bRdata, contents, ← hout]
  simp [edge, hen]

omit hM in
/-- Run side by side from equal contents, the banks and the flops keep equal
contents and return equal data one cycle after each enabled read. -/
structure Agrees (M : SramMacro μ) (s : BankedMem1rw1r k μ) (f : MemMacro1rw1r (k + 11) 8)
    (i : ℕ → Ports1rw1r (k + 11) 8) : Prop where
  contents : ∀ t, (Clocked.run (fun t s ↦ s.edge M (i t)) s t).contents M =
    (Clocked.run (fun t f ↦ f.edge (i t)) f t).mem
  aRdata : ∀ t, (i t).aEn = true → (i t).aWe = false →
    (Clocked.run (fun t s ↦ s.edge M (i t)) s (t + 1)).aRdata M =
      (Clocked.run (fun t f ↦ f.edge (i t)) f (t + 1)).aRdata
  bRdata : ∀ t, (i t).bEn = true →
    (Clocked.run (fun t s ↦ s.edge M (i t)) s (t + 1)).bRdata M =
      (Clocked.run (fun t f ↦ f.edge (i t)) f (t + 1)).bRdata

theorem agrees {s : BankedMem1rw1r k μ} {f : MemMacro1rw1r (k + 11) 8}
    (h : s.contents M = f.mem) (i : ℕ → Ports1rw1r (k + 11) 8) : Agrees M s f i := by
  have hcontents : ∀ t, (Clocked.run (fun t s ↦ s.edge M (i t)) s t).contents M =
      (Clocked.run (fun t f ↦ f.edge (i t)) f t).mem := by
    refine Clocked.run_related (fun (s : BankedMem1rw1r k μ) (f : MemMacro1rw1r (k + 11) 8) ↦
      s.contents M = f.mem) h fun t s f hsf ↦ ?_
    rw [contents_edge _ hM, hsf]
    rfl
  refine ⟨hcontents, fun t hen hwe ↦ ?_, fun t hen ↦ ?_⟩
  · rw [Clocked.run_succ, aRdata_edge _ hM _ hen hwe, hcontents]
    simp [Clocked.run_succ, MemMacro1rw1r.edge, MemMacro1rw1r.step, hen, hwe]
  · rw [Clocked.run_succ, bRdata_edge _ hM _ hen, hcontents]
    simp [Clocked.run_succ, MemMacro1rw1r.edge, MemMacro1rw1r.step, hen]

end BankedMem1rw1r

/-! ## `mem_macro_wrap` -/

/-- The inputs of the single port in one cycle. -/
structure Port1rw (aw dw : ℕ) where
  addr : BitVec aw
  wdata : BitVec dw
  we : Bool
  en : Bool

def MemMacro.edge {aw dw : ℕ} (s : MemMacro aw dw) (i : Port1rw aw dw) : MemMacro aw dw :=
  s.step i.addr i.wdata i.we i.en

/-- Eight banks of full words. -/
structure BankedMem (μ : Type*) where
  bank : BitVec 3 → μ
  bankSelR : BitVec 3

namespace BankedMem

variable {μ : Type*} (M : SramMacro μ)

def rowAddr (addr : BitVec 12) : BitVec 9 := addr.extractLsb' 0 9

def bankSel (addr : BitVec 12) : BitVec 3 := addr.extractLsb' 9 3

/-- The pins of bank `gi`; its second port is tied off. -/
def pins (i : Port1rw 12 32) (gi : BitVec 3) : SramPins where
  csb0 := !(i.en && bankSel i.addr == gi)
  web0 := !i.we
  wmask0 := 0b1111
  addr0 := rowAddr i.addr
  din0 := i.wdata
  csb1 := true
  addr1 := 0

def edge (s : BankedMem μ) (i : Port1rw 12 32) : BankedMem μ where
  bank gi := M.edge (s.bank gi) (pins i gi)
  bankSelR := if i.en then bankSel i.addr else s.bankSelR

variable (s : BankedMem μ)

def rdata : BitVec 32 := M.dout0 (s.bank s.bankSelR)

def contents (addr : BitVec 12) : BitVec 32 := M.word (s.bank (bankSel addr)) (rowAddr addr)

theorem addr_ext {a b : BitVec 12} (hrow : rowAddr a = rowAddr b) (hbank : bankSel a = bankSel b) :
    a = b := by
  apply BitVec.eq_of_getLsbD_eq
  intro j hj
  have hr := congrArg (fun x ↦ x.getLsbD j) hrow
  have hb := congrArg (fun x ↦ x.getLsbD (j - 9)) hbank
  simp only [rowAddr, bankSel, BitVec.getLsbD_extractLsb'] at hr hb
  by_cases hj9 : j < 9
  · simpa [hj9] using hr
  · simpa [show j - 9 < 3 by omega, show 9 + (j - 9) = j by omega] using hb

/-- With all lanes enabled a write touches one whole word. -/
theorem writes_pins (i : Port1rw 12 32) (a : BitVec 12) (l : BitVec 2) :
    (pins i (bankSel a)).writes (rowAddr a) l = (i.en && i.we && i.addr == a) := by
  have haddr : (i.addr == a) = (bankSel i.addr == bankSel a && rowAddr i.addr == rowAddr a) := by
    rw [Bool.eq_iff_iff]
    simp only [Bool.and_eq_true, beq_iff_eq]
    exact ⟨fun h ↦ h ▸ ⟨rfl, rfl⟩, fun h ↦ addr_ext h.2 h.1⟩
  have hmask : (0b1111 : BitVec 4).getLsbD l.toNat = true := by
    revert l
    decide
  rw [haddr, SramPins.writes, show (pins i (bankSel a)).wmask0 = 0b1111 from rfl, hmask]
  cases hen : i.en <;> cases hwe : i.we <;> simp [pins, hen, hwe]

variable {M} (hM : M.Synchronous)
include hM

theorem contents_edge (i : Port1rw 12 32) : (s.edge M i).contents M =
    if i.en && i.we then Function.update (s.contents M) i.addr i.wdata else s.contents M := by
  funext a
  have hword : (s.edge M i).contents M a =
      if i.en && i.we && i.addr == a then i.wdata else s.contents M a := by
    refine byteLane_ext fun l ↦ ?_
    have hlane := hM.byteLane_edge (s.bank (bankSel a)) (pins i (bankSel a)) (rowAddr a) l
    rw [writes_pins] at hlane
    rw [apply_ite (byteLane · l)]
    exact hlane
  rw [hword]
  by_cases ha : a = i.addr
  · subst ha
    cases i.en && i.we <;> simp
  · have hne : (i.addr == a) = false := beq_eq_false_iff_ne.mpr (Ne.symm ha)
    cases i.en && i.we <;> simp [hne, ha]

theorem rdata_edge (i : Port1rw 12 32) (hen : i.en = true) (hwe : i.we = false) :
    (s.edge M i).rdata M = s.contents M i.addr := by
  have hout : M.dout0 (M.edge (s.bank (bankSel i.addr)) (pins i (bankSel i.addr))) =
      M.word (s.bank (bankSel i.addr)) (rowAddr i.addr) :=
    hM.dout0_read _ _ (by simp [pins, hen]) (by simp [pins, hwe])
  rw [rdata, contents, ← hout]
  simp [edge, hen]

omit hM in
/-- The single-port wrapper beside its flops. -/
structure Agrees (M : SramMacro μ) (s : BankedMem μ) (f : MemMacro 12 32)
    (i : ℕ → Port1rw 12 32) : Prop where
  contents : ∀ t, (Clocked.run (fun t s ↦ s.edge M (i t)) s t).contents M =
    (Clocked.run (fun t f ↦ f.edge (i t)) f t).mem
  rdata : ∀ t, (i t).en = true → (i t).we = false →
    (Clocked.run (fun t s ↦ s.edge M (i t)) s (t + 1)).rdata M =
      (Clocked.run (fun t f ↦ f.edge (i t)) f (t + 1)).rdata

theorem agrees {s : BankedMem μ} {f : MemMacro 12 32} (h : s.contents M = f.mem)
    (i : ℕ → Port1rw 12 32) : Agrees M s f i := by
  have hcontents : ∀ t, (Clocked.run (fun t s ↦ s.edge M (i t)) s t).contents M =
      (Clocked.run (fun t f ↦ f.edge (i t)) f t).mem := by
    refine Clocked.run_related (fun (s : BankedMem μ) (f : MemMacro 12 32) ↦
      s.contents M = f.mem) h fun t s f hsf ↦ ?_
    rw [contents_edge _ hM, hsf]
    rfl
  refine ⟨hcontents, fun t hen hwe ↦ ?_⟩
  rw [Clocked.run_succ, rdata_edge _ hM _ hen hwe, hcontents]
  simp [Clocked.run_succ, MemMacro.edge, MemMacro.step, hen, hwe]

end BankedMem

/-- Both wrappers return the data of their flop branches and hold the same
contents, over every sequence of port operations. -/
theorem SramMacro.Synchronous.banked_agrees {μ : Type*} {M : SramMacro μ} (hM : M.Synchronous) :
    (∀ (k : ℕ) (s : BankedMem1rw1r k μ) (f : MemMacro1rw1r (k + 11) 8),
      s.contents M = f.mem → ∀ i, BankedMem1rw1r.Agrees M s f i) ∧
    (∀ (s : BankedMem μ) (f : MemMacro 12 32),
      s.contents M = f.mem → ∀ i, BankedMem.Agrees M s f i) :=
  ⟨fun _ _ _ h i ↦ BankedMem1rw1r.agrees hM h i, fun _ _ h i ↦ BankedMem.agrees hM h i⟩

/-! ## A macro -/

/-- A macro that leaves its read data in place while it writes. -/
structure OldDataRam where
  array : BitVec 9 → BitVec 32
  q0 : BitVec 32
  q1 : BitVec 32

def OldDataRam.edge (m : OldDataRam) (p : SramPins) : OldDataRam where
  array r := ofLanes fun l ↦ if p.writes r l then byteLane p.din0 l else byteLane (m.array r) l
  q0 := if !p.csb0 && p.web0 then m.array p.addr0 else m.q0
  q1 := if !p.csb1 then m.array p.addr1 else m.q1

def oldDataMacro : SramMacro OldDataRam := 
  ⟨OldDataRam.edge, OldDataRam.array, OldDataRam.q0, OldDataRam.q1⟩

theorem oldDataMacro_synchronous : oldDataMacro.Synchronous where
  byteLane_edge m p r l :=
    byteLane_ofLanes (fun l ↦ if p.writes r l then byteLane p.din0 l else byteLane (m.array r) l) l
  dout0_read _ _ hcs hwe := by simp [oldDataMacro, OldDataRam.edge, hcs, hwe]
  dout1_read _ _ hcs := by simp [oldDataMacro, OldDataRam.edge, hcs]
  dout0_hold _ _ hcs := by simp [oldDataMacro, OldDataRam.edge, hcs]
  dout1_hold _ _ hcs := by simp [oldDataMacro, OldDataRam.edge, hcs]

/-- Four banks that are written once and read ever after, and a full word. -/
theorem banked_agrees_oldData :
    BankedMem1rw1r.Agrees oldDataMacro ⟨fun _ ↦ ⟨fun _ ↦ 0, 0, 0⟩, (0 : BitVec 2), 0, 0, 0⟩
      ⟨fun _ ↦ 0, 0, 0⟩ (fun t ↦ ⟨0x1ffe, 7, t = 0, true, 0x1ffe, true⟩) ∧
    BankedMem.Agrees oldDataMacro ⟨fun _ ↦ ⟨fun _ ↦ 0, 0, 0⟩, 0⟩ ⟨fun _ ↦ 0, 0⟩
      (fun t ↦ ⟨0xabc, 7, t = 0, true⟩) :=
  have h := oldDataMacro_synchronous.banked_agrees
  ⟨h.1 2 _ _ (by funext a; exact BitVec.extractLsb'_zero) _, h.2 _ _ rfl _⟩

end LgNpu
