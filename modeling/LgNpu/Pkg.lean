import Mathlib.Algebra.Group.Nat.Defs
import Mathlib.Data.Int.Notation

/-!
# Types and command views

The shared descriptor `conv_cmd_t` and the views the dispatcher hands to the
six backends, from `npu_types_pkg` and `npu_cmd_pkg`.  Enumerations that reach
the hardware through casts of arbitrary bits (`opcode_e`, `act_mode_e`) are
kept at their bit width with the named encodings as constants.
-/

namespace LgNpu

abbrev Dim := BitVec 16
abbrev Addr := BitVec 16
abbrev Byte := BitVec 8
abbrev Acc := BitVec 32

abbrev Opcode := BitVec 4

namespace Opcode

def opConv : Opcode := 1
def opGemm : Opcode := 2
def opSoftmax : Opcode := 3
def opVec : Opcode := 4
def opLnorm : Opcode := 5
def opPool : Opcode := 6

end Opcode

abbrev ActMode := BitVec 2

namespace ActMode

def actNone : ActMode := 0
def actRelu : ActMode := 1
def actLeakyRelu : ActMode := 2

end ActMode

/-- The leaky slope is `2 ^ -leakyShift`. -/
def leakyShift : ℕ := 3

structure ConvCmd where
  opcode : Opcode
  actInAddr : Addr
  actOutAddr : Addr
  weightAddr : Addr
  biasAddr : Addr
  inH : Dim
  inW : Dim
  inC : Dim
  outK : Dim
  filtR : Dim
  filtS : Dim
  strideH : Dim
  strideW : Dim
  padH : Dim
  padW : Dim
  outH : Dim
  outW : Dim
  quantShift : BitVec 5
  actMode : ActMode
  deriving DecidableEq

structure GemmCmd where
  aAddr : Addr
  cAddr : Addr
  bAddr : Addr
  biasAddr : Addr
  mDim : Dim
  nDim : Dim
  kDim : Dim
  quantShift : BitVec 5
  actMode : ActMode
  deriving DecidableEq

structure SoftmaxCmd where
  inAddr : Addr
  outAddr : Addr
  numRows : Dim
  rowLen : Dim
  deriving DecidableEq

structure VecCmd where
  aAddr : Addr
  outAddr : Addr
  bAddr : Addr
  length : Dim
  vecOp : Bool
  quantShift : BitVec 5
  actMode : ActMode
  deriving DecidableEq

structure LnormCmd where
  inAddr : Addr
  outAddr : Addr
  numRows : Dim
  rowLen : Dim
  normShift : BitVec 5
  deriving DecidableEq

structure PoolCmd where
  inAddr : Addr
  outAddr : Addr
  inH : Dim
  inW : Dim
  inC : Dim
  poolR : Dim
  poolS : Dim
  strideH : Dim
  strideW : Dim
  padH : Dim
  padW : Dim
  outH : Dim
  outW : Dim
  poolMode : Bool
  deriving DecidableEq

/-! ## Views over the shared descriptor -/

def convToGemmCmd (cmd : ConvCmd) : GemmCmd where
  aAddr := cmd.actInAddr
  cAddr := cmd.actOutAddr
  bAddr := cmd.weightAddr
  biasAddr := cmd.biasAddr
  mDim := cmd.inH
  nDim := cmd.inW
  kDim := cmd.inC
  quantShift := cmd.quantShift
  actMode := cmd.actMode

def convToSoftmaxCmd (cmd : ConvCmd) : SoftmaxCmd where
  inAddr := cmd.actInAddr
  outAddr := cmd.actOutAddr
  numRows := cmd.inH
  rowLen := cmd.inW

def convToVecCmd (cmd : ConvCmd) : VecCmd where
  aAddr := cmd.actInAddr
  outAddr := cmd.actOutAddr
  bAddr := cmd.weightAddr
  length := cmd.inH
  vecOp := cmd.inW.getLsbD 0
  quantShift := cmd.quantShift
  actMode := cmd.actMode

def convToLnormCmd (cmd : ConvCmd) : LnormCmd where
  inAddr := cmd.actInAddr
  outAddr := cmd.actOutAddr
  numRows := cmd.inH
  rowLen := cmd.inW
  normShift := cmd.quantShift

def convToPoolCmd (cmd : ConvCmd) : PoolCmd where
  inAddr := cmd.actInAddr
  outAddr := cmd.actOutAddr
  inH := cmd.inH
  inW := cmd.inW
  inC := cmd.inC
  poolR := cmd.filtR
  poolS := cmd.filtS
  strideH := cmd.strideH
  strideW := cmd.strideW
  padH := cmd.padH
  padW := cmd.padW
  outH := cmd.outH
  outW := cmd.outW
  poolMode := cmd.quantShift.getLsbD 0

/-! ## Signed bytes -/

/-- The INT8 value a buffer holds at address `a`. -/
def int8At (m : BitVec 13 → Byte) (a : ℕ) : ℤ := (m (.ofNat 13 a)).toInt

theorem int8At_bounds (m : BitVec 13 → Byte) (a : ℕ) : -128 ≤ int8At m a ∧ int8At m a ≤ 127 := by
  rw [int8At]
  have hlt := BitVec.toInt_lt (x := m (.ofNat 13 a))
  have hle := BitVec.le_toInt (m (.ofNat 13 a))
  omega

/-! ## Address map of the buffer windows -/

abbrev MmioAddr := BitVec 20
abbrev MmioData := BitVec 32

def weightBufBase : MmioAddr := 0x10000
def actBufBase : MmioAddr := 0x20000
def psumBufBase : MmioAddr := 0x30000

/-! ## Loop-end comparisons

In the sources an unsized literal widens `x == d - 1` and `x < d - 1` to 32
bits, so a zero dimension gives the bound `2 ^ 32 - 1`. -/

def eqLast (x d : Dim) : Bool := x.setWidth 32 == d.setWidth 32 - 1

def ltLast (x d : Dim) : Bool := (x.setWidth 32).ult (d.setWidth 32 - 1)

theorem eqLast_iff {x d : Dim} (hd : 0 < d.toNat) :
    eqLast x d = true ↔ x.toNat + 1 = d.toNat := by
  rw [eqLast, beq_iff_eq]
  have := x.isLt
  have := d.isLt
  constructor <;> intro h <;> bv_omega

/-- A counter never reaches the end of an empty loop. -/
@[simp] theorem eqLast_zero (x : Dim) : eqLast x 0#16 = false := by
  rw [eqLast, beq_eq_false_iff_ne]
  have := x.isLt
  bv_omega

theorem ltLast_iff {x d : Dim} (hd : 0 < d.toNat) :
    ltLast x d = true ↔ x.toNat + 1 < d.toNat := by
  rw [ltLast, BitVec.ult_iff_lt]
  have := x.isLt
  have := d.isLt
  constructor <;> intro h <;> bv_omega

theorem toNat_add_one {n : ℕ} {x : BitVec n} (h : x.toNat + 1 < 2 ^ n) :
    (x + 1).toNat = x.toNat + 1 := by
  have hone : (BitVec.ofNat n 1).toNat = 1 := by
    rw [BitVec.toNat_ofNat, Nat.mod_eq_of_lt (by omega)]
  rw [BitVec.toNat_add]
  exact (congrArg (fun y ↦ (x.toNat + y) % 2 ^ n) hone).trans (Nat.mod_eq_of_lt h)

/-- A counter below a 16-bit bound counts without wrapping. -/
theorem toNat_succ_dim {x d : Dim} {i : ℕ} (hx : x.toNat = i) (h : i < d.toNat) :
    (x + 1).toNat = i + 1 := by
  have hd := d.isLt
  rw [toNat_add_one (by omega), hx]

/-! ## Addresses as natural numbers -/

theorem ofNat_toNat16 (x : Addr) : BitVec.ofNat 16 x.toNat = x := by
  rw [BitVec.ofNat_toNat, BitVec.setWidth_eq]

theorem eq_ofNat_of_toNat {x : Addr} {n : ℕ} (h : x.toNat = n) : x = .ofNat 16 n := by
  rw [← h, ofNat_toNat16]

theorem add_ofNat (a : Addr) (n : ℕ) : a + .ofNat 16 n = .ofNat 16 (a.toNat + n) := by
  rw [BitVec.ofNat_add, ofNat_toNat16]

theorem ofNat_add_dim (n : ℕ) (d : Dim) : BitVec.ofNat 16 n + d = .ofNat 16 (n + d.toNat) := by
  rw [BitVec.ofNat_add, ofNat_toNat16]

theorem ofNat_mul_dim (n : ℕ) (d : Dim) :
    BitVec.ofNat 16 n * d = .ofNat 16 (n * d.toNat) := by
  rw [BitVec.ofNat_mul, ofNat_toNat16]

/-- The activation buffer takes the low 13 bits of an address. -/
theorem setWidth13_ofNat (n : ℕ) : (BitVec.ofNat 16 n).setWidth 13 = .ofNat 13 n :=
  BitVec.setWidth_ofNat_of_le (by omega) n

/-- The weight buffer takes the low 12 bits of an address. -/
theorem setWidth12_ofNat (n : ℕ) : (BitVec.ofNat 16 n).setWidth 12 = .ofNat 12 n :=
  BitVec.setWidth_ofNat_of_le (by omega) n

end LgNpu
