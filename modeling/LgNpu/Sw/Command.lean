import LgNpu.Pkg
import LgNpu.Lib.WriteLog
import Mathlib.Algebra.Order.Ring.Int

/-!
# The command builders

`lgnpu_cmd.h` and `command_builder.c`: the parameter structs, the packing into
sixteen words, and the output dimensions the builder derives when none is
given.  A pointer is an `Option`; a builder writes nothing through it unless
both are non-null.
-/

namespace LgNpu

/-! ## Descriptors and parameters -/

abbrev NpuCmdDesc := BitVec 4 → MmioData

inductive NpuOpcode
  | conv | gemm | softmax | vec | lnorm | pool
  deriving DecidableEq

def NpuOpcode.value : NpuOpcode → MmioData
  | .conv => 0x1
  | .gemm => 0x2
  | .softmax => 0x3
  | .vec => 0x4
  | .lnorm => 0x5
  | .pool => 0x6

structure NpuConvParams where
  actInAddr : BitVec 16
  actOutAddr : BitVec 16
  weightAddr : BitVec 16
  biasAddr : BitVec 16
  inH : BitVec 16
  inW : BitVec 16
  inC : BitVec 16
  outK : BitVec 16
  filtR : BitVec 16
  filtS : BitVec 16
  strideH : BitVec 16
  strideW : BitVec 16
  padH : BitVec 16
  padW : BitVec 16
  outH : BitVec 16
  outW : BitVec 16
  quantShift : BitVec 8
  actMode : BitVec 8

structure NpuGemmParams where
  aAddr : BitVec 16
  cAddr : BitVec 16
  bAddr : BitVec 16
  biasAddr : BitVec 16
  m : BitVec 16
  n : BitVec 16
  k : BitVec 16
  quantShift : BitVec 8
  actMode : BitVec 8

structure NpuSoftmaxParams where
  inAddr : BitVec 16
  outAddr : BitVec 16
  numRows : BitVec 16
  rowLen : BitVec 16

structure NpuVecParams where
  aAddr : BitVec 16
  outAddr : BitVec 16
  bAddr : BitVec 16
  length : BitVec 16
  vecOp : BitVec 8
  quantShift : BitVec 8
  actMode : BitVec 8

structure NpuLnormParams where
  inAddr : BitVec 16
  outAddr : BitVec 16
  numRows : BitVec 16
  rowLen : BitVec 16
  normShift : BitVec 8

structure NpuPoolParams where
  inAddr : BitVec 16
  outAddr : BitVec 16
  inH : BitVec 16
  inW : BitVec 16
  inC : BitVec 16
  poolR : BitVec 16
  poolS : BitVec 16
  strideH : BitVec 16
  strideW : BitVec 16
  padH : BitVec 16
  padW : BitVec 16
  outH : BitVec 16
  outW : BitVec 16
  poolMode : BitVec 8

/-! ## Builders -/

/-- `memset` to zero. -/
def cmdClear : NpuCmdDesc := fun _ ↦ 0

/-- The zero test of the stride comes first; all arithmetic is `uint32_t`, and
the result is cut to 16 bits. -/
def deriveOutDim (inDim pad filt stride provided : BitVec 16) : BitVec 16 :=
  if provided ≠ 0 then provided
  else if stride = 0 then 0
  else ((inDim.setWidth 32 + 2 * pad.setWidth 32 - filt.setWidth 32) / stride.setWidth 32 +
    1).setWidth 16

/-- Two half-words in one word. -/
def packHalves (lo hi : BitVec 16) : MmioData := lo.setWidth 32 ||| hi.setWidth 32 <<< 16

/-- Word 15 of the operations with an output stage. -/
def packQuant (quantShift actMode : BitVec 8) : MmioData :=
  quantShift.setWidth 32 &&& 0x1F ||| (actMode.setWidth 32 &&& 0x3) <<< 5

/-- What the six builders share: the return code, and the descriptor cleared and
then assigned word by word. -/
def npuCmdBuild {P : Type} (words : P → List (BitVec 4 × MmioData)) (desc : Option NpuCmdDesc)
    (p : Option P) : ℤ × Option NpuCmdDesc :=
  match desc, p with
  | some _, some p => (0, some (WriteLog.replay cmdClear (words p)))
  | _, _ => (-1, desc)

def npuCmdBuildConv := npuCmdBuild fun p : NpuConvParams ↦
  let outH := deriveOutDim p.inH p.padH p.filtR p.strideH p.outH
  let outW := deriveOutDim p.inW p.padW p.filtS p.strideW p.outW
  [(0, NpuOpcode.conv.value),
    (1, p.actInAddr.setWidth 32),
    (2, p.actOutAddr.setWidth 32),
    (3, p.weightAddr.setWidth 32),
    (4, p.biasAddr.setWidth 32),
    (5, p.inH.setWidth 32),
    (6, p.inW.setWidth 32),
    (7, p.inC.setWidth 32),
    (8, p.outK.setWidth 32),
    (9, p.filtR.setWidth 32),
    (10, p.filtS.setWidth 32),
    (11, p.strideH.setWidth 32),
    (12, p.strideW.setWidth 32),
    (13, packHalves p.padH outH),
    (14, packHalves p.padW outW),
    (15, packQuant p.quantShift p.actMode)]

def npuCmdBuildGemm := npuCmdBuild fun p : NpuGemmParams ↦
  [(0, NpuOpcode.gemm.value),
    (1, p.aAddr.setWidth 32),
    (2, p.cAddr.setWidth 32),
    (3, p.bAddr.setWidth 32),
    (4, p.biasAddr.setWidth 32),
    (5, p.m.setWidth 32),
    (6, p.n.setWidth 32),
    (7, p.k.setWidth 32),
    (15, packQuant p.quantShift p.actMode)]

def npuCmdBuildSoftmax := npuCmdBuild fun p : NpuSoftmaxParams ↦
  [(0, NpuOpcode.softmax.value),
    (1, p.inAddr.setWidth 32),
    (2, p.outAddr.setWidth 32),
    (5, p.numRows.setWidth 32),
    (6, p.rowLen.setWidth 32)]

def npuCmdBuildVec := npuCmdBuild fun p : NpuVecParams ↦
  [(0, NpuOpcode.vec.value),
    (1, p.aAddr.setWidth 32),
    (2, p.outAddr.setWidth 32),
    (3, p.bAddr.setWidth 32),
    (5, p.length.setWidth 32),
    (6, p.vecOp.setWidth 32),
    (15, packQuant p.quantShift p.actMode)]

def npuCmdBuildLnorm := npuCmdBuild fun p : NpuLnormParams ↦
  [(0, NpuOpcode.lnorm.value),
    (1, p.inAddr.setWidth 32),
    (2, p.outAddr.setWidth 32),
    (5, p.numRows.setWidth 32),
    (6, p.rowLen.setWidth 32),
    (15, p.normShift.setWidth 32 &&& 0x1F)]

def npuCmdBuildPool := npuCmdBuild fun p : NpuPoolParams ↦
  let outH := deriveOutDim p.inH p.padH p.poolR p.strideH p.outH
  let outW := deriveOutDim p.inW p.padW p.poolS p.strideW p.outW
  [(0, NpuOpcode.pool.value),
    (1, p.inAddr.setWidth 32),
    (2, p.outAddr.setWidth 32),
    (5, p.inH.setWidth 32),
    (6, p.inW.setWidth 32),
    (7, p.inC.setWidth 32),
    (9, p.poolR.setWidth 32),
    (10, p.poolS.setWidth 32),
    (11, p.strideH.setWidth 32),
    (12, p.strideW.setWidth 32),
    (13, packHalves p.padH outH),
    (14, packHalves p.padW outW),
    (15, p.poolMode.setWidth 32 &&& 0x1)]

/-! ## Return codes and words -/

section

variable {P : Type} {words : P → List (BitVec 4 × MmioData)} {desc : Option NpuCmdDesc}

/-- A builder fails on a null argument and on nothing else, and then writes nothing. -/
theorem npuCmdBuild_eq_neg_one {p : Option P} :
    (npuCmdBuild words desc p).1 = -1 ↔ desc = none ∨ p = none := by
  cases desc <;> cases p <;> simp [npuCmdBuild]

theorem npuCmdBuild_desc_of_null {p : Option P} (h : desc = none ∨ p = none) :
    (npuCmdBuild words desc p).2 = desc := by
  rcases h with rfl | rfl
  · cases p <;> rfl
  · cases desc <;> rfl

/-- The old contents of the descriptor leave no trace. -/
theorem eq_words_of_npuCmdBuild {p : P} {d : NpuCmdDesc}
    (h : npuCmdBuild words desc (some p) = (0, some d)) :
    d = WriteLog.replay cmdClear (words p) := by
  cases desc with
  | none => simp [npuCmdBuild] at h
  | some _ => simpa [npuCmdBuild] using h.symm

end

/-- The `out_h` (word 13) or `out_w` (word 14) of a descriptor. -/
def NpuCmdDesc.outDim (d : NpuCmdDesc) (i : BitVec 4) : BitVec 16 := (d i).extractLsb' 16 16

@[simp] theorem packHalves_lo (lo hi : BitVec 16) : (packHalves lo hi).setWidth 16 = lo := by
  ext i hi'
  simp [packHalves]

@[simp] theorem packHalves_hi (lo hi : BitVec 16) :
    (packHalves lo hi).extractLsb' 16 16 = hi := by
  ext i hi'
  simp only [packHalves, BitVec.getElem_extractLsb', BitVec.getLsbD_or, BitVec.getLsbD_shiftLeft,
    BitVec.getLsbD_setWidth]
  simp [BitVec.getLsbD_eq_getElem hi', show 16 + i < 32 by omega, show i < 32 by omega]

theorem npuCmdBuildConv_outDim {desc : Option NpuCmdDesc} {p : NpuConvParams} {d : NpuCmdDesc}
    (h : npuCmdBuildConv desc (some p) = (0, some d)) :
    d.outDim 13 = deriveOutDim p.inH p.padH p.filtR p.strideH p.outH ∧
      d.outDim 14 = deriveOutDim p.inW p.padW p.filtS p.strideW p.outW := by
  obtain rfl := eq_words_of_npuCmdBuild h
  constructor <;> exact packHalves_hi _ _

theorem npuCmdBuildPool_outDim {desc : Option NpuCmdDesc} {p : NpuPoolParams} {d : NpuCmdDesc}
    (h : npuCmdBuildPool desc (some p) = (0, some d)) :
    d.outDim 13 = deriveOutDim p.inH p.padH p.poolR p.strideH p.outH ∧
      d.outDim 14 = deriveOutDim p.inW p.padW p.poolS p.strideW p.outW := by
  obtain rfl := eq_words_of_npuCmdBuild h
  constructor <;> exact packHalves_hi _ _

/-! ## Derived output dimensions -/

/-- An output dimension over the integers: the number of window positions, all
of them inside the padded input. -/
structure OutDimOk (inDim pad filt stride out : BitVec 16) : Prop where
  pos : 1 ≤ out.toNat
  eq : (out.toNat : ℤ) = ((inDim.toNat : ℤ) + 2 * pad.toNat - filt.toNat) / stride.toNat + 1
  fits : ∀ o < out.toNat, o * stride.toNat + filt.toNat ≤ inDim.toNat + 2 * pad.toNat

/-- There is a stride, the window fits once, and there are fewer than `2 ^ 16`
positions. -/
structure OutDimDerivable (inDim pad filt stride : BitVec 16) : Prop where
  moves : stride ≠ 0
  fits : filt.toNat ≤ inDim.toNat + 2 * pad.toNat
  short : inDim.toNat + 2 * pad.toNat < filt.toNat + 65535 * stride.toNat

instance (inDim pad filt stride : BitVec 16) : Decidable (OutDimDerivable inDim pad filt stride) :=
  decidable_of_iff (_ ∧ _ ∧ _) ⟨fun ⟨h1, h2, h3⟩ ↦ ⟨h1, h2, h3⟩, fun ⟨h1, h2, h3⟩ ↦ ⟨h1, h2, h3⟩⟩

section

variable {inDim pad filt stride : BitVec 16}

theorem deriveOutDim_provided {provided : BitVec 16} (h : provided ≠ 0) :
    deriveOutDim inDim pad filt stride provided = provided := if_pos h

theorem deriveOutDim_stride_zero : deriveOutDim inDim pad filt 0 0 = 0 := by
  simp [deriveOutDim]

/-- Only the last cast can lose anything once the window fits. -/
theorem toNat_deriveOutDim (hs : stride ≠ 0) (hfit : filt.toNat ≤ inDim.toNat + 2 * pad.toNat) :
    (deriveOutDim inDim pad filt stride 0).toNat =
      ((inDim.toNat + 2 * pad.toNat - filt.toNat) / stride.toNat + 1) % 65536 := by
  have hin := inDim.isLt
  have hpad := pad.isLt
  have hfilt := filt.isLt
  have hspan : (inDim.setWidth 32 + 2 * pad.setWidth 32 - filt.setWidth 32).toNat =
      inDim.toNat + 2 * pad.toNat - filt.toNat := by
    bv_omega
  have hle : (inDim.toNat + 2 * pad.toNat - filt.toNat) / stride.toNat ≤
      inDim.toNat + 2 * pad.toNat - filt.toNat := Nat.div_le_self _ _
  simp only [deriveOutDim, ne_eq, not_true_eq_false, if_false, hs, BitVec.toNat_setWidth,
    BitVec.toNat_add, BitVec.toNat_udiv, hspan]
  have hone : BitVec.toNat (1 : BitVec 32) = 1 := rfl
  rw [Nat.mod_eq_of_lt (a := stride.toNat) (by omega), hone]
  omega

/-- A window larger than the padded input wraps around. -/
theorem not_outDimOk_of_lt (out : BitVec 16) (h : inDim.toNat + 2 * pad.toNat < filt.toNat) :
    ¬OutDimOk inDim pad filt stride out := by
  intro hok
  have := hok.fits 0 hok.pos
  omega

theorem outDimOk_derived_iff :
    OutDimOk inDim pad filt stride (deriveOutDim inDim pad filt stride 0) ↔
      OutDimDerivable inDim pad filt stride := by
  rcases eq_or_ne stride 0 with rfl | hs
  · rw [deriveOutDim_stride_zero]
    exact ⟨fun h ↦ absurd h.pos (by simp), fun h ↦ absurd rfl h.moves⟩
  rcases Nat.lt_or_ge (inDim.toNat + 2 * pad.toNat) filt.toNat with hlt | hfit
  · exact ⟨fun h ↦ absurd h (not_outDimOk_of_lt _ hlt), fun h ↦ absurd h.fits (by omega)⟩
  have hpos : 0 < stride.toNat := by
    rcases Nat.eq_zero_or_pos stride.toNat with h0 | h0
    exacts [absurd (BitVec.eq_of_toNat_eq h0) hs, h0]
  have hval := toNat_deriveOutDim hs hfit
  -- The integer quotient is the natural one.
  have hcast : ((inDim.toNat : ℤ) + 2 * pad.toNat - filt.toNat) / stride.toNat =
      ((inDim.toNat + 2 * pad.toNat - filt.toNat) / stride.toNat : ℕ) := by
    rw [Int.natCast_div]
    congr 1
    omega
  constructor
  · intro h
    refine ⟨hs, hfit, ?_⟩
    have heq := h.eq
    rw [hcast, hval] at heq
    have hlt : (inDim.toNat + 2 * pad.toNat - filt.toNat) / stride.toNat < 65535 := by omega
    have := (Nat.div_lt_iff_lt_mul hpos).mp hlt
    omega
  · intro h
    have hshort := h.short
    have hlt : (inDim.toNat + 2 * pad.toNat - filt.toNat) / stride.toNat < 65535 :=
      (Nat.div_lt_iff_lt_mul hpos).mpr (Nat.sub_lt_left_of_lt_add hfit hshort)
    rw [Nat.mod_eq_of_lt (by omega)] at hval
    refine ⟨by rw [hval]; exact Nat.succ_pos _, by rw [hcast, hval]; rfl, fun o ho ↦ ?_⟩
    rw [hval] at ho
    have hq : o ≤ (inDim.toNat + 2 * pad.toNat - filt.toNat) / stride.toNat := by omega
    have := (Nat.le_div_iff_mul_le hpos).mp hq
    omega

end

/-- The dimensions a successful builder derives are those of the convolution
and pooling formulas exactly when these have a value in range. -/
theorem npuCmdBuild_derived_iff (desc : Option NpuCmdDesc) :
    (∀ p d, npuCmdBuildConv desc (some p) = (0, some d) →
      (p.outH = 0 → (OutDimOk p.inH p.padH p.filtR p.strideH (d.outDim 13) ↔
        OutDimDerivable p.inH p.padH p.filtR p.strideH)) ∧
      (p.outW = 0 → (OutDimOk p.inW p.padW p.filtS p.strideW (d.outDim 14) ↔
        OutDimDerivable p.inW p.padW p.filtS p.strideW))) ∧
    (∀ p d, npuCmdBuildPool desc (some p) = (0, some d) →
      (p.outH = 0 → (OutDimOk p.inH p.padH p.poolR p.strideH (d.outDim 13) ↔
        OutDimDerivable p.inH p.padH p.poolR p.strideH)) ∧
      (p.outW = 0 → (OutDimOk p.inW p.padW p.poolS p.strideW (d.outDim 14) ↔
        OutDimDerivable p.inW p.padW p.poolS p.strideW))) := by
  constructor <;> intro p d h
  · obtain ⟨hH, hW⟩ := npuCmdBuildConv_outDim h
    constructor <;> intro h0
    · rw [hH, h0, outDimOk_derived_iff]
    · rw [hW, h0, outDimOk_derived_iff]
  · obtain ⟨hH, hW⟩ := npuCmdBuildPool_outDim h
    constructor <;> intro h0
    · rw [hH, h0, outDimOk_derived_iff]
    · rw [hW, h0, outDimOk_derived_iff]

/-- Whatever a successful builder derives is in range and true to the formula. -/
def DerivesOutDims : Prop :=
  (∀ desc p d, npuCmdBuildConv desc (some p) = (0, some d) →
    (p.outH = 0 → OutDimOk p.inH p.padH p.filtR p.strideH (d.outDim 13)) ∧
    (p.outW = 0 → OutDimOk p.inW p.padW p.filtS p.strideW (d.outDim 14))) ∧
  ∀ desc p d, npuCmdBuildPool desc (some p) = (0, some d) →
    (p.outH = 0 → OutDimOk p.inH p.padH p.poolR p.strideH (d.outDim 13)) ∧
    (p.outW = 0 → OutDimOk p.inW p.padW p.poolS p.strideW (d.outDim 14))

/-- A filter of four rows over an input of two. -/
def tallFilter : NpuConvParams :=
  ⟨0, 64, 0, 32, 2, 3, 1, 1, 4, 3, 1, 1, 0, 0, 0, 0, 7, 0⟩

/-- Its width is derived, its height comes out as `65535`. -/
theorem npuCmdBuild_derived_iff_tallFilter :
    ∃ d, npuCmdBuildConv (some cmdClear) (some tallFilter) = (0, some d) ∧
      d.outDim 13 = 65535 ∧ OutDimOk 3 0 3 1 (d.outDim 14) :=
  ⟨_, rfl, by decide, (((npuCmdBuild_derived_iff (some cmdClear)).1 tallFilter _ rfl).2
    rfl).mpr (by decide)⟩

theorem not_derivesOutDims_tallFilter : ¬DerivesOutDims := by
  intro h
  have hok := (h.1 (some cmdClear) tallFilter _ rfl).1 rfl
  exact not_outDimOk_of_lt _ (by decide) hok

end LgNpu
