import LgNpu.Lib.ForLoop
import LgNpu.Lib.Signed
import LgNpu.Pkg

/-!
# The reference models

`npu_tb.h` checks the device against plain loops over vectors, which compute in
the fixed-width types of the testbench.  Sizes and strides are not negative.
-/

namespace LgNpu

open ForLoop

namespace NpuTb

/-- `static_cast<int32_t>(v[i])`. -/
def int32At (v : List Byte) (i : ℕ) : Acc := (v.getD i 0).signExtend 32

def actModeNone : MmioData := 0
def actModeRelu : MmioData := 1
def actModeLeakyRelu : MmioData := 2

/-- The activation and quantisation all three reference models of the MAC kind
apply to their accumulator. -/
def refPost (quantShift : ℕ) (actMode : MmioData) (acc : Acc) : Byte :=
  let acc :=
    if actMode = actModeRelu then if acc.slt 0 then 0 else acc
    else if actMode = actModeLeakyRelu then if acc.slt 0 then acc.sshiftRight leakyShift else acc
    else acc
  let acc := acc.sshiftRight quantShift
  let acc := if (127 : Acc).slt acc then 127 else acc
  let acc := if acc.slt (-128) then -128 else acc
  acc.setWidth 8

/-- `C = A * B + bias`. -/
def refGemm (a b bias : List Byte) (M N K quantShift : ℕ) (actMode : MmioData) : List Byte :=
  loop M (List.replicate (M * N) 0) fun m out ↦
    loop N out fun n out ↦
      let acc := loop K (0 : Acc) fun k acc ↦ acc + int32At a (m * K + k) * int32At b (k * N + n)
      let acc := if bias.isEmpty then acc else acc + int32At bias n
      out.set (m * N + n) (refPost quantShift actMode acc)

/-- `(d + 2 * pad - filt) / stride + 1`. -/
def outDim (d pad filt stride : ℕ) : ℕ := (((d : ℤ) + 2 * pad - filt).tdiv stride + 1).toNat

/-- `ih >= 0 && ih < H && iw >= 0 && iw < W`. -/
def inMap (H W : ℕ) (ih iw : ℤ) : Bool :=
  decide (0 ≤ ih) && decide (ih < H) && decide (0 ≤ iw) && decide (iw < W)

/-- `(ih * W + iw) * C + c` inside the map. -/
def pixel (W C : ℕ) (ih iw : ℤ) (c : ℕ) : ℕ := ((ih * W + iw) * C + c).toNat

def refConv (act wt bias : List Byte)
    (H W C K R S strideH strideW padH padW quantShift : ℕ) (actMode : MmioData) : List Byte :=
  let OH := outDim H padH R strideH
  let OW := outDim W padW S strideW
  loop OH (List.replicate (OH * OW * K) 0) fun oh out ↦
    loop OW out fun ow out ↦
      loop K out fun k out ↦
        let acc := loop R (0 : Acc) fun r acc ↦
          loop S acc fun s acc ↦
            loop C acc fun c acc ↦
              let ih : ℤ := oh * strideH + r - padH
              let iw : ℤ := ow * strideW + s - padW
              let a := if inMap H W ih iw then act.getD (pixel W C ih iw c) 0 else 0
              let w := wt.getD (((k * R + r) * S + s) * C + c) 0
              acc + a.signExtend 32 * w.signExtend 32
        let acc := if bias.isEmpty then acc else acc + int32At bias k
        out.set ((oh * OW + ow) * K + k) (refPost quantShift actMode acc)

/-- `vec_op` zero adds, any other value multiplies. -/
def refVec (a b : List Byte) (length : ℕ) (vecOp : MmioData) (quantShift : ℕ)
    (actMode : MmioData) : List Byte :=
  loop length (List.replicate length 0) fun i out ↦
    if vecOp = 0 then
      let sum := int32At a i + int32At b i
      let sum := if (127 : Acc).slt sum then 127 else sum
      let sum := if sum.slt (-128) then -128 else sum
      out.set i (sum.setWidth 8)
    else out.set i (refPost quantShift actMode (int32At a i * int32At b i))

/-! ## Pooling -/

def refPool (input : List Byte) (H W C poolR poolS strideH strideW padH padW : ℕ)
    (poolMode : ℕ) : List Byte :=
  let OH := outDim H padH poolR strideH
  let OW := outDim W padW poolS strideW
  let poolArea := poolR * poolS
  loop OH (List.replicate (OH * OW * C) 0) fun oh out ↦
    loop OW out fun ow out ↦
      loop C out fun c out ↦
        if poolMode = 0 then
          let maxVal := loop poolR (-128 : Byte) fun r maxVal ↦
            loop poolS maxVal fun s maxVal ↦
              let ih : ℤ := oh * strideH + r - padH
              let iw : ℤ := ow * strideW + s - padW
              if inMap H W ih iw then
                let v := input.getD (pixel W C ih iw c) 0
                if maxVal.slt v then v else maxVal
              else maxVal
          out.set ((oh * OW + ow) * C + c) maxVal
        else
          let sum := loop poolR (0 : Acc) fun r sum ↦
            loop poolS sum fun s sum ↦
              let ih : ℤ := oh * strideH + r - padH
              let iw : ℤ := ow * strideW + s - padW
              if inMap H W ih iw then sum + int32At input (pixel W C ih iw c) else sum
          let neg := sum.slt 0
          let absSum := if neg then -sum else sum
          let quot := absSum / BitVec.ofNat 32 poolArea
          let result := if neg then -quot else quot
          let result := if (127 : Acc).slt result then 127 else result
          let result := if result.slt (-128) then -128 else result
          out.set ((oh * OW + ow) * C + c) (result.setWidth 8)

/-! ## Rows -/

def expInt : List (BitVec 16) := [65535, 24109, 8869, 3263, 1200, 442, 162, 60]

def expFrac : List (BitVec 16) :=
  [65535, 63519, 61564, 59670, 57834, 56055, 54330, 52659,
    51039, 49468, 47946, 46471, 45042, 43656, 42313, 41011,
    39749, 38526, 37341, 36192, 35078, 33999, 32953, 31939,
    30957, 30004, 29081, 28186, 27319, 26479, 25664, 24874]

def softmaxExpApprox (diff : BitVec 8) : BitVec 16 :=
  let product : BitVec 32 := (expInt.getD (diff >>> 5).toNat 0).setWidth 32 *
    (expFrac.getD (diff &&& 31).toNat 0).setWidth 32
  (product >>> 16).setWidth 16

def refSoftmax (input : List Byte) (numRows rowLen : ℕ) : List Byte :=
  loop numRows (List.replicate (numRows * rowLen) 0) fun r out ↦
    let base := r * rowLen
    let maxVal := loop rowLen (-128 : Byte) fun i maxVal ↦
      if maxVal.slt (input.getD (base + i) 0) then input.getD (base + i) 0 else maxVal
    let sum := loop rowLen (0 : BitVec 32) fun i sum ↦
      sum + (softmaxExpApprox (maxVal - input.getD (base + i) 0)).setWidth 32
    loop rowLen out fun i out ↦
      let expVal := softmaxExpApprox (maxVal - input.getD (base + i) 0)
      let numer : BitVec 32 := expVal.setWidth 32 * 127
      let quot : BitVec 8 := (numer / sum).setWidth 8
      let quot := if 127 < quot then 127 else quot
      out.set (base + i) quot

/-- A round of the digit-by-digit root, for the digit pair `i`. -/
def isqrtRound (n : BitVec 32) (i : ℕ) (s : BitVec 32 × BitVec 16) : BitVec 32 × BitVec 16 :=
  let rem := s.1 <<< 2 ||| n >>> (2 * i) &&& 3
  let trial : BitVec 32 := s.2.setWidth 32 <<< 2 ||| 1
  if trial ≤ rem then (rem - trial, s.2 <<< 1 ||| 1) else (rem, s.2 <<< 1)

/-- `i` goes from 15 down to 0. -/
def isqrtHw (n : BitVec 32) : BitVec 16 := (loop 16 (0, 0) fun k ↦ isqrtRound n (15 - k)).2

def refLnorm (input : List Byte) (numRows rowLen normShift : ℕ) : List Byte :=
  loop numRows (List.replicate (numRows * rowLen) 0) fun r out ↦
    let base := r * rowLen
    let sum := loop rowLen (0 : Acc) fun i sum ↦ sum + int32At input (base + i)
    let mean := sum.sdiv (.ofNat 32 rowLen)
    let varSum := loop rowLen (0 : BitVec 32) fun i varSum ↦
      let diff := int32At input (base + i) - mean
      varSum + diff * diff
    let variance := varSum / BitVec.ofNat 32 rowLen
    let stdVal := isqrtHw (variance + 1)
    let stdVal := if stdVal = 0 then 1 else stdVal
    loop rowLen out fun i out ↦
      let diff := int32At input (base + i) - mean
      let neg := diff.slt 0
      let absDiff := if neg then -diff else diff
      let wide : BitVec 64 := absDiff.setWidth 64 <<< normShift
      let scaled : BitVec 32 := if 0xFFFFFFFF < wide then 0xFFFFFFFF else wide.setWidth 32
      let quot := scaled / stdVal.setWidth 32
      let result : Acc :=
        if neg then if 128 < quot then -128 else -quot else if 127 < quot then 127 else quot
      out.set (base + i) (result.setWidth 8)

/-! ## Over the integers -/

/-- The signed value of an element, zero past the end. -/
def intAt (v : List Byte) (i : ℕ) : ℤ := (v.getD i 0).toInt

theorem int32At_eq (v : List Byte) (i : ℕ) : int32At v i = .ofInt 32 (intAt v i) := rfl

theorem intAt_bounds (v : List Byte) (i : ℕ) : -128 ≤ intAt v i ∧ intAt v i ≤ 127 := by
  have hlo := BitVec.le_toInt (v.getD i 0)
  have hhi := BitVec.toInt_lt (x := v.getD i 0)
  exact ⟨hlo, Int.lt_add_one_iff.mp hhi⟩

theorem intAt_nil (i : ℕ) : intAt [] i = 0 := by simp [intAt]

/-- The two comparisons that clamp a value to a byte. -/
theorem clamp_eq (x : Acc) :
    (if (if (127 : Acc).slt x then 127 else x).slt (-128) then (-128 : Acc)
      else if (127 : Acc).slt x then 127 else x).setWidth 8 = .ofInt 8 (Signed.sat8 x.toInt) := by
  rw [← Signed.clamp8_eq]
  cases (127 : Acc).slt x with
  | false =>
      simp only [Bool.false_eq_true, if_false]
      cases x.slt (-128) with
      | false => rfl
      | true =>
          rw [if_pos rfl, if_pos rfl]
          decide
  | true => rfl

/-- A filter that fits the padded dimension is placed on the naturals. -/
theorem outDim_eq {d pad filt stride : ℕ} (h : filt ≤ d + 2 * pad) :
    outDim d pad filt stride = (d + 2 * pad - filt) / stride + 1 := by
  have hcast : (d : ℤ) + 2 * pad - filt = (d + 2 * pad - filt : ℕ) := by omega
  rw [outDim, hcast, ← Int.ofNat_tdiv]
  rfl

end NpuTb

end LgNpu
