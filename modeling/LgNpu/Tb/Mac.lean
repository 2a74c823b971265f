import LgNpu.Tb.Reference
import LgNpu.Conv.Correct
import LgNpu.Gemm.Correct
import Mathlib.Data.BitVec

/-!
# The reference models of the MAC kind

`ref_gemm` and `ref_conv` over the integers: no sum of products wraps, and the
vectors they fill hold what the commands write.
-/

namespace LgNpu

open ForLoop

namespace NpuTb

/-- The activation of the reference models on an exact value. -/
def refActivate (actMode : MmioData) (v : ℤ) : ℤ :=
  if actMode = actModeRelu then max 0 v
  else if actMode = actModeLeakyRelu then if v < 0 then v >>> leakyShift else v
  else v

theorem abs_intAt_mul_le (v w : List Byte) (i j : ℕ) : |intAt v i * intAt w j| ≤ 2 ^ 14 :=
  abs_toInt_mul_le _ _

theorem refPost_eq {v : ℤ} (quantShift : ℕ) (actMode : MmioData) {acc : Acc} (h : acc.toInt = v) :
    refPost quantShift actMode acc =
      .ofInt 8 (Signed.sat8 (refActivate actMode v >>> quantShift)) := by
  have hneg : acc.slt 0 = decide (v < 0) := by
    rw [BitVec.slt_eq_decide, h]
    rfl
  have hact : (if actMode = actModeRelu then if acc.slt 0 then 0 else acc
      else if actMode = actModeLeakyRelu then if acc.slt 0 then acc.sshiftRight leakyShift else acc
      else acc).toInt = refActivate actMode v := by
    rw [hneg, refActivate]
    simp only [decide_eq_true_eq]
    split
    · split
      · rw [max_eq_left (by omega)]
        rfl
      · rw [max_eq_right (by omega), h]
    split
    · split
      · rw [BitVec.toInt_sshiftRight, h]
      · exact h
    · exact h
  rw [← hact, ← BitVec.toInt_sshiftRight, ← clamp_eq]
  rfl

theorem ofInt_sum {ι : Type*} {w : ℕ} (s : Finset ι) (f : ι → ℤ) :
    BitVec.ofInt w (∑ i ∈ s, f i) = ∑ i ∈ s, BitVec.ofInt w (f i) := by
  classical
  induction s using Finset.induction_on with
  | empty => simp
  | insert i s hi ih => rw [Finset.sum_insert hi, Finset.sum_insert hi, BitVec.ofInt_add, ih]

/-- The sum of at most `2 ^ 16` products and a bias does not wrap. -/
theorem toInt_biased {n : ℕ} (hn : n ≤ 2 ^ 16) {S : ℤ} (hS : |S| ≤ n * 2 ^ 14) (bias : List Byte)
    (i : ℕ) : (if bias.isEmpty then BitVec.ofInt 32 S else .ofInt 32 S + int32At bias i).toInt =
      S + intAt bias i := by
  have hcast : (n : ℤ) ≤ 2 ^ 16 := by exact_mod_cast hn
  obtain ⟨hlo, hhi⟩ := abs_le.mp (hS.trans (mul_le_mul_of_nonneg_right hcast (by norm_num)))
  obtain ⟨hlo', hhi'⟩ := intAt_bounds bias i
  have hsum : (if bias.isEmpty then BitVec.ofInt 32 S else .ofInt 32 S + int32At bias i) =
      .ofInt 32 (S + intAt bias i) := by
    cases bias with
    | nil => simp [intAt_nil]
    | cons b bias => rw [List.isEmpty_cons, if_neg Bool.false_ne_true, int32At_eq, BitVec.ofInt_add]
  rw [hsum, BitVec.toInt_ofInt, Signed.bmod_two_pow (w := 31) (by omega) (by omega)]

theorem abs_sum_le {ι : Type*} (s : Finset ι) {f : ι → ℤ} {b : ℤ} (h : ∀ i ∈ s, |f i| ≤ b) :
    |∑ i ∈ s, f i| ≤ s.card * b := by
  calc |∑ i ∈ s, f i| ≤ ∑ i ∈ s, |f i| := Finset.abs_sum_le_sum_abs _ _
    _ ≤ ∑ _i ∈ s, b := Finset.sum_le_sum h
    _ = s.card * b := by rw [Finset.sum_const, nsmul_eq_mul]

/-! ## Products -/

/-- The sum of products of `C[m, n]`. -/
def gemmSum (a b : List Byte) (N K m n : ℕ) : ℤ :=
  ∑ k ∈ Finset.range K, intAt a (m * K + k) * intAt b (k * N + n)

/-- `C[m, n]`. -/
def gemmVal (a b bias : List Byte) (N K quantShift : ℕ) (actMode : MmioData) (m n : ℕ) : ℤ :=
  Signed.sat8 (refActivate actMode (gemmSum a b N K m n + intAt bias n) >>> quantShift)

theorem refGemm_eq {a b bias : List Byte} {M N K quantShift : ℕ} {actMode : MmioData}
    (hK : K ≤ 2 ^ 16) : refGemm a b bias M N K quantShift actMode =
      (List.range (M * N)).map fun e ↦
        .ofInt 8 (gemmVal a b bias N K quantShift actMode (e / N) (e % N)) := by
  have hacc : ∀ m n, loop K (0 : Acc) (fun k acc ↦ acc + int32At a (m * K + k) *
      int32At b (k * N + n)) = .ofInt 32 (gemmSum a b N K m n) := by
    intro m n
    simp only [int32At_eq, ← BitVec.ofInt_mul, loop_add, ← ofInt_sum, zero_add, gemmSum]
  have habs : ∀ m n, |gemmSum a b N K m n| ≤ K * 2 ^ 14 := by
    intro m n
    have hle := abs_sum_le (Finset.range K) fun k _ ↦
      abs_intAt_mul_le a b (m * K + k) (k * N + n)
    rwa [Finset.card_range] at hle
  have hpost : ∀ m n, refPost quantShift actMode
      (if bias.isEmpty then BitVec.ofInt 32 (gemmSum a b N K m n)
        else .ofInt 32 (gemmSum a b N K m n) + int32At bias n) =
        .ofInt 8 (gemmVal a b bias N K quantShift actMode m n) :=
    fun m n ↦ refPost_eq _ _ (toInt_biased hK (habs m n) bias n)
  simp only [refGemm, hacc, hpost]
  exact loop_set₂ _ List.length_replicate

/-! ## Convolutions -/

/-- `X[ih, iw, c]`, zero outside the map. -/
def convX (act : List Byte) (H W C : ℕ) (ih iw : ℤ) (c : ℕ) : ℤ :=
  if inMap H W ih iw then intAt act (pixel W C ih iw c) else 0

/-- The sum of products of `Y[oh, ow, k]`. -/
def convSum (act wt : List Byte) (H W C R S strideH strideW padH padW oh ow k : ℕ) : ℤ :=
  ∑ r ∈ Finset.range R, ∑ s ∈ Finset.range S, ∑ c ∈ Finset.range C,
    convX act H W C (oh * strideH + r - padH) (ow * strideW + s - padW) c *
      intAt wt (((k * R + r) * S + s) * C + c)

def convVal (act wt bias : List Byte) (H W C R S strideH strideW padH padW quantShift : ℕ)
    (actMode : MmioData) (oh ow k : ℕ) : ℤ :=
  Signed.sat8 (refActivate actMode
    (convSum act wt H W C R S strideH strideW padH padW oh ow k + intAt bias k) >>> quantShift)

theorem abs_convSum_le (act wt : List Byte)
    (H W C R S strideH strideW padH padW oh ow k : ℕ) :
    |convSum act wt H W C R S strideH strideW padH padW oh ow k| ≤ (R * S * C : ℕ) * 2 ^ 14 := by
  have hterm : ∀ ih iw c i, |convX act H W C ih iw c * intAt wt i| ≤ 2 ^ 14 := by
    intro ih iw c i
    rw [convX]
    split
    · exact abs_intAt_mul_le _ _ _ _
    · simp
  have hC := fun r s : ℕ ↦ abs_sum_le (Finset.range C) fun c _ ↦
    hterm (oh * strideH + r - padH) (ow * strideW + s - padW) c (((k * R + r) * S + s) * C + c)
  have hS := fun r : ℕ ↦ abs_sum_le (Finset.range S) fun s _ ↦ hC r s
  have hR := abs_sum_le (Finset.range R) fun r _ ↦ hS r
  simp only [Finset.card_range] at hR
  refine hR.trans_eq ?_
  push_cast
  ring

theorem refConv_eq {act wt bias : List Byte} {H W C K R S strideH strideW padH padW quantShift : ℕ}
    {actMode : MmioData} (hRSC : R * S * C ≤ 2 ^ 16) :
    refConv act wt bias H W C K R S strideH strideW padH padW quantShift actMode =
      (List.range (outDim H padH R strideH * outDim W padW S strideW * K)).map fun e ↦
        .ofInt 8 (convVal act wt bias H W C R S strideH strideW padH padW quantShift actMode
          (e / K / outDim W padW S strideW) (e / K % outDim W padW S strideW) (e % K)) := by
  have hx : ∀ ih iw c, (if inMap H W ih iw then act.getD (pixel W C ih iw c) 0
      else 0).signExtend 32 = BitVec.ofInt 32 (convX act H W C ih iw c) := by
    intro ih iw c
    rw [convX]
    split <;> rfl
  have hacc : ∀ oh ow k : ℕ, loop R (0 : Acc) (fun r acc ↦ loop S acc fun s acc ↦ loop C acc
      fun c acc ↦ acc + (if inMap H W (oh * strideH + r - padH) (ow * strideW + s - padW) then
        act.getD (pixel W C (oh * strideH + r - padH) (ow * strideW + s - padW) c) 0
          else 0).signExtend 32 * (wt.getD (((k * R + r) * S + s) * C + c) 0).signExtend 32) =
      .ofInt 32 (convSum act wt H W C R S strideH strideW padH padW oh ow k) := by
    intro oh ow k
    have hw : ∀ i, (wt.getD i 0).signExtend 32 = BitVec.ofInt 32 (intAt wt i) := fun i ↦ rfl
    simp only [hx, hw, ← BitVec.ofInt_mul, loop_add, ← ofInt_sum, zero_add, convSum]
  have hpost : ∀ oh ow k, refPost quantShift actMode
      (if bias.isEmpty then
          BitVec.ofInt 32 (convSum act wt H W C R S strideH strideW padH padW oh ow k)
        else .ofInt 32 (convSum act wt H W C R S strideH strideW padH padW oh ow k) +
          int32At bias k) =
        .ofInt 8 (convVal act wt bias H W C R S strideH strideW padH padW quantShift actMode
          oh ow k) :=
    fun oh ow k ↦ refPost_eq _ _ (toInt_biased hRSC (abs_convSum_le _ _ _ _ _ _ _ _ _ _ _ _ _ _)
      bias k)
  simp only [refConv, hacc, hpost]
  exact loop_set₃ _ List.length_replicate

end NpuTb

end LgNpu
