import LgNpu.Lib.SerialArith
import LgNpu.Lnorm.Spec
import LgNpu.Softmax.Spec
import LgNpu.Tb.Reference

/-!
# The reference models of the row kind

`ref_softmax` and `ref_lnorm` over the integers: no sum wraps, the digit-by-digit
root is the integer root, and the vectors they fill hold what the commands
write.
-/

namespace LgNpu

open ForLoop

namespace NpuTb

/-! ## Softmax -/

section Softmax

variable (input : List Byte) (base n : ℕ)

/-- The row that starts at `base`. -/
def rowAt (j : ℕ) : ℤ := intAt input (base + j)

def softmaxMax : Byte := loop n (-128 : Byte) fun i maxVal ↦
  if maxVal.slt (input.getD (base + i) 0) then input.getD (base + i) 0 else maxVal

def softmaxSum : BitVec 32 := loop n (0 : BitVec 32) fun i sum ↦
  sum + (softmaxExpApprox (softmaxMax input base n - input.getD (base + i) 0)).setWidth 32

def softmaxByte (i : ℕ) : Byte :=
  let expVal := softmaxExpApprox (softmaxMax input base n - input.getD (base + i) 0)
  let numer : BitVec 32 := expVal.setWidth 32 * 127
  let quot : BitVec 8 := (numer / softmaxSum input base n).setWidth 8
  if 127 < quot then 127 else quot

theorem toInt_softmaxMax :
    (softmaxMax input base n).toInt = SoftmaxRow.maxUpTo (rowAt input base) n := by
  have hmap : (softmaxMax input base n).toInt =
      loop n (-128 : ℤ) fun i mx ↦ max mx (rowAt input base i) := by
    refine loop_map BitVec.toInt fun i _ mx ↦ ?_
    rw [BitVec.slt_eq_decide, rowAt, intAt]
    simp only [decide_eq_true_eq]
    split
    · rw [max_eq_right (by omega)]
    · rw [max_eq_left (by omega)]
  rw [hmap, loop_eq_foldl max]
  rfl

variable {n}

/-- The distance of an element to the maximum of its row does not wrap. -/
theorem toNat_softmaxExpApprox {i : ℕ} (hi : i < n) :
    (softmaxExpApprox (softmaxMax input base n - input.getD (base + i) 0)).toNat =
      expOf (SoftmaxRow.maxUpTo (rowAt input base) n - rowAt input base i).toNat := by
  have hle : rowAt input base i ≤ SoftmaxRow.maxUpTo (rowAt input base) n :=
    SoftmaxRow.le_maxUpTo hi
  have hmax := toInt_softmaxMax input base n
  have hlo := (intAt_bounds input (base + i)).1
  have hhi := BitVec.toInt_lt (x := softmaxMax input base n)
  have hdiff : softmaxMax input base n - input.getD (base + i) 0 =
      .ofInt 8 (SoftmaxRow.maxUpTo (rowAt input base) n - rowAt input base i) := by
    apply BitVec.eq_of_toInt_eq
    rw [BitVec.toInt_sub, BitVec.toInt_ofInt, hmax]
    rfl
  rw [hmax] at hhi
  have hlut : ∀ d, softmaxExpApprox d = softmaxExpLut d := fun _ ↦ rfl
  rw [hlut, toNat_softmaxExpLut, hdiff, BitVec.toNat_ofInt]
  change -128 ≤ rowAt input base i at hlo
  rw [Int.emod_eq_of_lt (by omega) (by norm_num at hhi ⊢; omega)]

theorem toNat_softmaxSum (hn : n < 2 ^ 16) : (softmaxSum input base n).toNat =
    SoftmaxRow.expUpTo (rowAt input base) (SoftmaxRow.maxUpTo (rowAt input base) n) n := by
  refine @loop_induction _ n _ _ (fun i (s : BitVec 32) ↦ s.toNat =
    SoftmaxRow.expUpTo (rowAt input base) (SoftmaxRow.maxUpTo (rowAt input base) n) i) rfl
      fun i hi s hs ↦ ?_
  have hle := @SoftmaxRow.expUpTo_le (rowAt input base)
    (SoftmaxRow.maxUpTo (rowAt input base) n) (i + 1)
  have hexp := toNat_softmaxExpApprox input base hi
  rw [SoftmaxRow.expUpTo_succ] at hle ⊢
  rw [BitVec.toNat_add, BitVec.toNat_setWidth, hexp, hs]
  have hlt := expOf_le (SoftmaxRow.maxUpTo (rowAt input base) n - rowAt input base i).toNat
  rw [Nat.mod_eq_of_lt (a := expOf _) (by omega), Nat.mod_eq_of_lt (by omega)]

theorem softmaxByte_eq (hn : n < 2 ^ 16) {i : ℕ} (hi : i < n) :
    softmaxByte input base n i = .ofNat 8 (SoftmaxRow.out (rowAt input base) n i) := by
  have hexp := toNat_softmaxExpApprox input base hi
  have hsum := toNat_softmaxSum input base hn
  have hle := expOf_le (SoftmaxRow.maxUpTo (rowAt input base) n - rowAt input base i).toNat
  have hout : SoftmaxRow.out (rowAt input base) n i ≤ 127 :=
    SoftmaxRow.out_le (by omega) (fun j _ ↦ (intAt_bounds input (base + j)).1) i
  have hquot : (((softmaxExpApprox
      (softmaxMax input base n - input.getD (base + i) 0)).setWidth 32 * 127 : BitVec 32) /
        softmaxSum input base n).setWidth 8 =
        BitVec.ofNat 8 (SoftmaxRow.out (rowAt input base) n i) := by
    apply BitVec.eq_of_toNat_eq
    rw [BitVec.toNat_setWidth, BitVec.toNat_udiv, BitVec.toNat_mul, BitVec.toNat_setWidth, hexp,
      hsum, Nat.mod_eq_of_lt (a := expOf _) (by omega)]
    change expOf _ * 127 % 2 ^ 32 / _ % 2 ^ 8 = _
    rw [Nat.mod_eq_of_lt (a := expOf _ * 127) (by omega), BitVec.toNat_ofNat]
    rfl
  rw [softmaxByte]
  simp only [hquot]
  rw [if_neg]
  rw [BitVec.lt_def, BitVec.toNat_ofNat]
  simp
  omega

theorem refSoftmax_eq {numRows rowLen : ℕ} (hlen : rowLen < 2 ^ 16) :
    refSoftmax input numRows rowLen = (List.range (numRows * rowLen)).map fun e ↦
      .ofNat 8 (SoftmaxRow.out (rowAt input (e / rowLen * rowLen)) rowLen (e % rowLen)) := by
  refine (loop_set₂ (fun r i ↦ softmaxByte input (r * rowLen) rowLen i)
    List.length_replicate).trans (List.map_congr_left fun e he ↦ ?_)
  have hlt := List.mem_range.mp he
  exact softmaxByte_eq _ _ hlen (Nat.mod_lt _ (LoopNest.pos_of_lt_mul hlt))

end Softmax

/-! ## The integer root -/

/-- The root of the digit pairs seen so far and what is left of them. -/
def RootOf (p : ℕ) (s : BitVec 32 × BitVec 16) : Prop :=
  s.1.toNat = p - Nat.sqrt p ^ 2 ∧ s.2.toNat = Nat.sqrt p

theorem toNat_append {w k : ℕ} {x d : BitVec w} (hd : d.toNat < 2 ^ k)
    (hx : 2 ^ k * x.toNat < 2 ^ w) : (x <<< k ||| d).toNat = 2 ^ k * x.toNat + d.toNat := by
  rw [BitVec.toNat_or, BitVec.toNat_shiftLeft, Nat.shiftLeft_eq, Nat.mul_comm,
    Nat.mod_eq_of_lt hx, Nat.mul_comm, ← Nat.shiftLeft_eq, ← Nat.shiftLeft_add_eq_or_of_lt hd,
    Nat.shiftLeft_eq, Nat.mul_comm]

theorem toNat_digit (n : BitVec 32) (i : ℕ) :
    (n >>> (2 * i) &&& 3).toNat = n.toNat / 4 ^ i % 4 := by
  have hpow : 2 ^ (2 * i) = 4 ^ i := by rw [pow_mul]; norm_num
  rw [BitVec.toNat_and, BitVec.toNat_ushiftRight, Nat.shiftRight_eq_div_pow, hpow]
  exact Nat.and_two_pow_sub_one_eq_mod _ 2

theorem RootOf.round {n : BitVec 32} {i : ℕ} {s : BitVec 32 × BitVec 16}
    (h : RootOf (n.toNat / 4 ^ (i + 1)) s) :
    RootOf (n.toNat / 4 ^ i) (isqrtRound n i s) := by
  obtain ⟨p, hp⟩ : ∃ p, p = n.toNat / 4 ^ (i + 1) := ⟨_, rfl⟩
  obtain ⟨t, ht⟩ : ∃ t, t = n.toNat / 4 ^ i % 4 := ⟨_, rfl⟩
  have ht4 : t < 4 := ht ▸ Nat.mod_lt _ (by norm_num)
  have hnext : n.toNat / 4 ^ i = 4 * p + t := by
    rw [hp, ht, pow_succ, ← Nat.div_div_eq_div_mul, Nat.div_add_mod]
  have hplt : p < 2 ^ 15 * 2 ^ 15 := by
    have hfour : 4 ≤ 4 ^ (i + 1) := by
      rw [pow_succ]
      exact Nat.le_mul_of_pos_left 4 (pow_pos (by norm_num) i)
    have hle : p ≤ n.toNat / 4 := hp ▸ Nat.div_le_div_left hfour (by norm_num)
    have := n.isLt
    omega
  have hsqrt : Nat.sqrt p < 2 ^ 15 := Nat.sqrt_lt.mpr hplt
  obtain ⟨hrem, hres⟩ := hp ▸ h
  have hremLe : p - Nat.sqrt p ^ 2 ≤ 2 * Nat.sqrt p := SerialArith.sqrt_rem_le p
  have hrem' : (s.1 <<< 2 ||| n >>> (2 * i) &&& 3).toNat = 4 * (p - Nat.sqrt p ^ 2) + t := by
    rw [toNat_append (by rw [toNat_digit]; omega) (by rw [hrem]; omega), toNat_digit, hrem, ← ht]
    rfl
  have hwide : (s.2.setWidth 32).toNat = Nat.sqrt p := by
    rw [BitVec.toNat_setWidth, hres, Nat.mod_eq_of_lt (by omega)]
  have htrial : (s.2.setWidth 32 <<< 2 ||| 1 : BitVec 32).toNat = 4 * Nat.sqrt p + 1 := by
    rw [toNat_append (by decide) (by rw [hwide]; omega), hwide]
    rfl
  have hroot := SerialArith.sqrt_append_digit p t ht4
  have hrest := SerialArith.sqrt_rem_append_digit p t ht4
  rw [hnext, isqrtRound]
  by_cases hcmp : 4 * Nat.sqrt p + 1 ≤ 4 * (p - Nat.sqrt p ^ 2) + t
  · rw [if_pos hcmp] at hroot hrest
    have hle : (s.2.setWidth 32 <<< 2 ||| 1 : BitVec 32) ≤ s.1 <<< 2 ||| n >>> (2 * i) &&& 3 := by
      rw [BitVec.le_def, hrem', htrial]
      exact hcmp
    simp only [if_pos hle]
    refine ⟨?_, ?_⟩
    · rw [BitVec.toNat_sub_of_le hle, hrem', htrial, hrest]
    · rw [toNat_append (by decide) (by rw [hres]; omega), hres, hroot]
      rfl
  · rw [if_neg hcmp] at hroot hrest
    have hle : ¬(s.2.setWidth 32 <<< 2 ||| 1 : BitVec 32) ≤
        s.1 <<< 2 ||| n >>> (2 * i) &&& 3 := by
      rw [BitVec.le_def, hrem', htrial]
      exact hcmp
    simp only [if_neg hle]
    refine ⟨?_, ?_⟩
    · rw [hrem', hrest, Nat.sub_zero]
    · rw [BitVec.toNat_shiftLeft, Nat.shiftLeft_eq, hres, hroot, Nat.mod_eq_of_lt (by omega)]
      omega

theorem isqrtHw_eq (n : BitVec 32) : (isqrtHw n).toNat = Nat.sqrt n.toNat := by
  have hinv : RootOf (n.toNat / 4 ^ (16 - 16)) (loop 16 (0, 0) fun k ↦ isqrtRound n (15 - k)) := by
    refine @loop_induction _ 16 _ _ (fun k s ↦ RootOf (n.toNat / 4 ^ (16 - k)) s) ?_
      fun k hk s hs ↦ ?_
    · have hzero : n.toNat / 4 ^ (16 - 0) = 0 := Nat.div_eq_of_lt n.isLt
      rw [hzero]
      exact ⟨rfl, rfl⟩
    · have hidx : 16 - k = 15 - k + 1 := by omega
      have hidx' : 16 - (k + 1) = 15 - k := by omega
      rw [hidx] at hs
      rw [hidx']
      exact hs.round
  rw [Nat.sub_self, pow_zero, Nat.div_one] at hinv
  exact hinv.2

/-! ## Layer normalisation -/

section Lnorm

/-- Mean, variance and deviation of the first `n` elements of a row. -/
def rowMean (row : ℕ → ℤ) (n : ℕ) : ℤ := ((List.range n).map row).sum.tdiv n

def rowSquares (row : ℕ → ℤ) (mu : ℤ) (n : ℕ) : ℕ :=
  ((List.range n).map fun j ↦ (row j - mu).natAbs ^ 2).sum

def rowSigma (row : ℕ → ℤ) (n : ℕ) : ℕ :=
  Nat.sqrt (rowSquares row (rowMean row n) n / n + 1)

/-- The normalised value of `x`. -/
def normVal (normShift : ℕ) (mu : ℤ) (sigma : ℕ) (x : ℤ) : ℤ :=
  Signed.sat8 ((x - mu).sign * (min ((x - mu).natAbs * 2 ^ normShift) (2 ^ 32 - 1) / sigma : ℕ))

variable (input : List Byte) (base n : ℕ)

def lnormMean : Acc :=
  (loop n (0 : Acc) fun i sum ↦ sum + int32At input (base + i)).sdiv (.ofNat 32 n)

def lnormVarSum : BitVec 32 := loop n (0 : BitVec 32) fun i varSum ↦
  varSum + (int32At input (base + i) - lnormMean input base n) *
    (int32At input (base + i) - lnormMean input base n)

def lnormStd : BitVec 16 :=
  let std := isqrtHw (lnormVarSum input base n / BitVec.ofNat 32 n + 1)
  if std = 0 then 1 else std

/-- The third pass on a distance to the mean. -/
def lnormByte (normShift : ℕ) (diff : Acc) (std : BitVec 16) : Byte :=
  let neg := diff.slt 0
  let absDiff := if neg then -diff else diff
  let wide : BitVec 64 := absDiff.setWidth 64 <<< normShift
  let scaled : BitVec 32 := if 0xFFFFFFFF < wide then 0xFFFFFFFF else wide.setWidth 32
  let quot := scaled / std.setWidth 32
  let result : Acc :=
    if neg then if 128 < quot then -128 else -quot else if 127 < quot then 127 else quot
  result.setWidth 8

theorem refLnorm_loops (numRows rowLen normShift : ℕ) :
    refLnorm input numRows rowLen normShift =
      loop numRows (List.replicate (numRows * rowLen) 0) fun r out ↦ loop rowLen out fun i out ↦
        out.set (r * rowLen + i) (lnormByte normShift
          (int32At input (r * rowLen + i) - lnormMean input (r * rowLen) rowLen)
          (lnormStd input (r * rowLen) rowLen)) := rfl

theorem sum_row_bounds (b : ℕ) : -(128 * (b : ℤ)) ≤ ((List.range b).map (rowAt input base)).sum ∧
    ((List.range b).map (rowAt input base)).sum ≤ 127 * b := by
  induction b with
  | zero => simp
  | succ b ih =>
      have hx := intAt_bounds input (base + b)
      change -128 ≤ rowAt input base b ∧ rowAt input base b ≤ 127 at hx
      rw [List.range_succ, List.map_append, List.sum_append]
      simp only [List.map_cons, List.map_nil, List.sum_cons, List.sum_nil]
      push_cast
      omega

variable {n}

theorem toInt_lnormMean (hn : n < 2 ^ 16) :
    (lnormMean input base n).toInt = rowMean (rowAt input base) n := by
  have hsum : loop n (0 : Acc) (fun i sum ↦ sum + int32At input (base + i)) =
      .ofInt 32 ((List.range n).map (rowAt input base)).sum := by
    refine @loop_induction _ n _ _ (fun i (s : Acc) ↦ s =
      .ofInt 32 ((List.range i).map (rowAt input base)).sum) rfl fun i hi s hs ↦ ?_
    rw [hs, List.range_succ, List.map_append, List.sum_append, BitVec.ofInt_add, int32At_eq]
    simp [rowAt]
  have hne : BitVec.ofNat 32 n ≠ -1#32 := by bv_omega
  have hden : (BitVec.ofNat 32 n).toInt = n := by
    rw [BitVec.toInt_ofNat']
    exact Signed.bmod_two_pow (w := 31) (by omega) (by omega)
  obtain ⟨hlo, hhi⟩ := sum_row_bounds input base n
  rw [lnormMean, hsum, BitVec.toInt_sdiv_of_ne_or_ne _ _ (.inr hne), hden, BitVec.toInt_ofInt,
    Signed.bmod_two_pow (w := 31) (by omega) (by omega), rowMean]

theorem rowMean_bounds (hn : 0 < n) :
    -128 ≤ rowMean (rowAt input base) n ∧ rowMean (rowAt input base) n ≤ 127 := by
  obtain ⟨hlo, hhi⟩ := sum_row_bounds input base n
  have hdiv : ∀ k : ℕ, (((List.range n).map (rowAt input base)).sum).natAbs ≤ k * n →
      (((List.range n).map (rowAt input base)).sum).natAbs / n ≤ k := by
    intro k hk
    rw [← Nat.mul_div_cancel k hn]
    exact Nat.div_le_div_right hk
  rw [rowMean, Signed.tdiv_natCast]
  split
  · have hle := hdiv 128 (by omega)
    generalize (((List.range n).map (rowAt input base)).sum).natAbs / n = q at hle ⊢
    omega
  · have hle := hdiv 127 (by omega)
    generalize (((List.range n).map (rowAt input base)).sum).natAbs / n = q at hle ⊢
    omega

/-- The distance of an element to the mean. -/
def rowDiff (i : ℕ) : ℤ := rowAt input base i - rowMean (rowAt input base) n

theorem lnormDiff_eq (hn : n < 2 ^ 16) (i : ℕ) :
    int32At input (base + i) - lnormMean input base n = .ofInt 32 (@rowDiff input base n i) := by
  apply BitVec.eq_of_toInt_eq
  rw [BitVec.toInt_sub, toInt_lnormMean input base hn, BitVec.toInt_ofInt, int32At_eq,
    BitVec.toInt_ofInt, Int.bmod_sub_bmod]
  rfl

theorem rowDiff_bounds (hn : 0 < n) (i : ℕ) :
    -255 ≤ @rowDiff input base n i ∧ @rowDiff input base n i ≤ 255 := by
  have hx := intAt_bounds input (base + i)
  change -128 ≤ rowAt input base i ∧ rowAt input base i ≤ 127 at hx
  have hmu := rowMean_bounds input base hn
  rw [rowDiff]
  omega

theorem rowSquares_succ (row : ℕ → ℤ) (mu : ℤ) (n : ℕ) :
    rowSquares row mu (n + 1) = rowSquares row mu n + (row n - mu).natAbs ^ 2 := by
  simp [rowSquares, List.range_succ]

theorem rowSquares_le (hn : 0 < n) (b : ℕ) :
    rowSquares (rowAt input base) (rowMean (rowAt input base) n) b ≤ 65025 * b := by
  induction b with
  | zero => simp [rowSquares]
  | succ b ih =>
      obtain ⟨hlo, hhi⟩ := rowDiff_bounds input base hn b
      rw [rowDiff] at hlo hhi
      have hsq : (rowAt input base b - rowMean (rowAt input base) n).natAbs ^ 2 ≤ 255 ^ 2 :=
        Nat.pow_le_pow_left (by omega) 2
      rw [rowSquares_succ]
      omega

theorem toNat_lnormVarSum (hpos : 0 < n) (hn : n < 2 ^ 16) : (lnormVarSum input base n).toNat =
    rowSquares (rowAt input base) (rowMean (rowAt input base) n) n := by
  refine @loop_induction _ n _ _ (fun i (s : BitVec 32) ↦ s.toNat =
    rowSquares (rowAt input base) (rowMean (rowAt input base) n) i) rfl fun i hi s hs ↦ ?_
  have hle := rowSquares_le input base hpos (i + 1)
  have hsq : (BitVec.ofInt 32 (@rowDiff input base n i) *
      .ofInt 32 (@rowDiff input base n i)).toNat = (@rowDiff input base n i).natAbs ^ 2 := by
    obtain ⟨hlo, hhi⟩ := rowDiff_bounds input base hpos i
    have hcast : @rowDiff input base n i * @rowDiff input base n i =
        ((@rowDiff input base n i).natAbs ^ 2 : ℕ) := by
      rw [pow_two, ← Int.natAbs_mul_self]
    have hbound : (@rowDiff input base n i).natAbs ^ 2 ≤ 255 ^ 2 :=
      Nat.pow_le_pow_left (by omega) 2
    rw [← BitVec.ofInt_mul, hcast, BitVec.ofInt_natCast, BitVec.toNat_ofNat,
      Nat.mod_eq_of_lt (by omega)]
  rw [rowSquares_succ] at hle ⊢
  rw [lnormDiff_eq input base hn, BitVec.toNat_add, hsq, hs, rowDiff, Nat.mod_eq_of_lt (by omega)]

theorem toNat_lnormStd (hpos : 0 < n) (hn : n < 2 ^ 16) :
    (lnormStd input base n).toNat = rowSigma (rowAt input base) n := by
  have hle := rowSquares_le input base hpos n
  have hdiv : rowSquares (rowAt input base) (rowMean (rowAt input base) n) n / n ≤ 65025 := by
    rw [← Nat.mul_div_cancel 65025 hpos]
    exact Nat.div_le_div_right hle
  have hvar : (lnormVarSum input base n / BitVec.ofNat 32 n + 1).toNat =
      rowSquares (rowAt input base) (rowMean (rowAt input base) n) n / n + 1 := by
    rw [BitVec.toNat_add, BitVec.toNat_udiv, toNat_lnormVarSum input base hpos hn,
      BitVec.toNat_ofNat, Nat.mod_eq_of_lt (a := n) (by omega)]
    exact Nat.mod_eq_of_lt (by simp; omega)
  have hroot := isqrtHw_eq (lnormVarSum input base n / BitVec.ofNat 32 n + 1)
  rw [hvar] at hroot
  have hpos' : 0 < Nat.sqrt
      (rowSquares (rowAt input base) (rowMean (rowAt input base) n) n / n + 1) :=
    Nat.sqrt_pos.mpr (Nat.succ_pos _)
  rw [lnormStd, if_neg]
  · exact hroot
  · intro h0
    rw [h0] at hroot
    exact absurd hroot (by simp; omega)

theorem setWidth_ofInt (v : ℤ) : (BitVec.ofInt 32 v).setWidth 8 = .ofInt 8 v := by
  apply BitVec.eq_of_toNat_eq
  rw [BitVec.toNat_setWidth, BitVec.toNat_ofInt, BitVec.toNat_ofInt]
  omega

/-- The scaled magnitude saturates at 32 bits. -/
theorem toNat_scaled {normShift ad : ℕ} (hshift : normShift < 32) (had : ad ≤ 255) :
    (if (0xFFFFFFFF : BitVec 64) < (BitVec.ofNat 32 ad).setWidth 64 <<< normShift then 0xFFFFFFFF
      else ((BitVec.ofNat 32 ad).setWidth 64 <<< normShift).setWidth 32 : BitVec 32).toNat =
        min (ad * 2 ^ normShift) (2 ^ 32 - 1) := by
  have hpow : 2 ^ normShift ≤ 2 ^ 31 := Nat.pow_le_pow_right (by norm_num) (by omega)
  have hmul : ad * 2 ^ normShift ≤ 255 * 2 ^ 31 := Nat.mul_le_mul had hpow
  have hwide : ((BitVec.ofNat 32 ad).setWidth 64 <<< normShift).toNat = ad * 2 ^ normShift := by
    rw [BitVec.toNat_shiftLeft, BitVec.toNat_setWidth, BitVec.toNat_ofNat, Nat.shiftLeft_eq,
      Nat.mod_eq_of_lt (a := ad) (by omega), Nat.mod_eq_of_lt (a := ad) (by omega),
      Nat.mod_eq_of_lt (by omega)]
  by_cases hlt : 2 ^ 32 - 1 < ad * 2 ^ normShift
  · rw [if_pos, Nat.min_eq_right hlt.le]
    · rfl
    · rw [BitVec.lt_def, hwide]
      exact hlt
  · rw [if_neg, Nat.min_eq_left (by omega), BitVec.toNat_setWidth, hwide,
      Nat.mod_eq_of_lt (by omega)]
    rw [BitVec.lt_def, hwide]
    exact hlt

theorem lnormByte_eq {normShift : ℕ} (hshift : normShift < 32) {d : ℤ} (hd : -255 ≤ d ∧ d ≤ 255)
    (std : BitVec 16) : lnormByte normShift (.ofInt 32 d) std =
      .ofInt 8 (Signed.sat8 (d.sign *
        (min (d.natAbs * 2 ^ normShift) (2 ^ 32 - 1) / std.toNat : ℕ))) := by
  obtain ⟨q, hq⟩ : ∃ q, q = min (d.natAbs * 2 ^ normShift) (2 ^ 32 - 1) / std.toNat := ⟨_, rfl⟩
  have hqlt : q < 2 ^ 32 := by
    have hle := Nat.div_le_self (min (d.natAbs * 2 ^ normShift) (2 ^ 32 - 1)) std.toNat
    omega
  have hneg : (BitVec.ofInt 32 d).slt 0 = decide (d < 0) := by
    rw [BitVec.slt_eq_decide, BitVec.toInt_ofInt,
      Signed.bmod_two_pow (w := 31) (by omega) (by omega)]
    rfl
  have habs : (if decide (d < 0) then -BitVec.ofInt 32 d else .ofInt 32 d) =
      BitVec.ofNat 32 d.natAbs := by
    have hcast : BitVec.ofNat 32 d.natAbs = .ofInt 32 (d.natAbs : ℤ) := rfl
    rw [hcast]
    by_cases hlt : d < 0
    · rw [if_pos (by simpa using hlt), ← BitVec.ofInt_neg]
      congr 1
      omega
    · rw [if_neg (by simpa using hlt)]
      congr 1
      omega
  have hquot : (if (0xFFFFFFFF : BitVec 64) < (BitVec.ofNat 32 d.natAbs).setWidth 64 <<< normShift
      then 0xFFFFFFFF else ((BitVec.ofNat 32 d.natAbs).setWidth 64 <<< normShift).setWidth 32 :
        BitVec 32) / std.setWidth 32 = .ofInt 32 q := by
    apply BitVec.eq_of_toNat_eq
    rw [BitVec.toNat_udiv, toNat_scaled hshift (by omega), BitVec.toNat_setWidth,
      Nat.mod_eq_of_lt (a := std.toNat) (by have := std.isLt; omega), ← hq, BitVec.ofInt_natCast,
      BitVec.toNat_ofNat, Nat.mod_eq_of_lt hqlt]
  have hqnat : (BitVec.ofInt 32 (q : ℤ)).toNat = q := by
    rw [BitVec.ofInt_natCast, BitVec.toNat_ofNat, Nat.mod_eq_of_lt hqlt]
  rw [lnormByte]
  simp only [hneg, habs, hquot]
  rw [← hq, Signed.sat8]
  rcases lt_trichotomy d 0 with hlt | rfl | hlt
  · rw [Int.sign_eq_neg_one_of_neg hlt, if_pos (by simpa using hlt)]
    by_cases hbig : 128 < q
    · rw [if_pos (by rw [BitVec.lt_def, hqnat]; exact hbig)]
      have hsat : max (-128) (min 127 (-1 * (q : ℤ))) = -128 := by omega
      rw [hsat]
      rfl
    · rw [if_neg (by rw [BitVec.lt_def, hqnat]; exact hbig), ← BitVec.ofInt_neg, setWidth_ofInt]
      congr 1
      omega
  · have hzero : q = 0 := by simp [hq]
    subst hzero
    rfl
  · rw [Int.sign_eq_one_of_pos hlt, if_neg (by simpa using hlt.le)]
    by_cases hbig : 127 < q
    · rw [if_pos (by rw [BitVec.lt_def, hqnat]; exact hbig)]
      have hsat : max (-128) (min 127 (1 * (q : ℤ))) = 127 := by omega
      rw [hsat]
      rfl
    · rw [if_neg (by rw [BitVec.lt_def, hqnat]; exact hbig), setWidth_ofInt]
      congr 1
      omega

theorem refLnorm_eq {numRows rowLen normShift : ℕ} (hlen : rowLen < 2 ^ 16)
    (hshift : normShift < 32) : refLnorm input numRows rowLen normShift =
      (List.range (numRows * rowLen)).map fun e ↦
        .ofInt 8 (normVal normShift (rowMean (rowAt input (e / rowLen * rowLen)) rowLen)
          (rowSigma (rowAt input (e / rowLen * rowLen)) rowLen)
          (rowAt input (e / rowLen * rowLen) (e % rowLen))) := by
  rw [refLnorm_loops]
  refine (loop_set₂ (fun r i ↦ lnormByte normShift
    (int32At input (r * rowLen + i) - lnormMean input (r * rowLen) rowLen)
      (lnormStd input (r * rowLen) rowLen)) List.length_replicate).trans
        (List.map_congr_left fun e he ↦ ?_)
  have hpos : 0 < rowLen := LoopNest.pos_of_lt_mul (List.mem_range.mp he)
  rw [lnormDiff_eq input _ hlen, lnormByte_eq hshift (rowDiff_bounds input _ hpos _),
    toNat_lnormStd input _ hpos hlen]
  rfl

end Lnorm

end NpuTb

end LgNpu
