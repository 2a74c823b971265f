import LgNpu.Softmax.Ctrl
import Mathlib.Algebra.BigOperators.Group.List.Basic
import Mathlib.Algebra.Order.BigOperators.Group.List
import Mathlib.Algebra.Order.Ring.Nat
import Mathlib.Data.List.GetD
import Mathlib.Order.Monotone.Basic
import Mathlib.Tactic.NormNum.Basic

/-!
# The integer softmax of a row

`exp` is the product of two tables; a row is scaled by `127` over the sum of
its exponentials, rounding down.  Whatever the row, the outputs lie in
`[0, 127]`, keep the order of the inputs, sum to at most `127` and do not
change when the row is shifted.
-/

namespace LgNpu

/-- `exp(-d / 32)` scaled to 16 bits, as the two tables approximate it. -/
def expOf (d : ℕ) : ℕ :=
  ((expIntTable.getD (d >>> 5) 0).toNat * (expFracTable.getD (d % 32) 0).toNat) >>> 16

theorem toNat_softmaxExpLut (diff : BitVec 8) : (softmaxExpLut diff).toNat = expOf diff.toNat := by
  have hprod : ∀ a b : BitVec 16, (((a.setWidth 32 * b.setWidth 32) >>> 16).setWidth 16).toNat =
      (a.toNat * b.toNat) >>> 16 := by
    intro a b
    have ha := a.isLt
    have hb := b.isLt
    have hmul : a.toNat * b.toNat ≤ (2 ^ 16 - 1) * (2 ^ 16 - 1) :=
      Nat.mul_le_mul (by omega) (by omega)
    simp only [BitVec.toNat_setWidth, BitVec.toNat_ushiftRight, BitVec.toNat_mul,
      Nat.shiftRight_eq_div_pow]
    rw [Nat.mod_eq_of_lt (a := a.toNat) (by omega), Nat.mod_eq_of_lt (a := b.toNat) (by omega),
      Nat.mod_eq_of_lt (a := a.toNat * b.toNat) (by omega), Nat.mod_eq_of_lt (by omega)]
  have hlow : (diff &&& 31).toNat = diff.toNat % 32 := by
    rw [BitVec.toNat_and]
    exact Nat.and_two_pow_sub_one_eq_mod _ 5
  rw [softmaxExpLut, hprod, hlow, BitVec.toNat_ushiftRight, expOf]

theorem expOf_zero : expOf 0 = 65534 := by decide

theorem expOf_le (d : ℕ) : expOf d ≤ 65534 := by
  have ha := (expIntTable.getD (d >>> 5) 0).isLt
  have hb := (expFracTable.getD (d % 32) 0).isLt
  have hmul := Nat.mul_le_mul (Nat.le_sub_one_of_lt ha) (Nat.le_sub_one_of_lt hb)
  rw [expOf, Nat.shiftRight_eq_div_pow _ 16]
  omega

/-- Past the last segment of the table nothing is left. -/
theorem expOf_eq_zero {d : ℕ} (h : 256 ≤ d) : expOf d = 0 := by
  have hlen : expIntTable.length ≤ d >>> 5 := by
    rw [Nat.shiftRight_eq_div_pow]
    change 8 ≤ d / 32
    omega
  rw [expOf, List.getD_eq_default _ _ hlen]
  simp

/-- The truncated product falls inside every segment and across each of the
boundaries between segments. -/
theorem expOf_antitone : Antitone expOf := by
  have htable : ∀ d < 255, expOf (d + 1) ≤ expOf d := by decide +kernel
  refine antitone_nat_of_succ_le fun d ↦ ?_
  rcases Nat.lt_or_ge d 255 with h | h
  · exact htable d h
  · rw [expOf_eq_zero (by omega)]
    exact Nat.zero_le _

namespace SoftmaxRow

variable (row : ℕ → ℤ)

/-- The maximum of the first `b` elements. -/
def maxUpTo (b : ℕ) : ℤ := ((List.range b).map row).foldl max (-128)

/-- The sum of the first `b` exponentials, below the maximum `mx`. -/
def expUpTo (mx : ℤ) (b : ℕ) : ℕ := ((List.range b).map fun j ↦ expOf (mx - row j).toNat).sum

/-- Output `j` of a row of `n` elements. -/
def out (n j : ℕ) : ℕ :=
  expOf (maxUpTo row n - row j).toNat * 127 / expUpTo row (maxUpTo row n) n

theorem maxUpTo_succ (b : ℕ) : maxUpTo row (b + 1) = max (maxUpTo row b) (row b) := by
  simp [maxUpTo, List.range_succ]

theorem expUpTo_succ (mx : ℤ) (b : ℕ) :
    expUpTo row mx (b + 1) = expUpTo row mx b + expOf (mx - row b).toNat := by
  simp [expUpTo, List.range_succ]

theorem neg_le_maxUpTo (b : ℕ) : -128 ≤ maxUpTo row b := by
  induction b with
  | zero => simp [maxUpTo]
  | succ b ih =>
      rw [maxUpTo_succ]
      omega

variable {row} {n : ℕ}

theorem maxUpTo_le {b : ℕ} {l : ℤ} (hl : -128 ≤ l) (h : ∀ j < b, row j ≤ l) :
    maxUpTo row b ≤ l := by
  induction b with
  | zero => simpa [maxUpTo] using hl
  | succ b ih =>
      have hlast := h b (Nat.lt_succ_self b)
      have hrest := ih fun j hj ↦ h j (by omega)
      rw [maxUpTo_succ]
      omega

theorem le_maxUpTo {j b : ℕ} (h : j < b) : row j ≤ maxUpTo row b := by
  induction b with
  | zero => omega
  | succ b ih =>
      rw [maxUpTo_succ]
      rcases Nat.lt_succ_iff_lt_or_eq.mp h with hlt | rfl
      · have := ih hlt
        omega
      · omega

/-- Some element attains the maximum of a nonempty row. -/
theorem exists_eq_maxUpTo {b : ℕ} (hrow : ∀ j < b + 1, -128 ≤ row j) :
    ∃ j < b + 1, maxUpTo row (b + 1) = row j := by
  induction b with
  | zero =>
      have h := hrow 0 (by omega)
      refine ⟨0, by omega, ?_⟩
      rw [maxUpTo_succ, maxUpTo, List.range_zero, List.map_nil, List.foldl_nil]
      omega
  | succ b ih =>
      obtain ⟨j, hj, heq⟩ := ih fun j hj ↦ hrow j (by omega)
      rw [maxUpTo_succ, heq]
      by_cases hle : row j ≤ row (b + 1)
      · exact ⟨b + 1, by omega, by omega⟩
      · exact ⟨j, by omega, by omega⟩

theorem expUpTo_le (mx : ℤ) (b : ℕ) : expUpTo row mx b ≤ b * 65534 := by
  induction b with
  | zero => simp [expUpTo]
  | succ b ih =>
      have := expOf_le (mx - row b).toNat
      rw [expUpTo_succ]
      omega

theorem maxUpTo_congr {row' : ℕ → ℤ} {b : ℕ} (h : ∀ j < b, row j = row' j) :
    maxUpTo row b = maxUpTo row' b := by
  rw [maxUpTo, maxUpTo, List.map_congr_left fun j hj ↦ h j (List.mem_range.mp hj)]

theorem expUpTo_congr {row' : ℕ → ℤ} {mx mx' : ℤ} {b : ℕ}
    (h : ∀ j < b, mx - row j = mx' - row' j) : expUpTo row mx b = expUpTo row' mx' b := by
  rw [expUpTo, expUpTo]
  congr 1
  refine List.map_congr_left fun j hj ↦ ?_
  rw [h j (List.mem_range.mp hj)]

/-- The maximal element alone contributes `exp 0` to the sum. -/
theorem le_expUpTo (hn : 0 < n) (hrow : ∀ j < n, -128 ≤ row j) :
    65534 ≤ expUpTo row (maxUpTo row n) n := by
  obtain ⟨b, rfl⟩ : ∃ b, n = b + 1 := ⟨_, (Nat.sub_add_cancel hn).symm⟩
  obtain ⟨j, hj, heq⟩ := exists_eq_maxUpTo hrow
  have hexp : expOf (maxUpTo row (b + 1) - row j).toNat = 65534 := by
    rw [heq, sub_self, Int.toNat_zero, expOf_zero]
  rw [← hexp]
  exact List.single_le_sum (fun _ _ ↦ Nat.zero_le _) _
    (List.mem_map.mpr ⟨j, List.mem_range.mpr hj, rfl⟩)

/-- An exponential scaled by the sum of its row stays in the positive INT8
range. -/
theorem scaled_le {e sum : ℕ} (he : e ≤ 65534) (hsum : 65534 ≤ sum) : e * 127 / sum ≤ 127 :=
  calc e * 127 / sum ≤ 65534 * 127 / sum := Nat.div_le_div_right (Nat.mul_le_mul_right _ he)
    _ ≤ 65534 * 127 / 65534 := Nat.div_le_div_left hsum (by omega)
    _ = 127 := by norm_num

/-! ## The laws of a row -/

theorem out_le (hn : 0 < n) (hrow : ∀ j < n, -128 ≤ row j) (j : ℕ) : out row n j ≤ 127 :=
  scaled_le (expOf_le _) (le_expUpTo hn hrow)

/-- Larger inputs have larger outputs, equal inputs equal ones. -/
theorem out_mono {j k : ℕ} (h : row j ≤ row k) : out row n j ≤ out row n k := by
  have hdist : (maxUpTo row n - row k).toNat ≤ (maxUpTo row n - row j).toNat := by omega
  exact Nat.div_le_div_right (Nat.mul_le_mul_right _ (expOf_antitone hdist))

/-- The rounded quotients of a row sum to at most the unrounded scale. -/
theorem sum_out_le (hn : 0 < n) (hrow : ∀ j < n, -128 ≤ row j) :
    ((List.range n).map (out row n)).sum ≤ 127 := by
  obtain ⟨s, hs⟩ : ∃ s, s = expUpTo row (maxUpTo row n) n := ⟨_, rfl⟩
  have hpos : 65534 ≤ s := hs ▸ le_expUpTo hn hrow
  -- Each floor is at most its quotient, so the partial sums stay below the partial sums of
  -- the exponentials.
  have hpartial : ∀ b, s * ((List.range b).map (out row n)).sum ≤
      expUpTo row (maxUpTo row n) b * 127 := by
    intro b
    induction b with
    | zero => simp
    | succ b ih =>
        have hb : s * out row n b ≤ expOf (maxUpTo row n - row b).toNat * 127 := by
          rw [out, ← hs]
          exact Nat.mul_div_le _ _
        rw [expUpTo_succ, List.range_succ, List.map_append, List.sum_append, Nat.mul_add,
          Nat.add_mul]
        simpa using Nat.add_le_add ih hb
  have hall := hpartial n
  rw [← hs] at hall
  exact Nat.le_of_mul_le_mul_left hall (by omega)

/-- A shift moves the maximum along, so no distance to it changes. -/
theorem out_shift {row' : ℕ → ℤ} {c : ℤ} (hn : 0 < n) (hrow : ∀ j < n, -128 ≤ row j)
    (hrow' : ∀ j < n, -128 ≤ row' j) (h : ∀ j < n, row' j = row j + c) {j : ℕ} (hj : j < n) :
    out row' n j = out row n j := by
  have hmax : maxUpTo row' n = maxUpTo row n + c := by
    obtain ⟨b, rfl⟩ : ∃ b, n = b + 1 := ⟨_, (Nat.sub_add_cancel hn).symm⟩
    obtain ⟨k, hk, heq⟩ := exists_eq_maxUpTo hrow
    obtain ⟨k', hk', heq'⟩ := exists_eq_maxUpTo hrow'
    have hle : row k' ≤ maxUpTo row (b + 1) := le_maxUpTo hk'
    have hle' : row' k ≤ maxUpTo row' (b + 1) := le_maxUpTo hk
    rw [h k hk] at hle'
    rw [h k' hk'] at heq'
    omega
  have hdist : ∀ k < n, maxUpTo row' n - row' k = maxUpTo row n - row k := by
    intro k hk
    rw [hmax, h k hk]
    omega
  rw [out, out, hdist j hj, expUpTo_congr hdist]

end SoftmaxRow

end LgNpu
