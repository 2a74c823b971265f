import Mathlib.Data.Int.Notation
import Mathlib.Data.Nat.Notation
import Mathlib.Tactic.NormNum

/-!
# Two's complement arithmetic that does not wrap

Sums inside the signed range, sign and magnitude, and saturation to eight
bits.
-/

namespace Signed

variable {w : ℕ}

def sat8 (v : ℤ) : ℤ := max (-128) (min 127 v)

theorem sat8_of_bounds {v : ℤ} (h1 : -128 ≤ v) (h2 : v ≤ 127) : sat8 v = v := by
  rw [sat8]
  omega

theorem sat8_bounds (v : ℤ) : -128 ≤ sat8 v ∧ sat8 v ≤ 127 := by
  rw [sat8]
  omega

theorem bmod_two_pow {v : ℤ} (h1 : -2 ^ w ≤ v) (h2 : v < 2 ^ w) : v.bmod (2 ^ (w + 1)) = v := by
  have hcast : ((2 ^ (w + 1) : ℕ) : ℤ) = 2 * 2 ^ w := by
    push_cast
    rw [Int.pow_succ, Int.mul_comm]
  refine Int.bmod_eq_of_le_mul_two ?_ ?_ <;> rw [hcast] <;> omega

theorem toInt_add (x y : BitVec (w + 1)) (h1 : -2 ^ w ≤ x.toInt + y.toInt)
    (h2 : x.toInt + y.toInt < 2 ^ w) : (x + y).toInt = x.toInt + y.toInt := by
  rw [BitVec.toInt_add, bmod_two_pow h1 h2]

theorem toInt_sub (x y : BitVec (w + 1)) (h1 : -2 ^ w ≤ x.toInt - y.toInt)
    (h2 : x.toInt - y.toInt < 2 ^ w) : (x - y).toInt = x.toInt - y.toInt := by
  rw [BitVec.toInt_sub, bmod_two_pow h1 h2]

/-- Zero extension is not negative. -/
theorem toInt_setWidth {v : ℕ} (x : BitVec v) (h : v ≤ w) :
    (x.setWidth (w + 1)).toInt = x.toNat := by
  have hpow : (2 : ℤ) ^ v ≤ 2 ^ w := by exact_mod_cast Nat.pow_le_pow_right (by omega) h
  have hlt : (x.toNat : ℤ) < 2 ^ v := by exact_mod_cast x.isLt
  rw [BitVec.toInt_setWidth, bmod_two_pow]
  · have : (0 : ℤ) ≤ 2 ^ w := by positivity
    omega
  · omega

theorem toNat_of_nonneg {x : BitVec w} (h : 0 ≤ x.toInt) : (x.toNat : ℤ) = x.toInt := by
  have := x.isLt
  rw [BitVec.toInt_eq_toNat_cond] at h ⊢
  split at h
  · rw [if_pos (by assumption)]
  · omega

/-- Truncation keeps the value modulo the new width. -/
theorem setWidth_eq_ofInt {v : ℕ} (x : BitVec w) (h : v ≤ w) :
    x.setWidth v = .ofInt v x.toInt := by
  rw [← BitVec.signExtend_eq_setWidth_of_le x h]
  rfl

/-! ## Sign and magnitude -/

theorem toNat_magnitude (x : BitVec w) :
    (if x.msb then -x else x).toNat = x.toInt.natAbs := by
  have hlt := x.isLt
  have habs := BitVec.toNat_abs (x := x)
  rw [BitVec.abs_eq] at habs
  rw [habs, BitVec.toInt_eq_msb_cond]
  split <;> omega

theorem msb_eq (x : BitVec w) : x.msb = decide (x.toInt < 0) := BitVec.msb_eq_toInt

theorem toInt_restore (neg : Bool) {q : BitVec (w + 1)} (hq : q.toNat < 2 ^ w) :
    (if neg then -q else q).toInt = if neg then -(q.toNat : ℤ) else q.toNat := by
  have hqi : q.toInt = q.toNat := by
    refine BitVec.toInt_eq_toNat_of_lt ?_
    rw [Nat.pow_succ]
    omega
  have hlt : (q.toNat : ℤ) < 2 ^ w := by exact_mod_cast hq
  cases neg with
  | false => exact hqi
  | true =>
      simp only [if_true]
      rw [BitVec.toInt_neg, hqi, bmod_two_pow] <;> omega

/-- Truncated division acts on the magnitude. -/
theorem tdiv_natCast (v : ℤ) (a : ℕ) :
    v.tdiv a = if v < 0 then -((v.natAbs / a : ℕ) : ℤ) else ((v.natAbs / a : ℕ) : ℤ) := by
  cases v with
  | ofNat n => simp
  | negSucc n =>
      rw [if_pos (Int.negSucc_lt_zero n)]
      rfl

/-! ## Saturating to a byte -/

/-- The comparison chain that clamps a 32-bit value to a byte. -/
theorem clamp8_eq (x : BitVec 32) :
    (if (127 : BitVec 32).slt x then (127 : BitVec 8)
      else if x.slt (-128) then 0x80 else x.setWidth 8) = .ofInt 8 (sat8 x.toInt) := by
  have h127 : (127 : BitVec 32).toInt = 127 := rfl
  have h128 : (-128 : BitVec 32).toInt = -128 := rfl
  rw [BitVec.slt_eq_decide, BitVec.slt_eq_decide, h127, h128, sat8]
  by_cases hhi : 127 < x.toInt
  · rw [if_pos (by simpa using hhi), show max (-128) (min 127 x.toInt) = 127 by omega]
    rfl
  rw [if_neg (by simpa using hhi)]
  by_cases hlo : x.toInt < -128
  · rw [if_pos (by simpa using hlo), show max (-128) (min 127 x.toInt) = -128 by omega]
    rfl
  · rw [if_neg (by simpa using hlo), show max (-128) (min 127 x.toInt) = x.toInt by omega,
      setWidth_eq_ofInt x (by omega)]

theorem ofInt8_inj {a b : ℤ} (ha : -128 ≤ a ∧ a ≤ 127) (hb : -128 ≤ b ∧ b ≤ 127)
    (h : BitVec.ofInt 8 a = BitVec.ofInt 8 b) : a = b := by
  have hint := congrArg BitVec.toInt h
  rwa [BitVec.toInt_ofInt, BitVec.toInt_ofInt, bmod_two_pow (w := 7) (by omega) (by omega),
    bmod_two_pow (w := 7) (by omega) (by omega)] at hint

end Signed
