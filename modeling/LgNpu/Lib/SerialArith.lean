import Mathlib.Data.Nat.Sqrt
import Mathlib.Tactic.Ring
import Mathlib.Tactic.Linarith

/-!
# Serial restoring division and square root

Both circuits consume their operand from the most significant end and keep a
partial result for the prefix already consumed.  The invariants below speak
about that prefix: after `i` steps the registers hold the exact result for the
operand shifted right by the digits that remain.
-/

namespace SerialArith

/-! ## One digit of a long division -/

theorem append_bit (d x b : ℕ) : 2 * x + b = (2 * (x % d) + b) + d * (2 * (x / d)) := by
  have hx := Nat.mod_add_div x d
  have hdouble : d * (2 * (x / d)) = 2 * (d * (x / d)) := by ring
  omega

/-- Appending the bit `b` to a dividend prefix `x` doubles the quotient and
adds the bit decided by the restoring comparison. -/
theorem div_append_bit {d : ℕ} (hd : 0 < d) (x b : ℕ) (hb : b < 2) :
    (2 * x + b) / d = 2 * (x / d) + (if d ≤ 2 * (x % d) + b then 1 else 0) := by
  have hlt := Nat.mod_lt x hd
  rw [append_bit d x b, Nat.add_mul_div_left _ _ hd, Nat.add_comm]
  congr 1
  split
  · next h => rw [Nat.div_eq_of_lt_le] <;> omega
  · next h => exact Nat.div_eq_of_lt (by omega)

/-- The restored remainder after appending the bit `b`. -/
theorem mod_append_bit {d : ℕ} (hd : 0 < d) (x b : ℕ) (hb : b < 2) :
    (2 * x + b) % d = 2 * (x % d) + b - (if d ≤ 2 * (x % d) + b then d else 0) := by
  have hlt := Nat.mod_lt x hd
  rw [append_bit d x b, Nat.add_mul_mod_self_left]
  split
  · next h => rw [Nat.mod_eq_sub_mod h, Nat.mod_eq_of_lt (by omega)]
  · next h => rw [Nat.mod_eq_of_lt (by omega), Nat.sub_zero]

/-- The prefix with one more digit exposed. -/
theorem prefix_succ (n k : ℕ) : n / 2 ^ k = 2 * (n / 2 ^ (k + 1)) + n / 2 ^ k % 2 := by
  rw [pow_succ, ← Nat.div_div_eq_div_mul]
  omega

theorem suffix_succ (n k : ℕ) : n % 2 ^ (k + 1) = 2 ^ k * (n / 2 ^ k % 2) + n % 2 ^ k := by
  rw [pow_succ, Nat.mod_mul, Nat.add_comm]

/-! ## The divider registers

The numerator is shifted out of the quotient register at its top while the
quotient bits enter at its bottom. -/

section Divider

variable {w : ℕ}

structure DivRegs (w : ℕ) where
  quot : BitVec w
  rem : BitVec w
  deriving DecidableEq

/-- The remainder with the next numerator bit shifted in. -/
def divTrial (x : DivRegs w) : BitVec w := x.rem.shiftConcat x.quot.msb

def DivRegs.next (denom : BitVec w) (x : DivRegs w) : DivRegs w :=
  if denom ≤ divTrial x then
    ⟨x.quot.shiftConcat true, divTrial x - denom⟩
  else
    ⟨x.quot.shiftConcat false, divTrial x⟩

/-- After `i` cycles on numerator `n`, with `k` numerator bits still to come:
the remainder and the low quotient bits are exact for the prefix consumed. -/
structure DivInv (n d i k : ℕ) (x : DivRegs w) : Prop where
  width : i + k = w
  rem : x.rem.toNat = n / 2 ^ k % d
  quot : x.quot.toNat = n % 2 ^ k * 2 ^ i + n / 2 ^ k / d

theorem DivInv.init {n : BitVec w} (d : ℕ) : DivInv n.toNat d 0 w ⟨n, 0⟩ := by
  have hn : n.toNat / 2 ^ w = 0 := Nat.div_eq_of_lt n.isLt
  exact ⟨Nat.zero_add w, by simp [hn], by simp [hn, Nat.mod_eq_of_lt n.isLt]⟩

theorem toNat_shiftConcat (x : BitVec w) (b : Bool) :
    (x.shiftConcat b).toNat = (2 * x.toNat + b.toNat) % 2 ^ w := by
  simp only [BitVec.shiftConcat, BitVec.toNat_setWidth, BitVec.toNat_concat]
  rw [Nat.mul_comm]

/-- The shift drops no bit of a remainder this small. -/
theorem toNat_divTrial {x : DivRegs w} (h : 2 * x.rem.toNat + 1 < 2 ^ w) :
    (divTrial x).toNat = 2 * x.rem.toNat + x.quot.msb.toNat := by
  have := Bool.toNat_lt x.quot.msb
  rw [divTrial, toNat_shiftConcat, Nat.mod_eq_of_lt (by omega)]

theorem DivInv.rem_lt {n d i k : ℕ} {x : DivRegs w} (hpos : 0 < d) (h : DivInv n d i k x) :
    x.rem.toNat < d := h.rem ▸ Nat.mod_lt _ hpos

theorem DivInv.trial_eq {n d i k : ℕ} {x : DivRegs w} (hw : 0 < w) (hpos : 0 < d)
    (hhalf : d ≤ 2 ^ (w - 1)) (h : DivInv n d i k x) :
    (divTrial x).toNat = 2 * x.rem.toNat + x.quot.msb.toNat := by
  have hlt := h.rem_lt hpos
  have hpw : 2 ^ w = 2 * 2 ^ (w - 1) := by
    rw [← pow_succ', show w - 1 + 1 = w by omega]
  exact toNat_divTrial (by omega)

theorem DivInv.step {n d i k : ℕ} {x : DivRegs w} {denom : BitVec w}
    (hn : n < 2 ^ w) (hd : denom.toNat = d) (hpos : 0 < d) (hhalf : d ≤ 2 ^ (w - 1))
    (h : DivInv n d i (k + 1) x) : DivInv n d (i + 1) k (x.next denom) := by
  have hw := h.width
  have htrial := h.trial_eq (by omega) hpos hhalf
  obtain ⟨-, hrem, hquot⟩ := h
  obtain ⟨bit, hbit⟩ : ∃ bit, bit = n / 2 ^ k % 2 := ⟨_, rfl⟩
  have hbit2 : bit < 2 := hbit ▸ Nat.mod_lt _ (by omega)
  have hpw : 2 ^ w = 2 * (2 ^ k * 2 ^ i) := by
    rw [← pow_add, ← pow_succ', show k + i + 1 = w by omega]
  have hpw1 : 2 ^ (w - 1) = 2 ^ k * 2 ^ i := by
    rw [← pow_add, show k + i = w - 1 by omega]
  -- The top bit of the quotient register is the next numerator bit.
  have hpre : n / 2 ^ (k + 1) < 2 ^ i := by
    rw [Nat.div_lt_iff_lt_mul (by positivity), ← pow_add, show i + (k + 1) = w by omega]
    exact hn
  have hq : n / 2 ^ (k + 1) / d < 2 ^ i := lt_of_le_of_lt (Nat.div_le_self _ _) hpre
  have hlow : n % 2 ^ k * 2 ^ i + n / 2 ^ (k + 1) / d < 2 ^ k * 2 ^ i := by
    have hs : n % 2 ^ k + 1 ≤ 2 ^ k := Nat.mod_lt _ (by positivity)
    calc n % 2 ^ k * 2 ^ i + n / 2 ^ (k + 1) / d
        < n % 2 ^ k * 2 ^ i + 2 ^ i := by omega
      _ = (n % 2 ^ k + 1) * 2 ^ i := by ring
      _ ≤ 2 ^ k * 2 ^ i := Nat.mul_le_mul_right _ hs
  have hquot' : x.quot.toNat =
      bit * (2 ^ k * 2 ^ i) + (n % 2 ^ k * 2 ^ i + n / 2 ^ (k + 1) / d) := by
    rw [hquot, suffix_succ, ← hbit]
    ring
  have hmsb : x.quot.msb.toNat = bit := by
    rw [BitVec.msb_eq_decide, hpw1, hquot']
    obtain rfl | rfl : bit = 0 ∨ bit = 1 := by omega
    · simpa using hlow
    · simp
  rw [hmsb, hrem] at htrial
  have hshift : ∀ b : Bool, (x.quot.shiftConcat b).toNat =
      n % 2 ^ k * 2 ^ (i + 1) + (2 * (n / 2 ^ (k + 1) / d) + b.toNat) := by
    intro b
    have hb : b.toNat < 2 := Bool.toNat_lt b
    have hexp : 2 * x.quot.toNat + b.toNat = (n % 2 ^ k * 2 ^ (i + 1) +
        (2 * (n / 2 ^ (k + 1) / d) + b.toNat)) + 2 ^ w * bit := by
      rw [hquot', hpw, pow_succ]
      ring
    have hsmall : n % 2 ^ k * 2 ^ (i + 1) = 2 * (n % 2 ^ k * 2 ^ i) := by
      rw [pow_succ]
      ring
    rw [toNat_shiftConcat, hexp, Nat.add_mul_mod_self_left, Nat.mod_eq_of_lt]
    omega
  have hle : denom ≤ divTrial x ↔ d ≤ 2 * (n / 2 ^ (k + 1) % d) + bit := by
    rw [BitVec.le_def, htrial, hd]
  have hnext := div_append_bit hpos (n / 2 ^ (k + 1)) bit hbit2
  have hmod := mod_append_bit hpos (n / 2 ^ (k + 1)) bit hbit2
  rw [hbit, ← prefix_succ, ← hbit] at hnext hmod
  unfold DivRegs.next
  by_cases hcmp : denom ≤ divTrial x
  · rw [if_pos hcmp]
    rw [if_pos (hle.mp hcmp)] at hnext hmod
    refine ⟨by omega, ?_, ?_⟩
    · rw [hmod, BitVec.toNat_sub_of_le hcmp, htrial, hd]
    · rw [hshift, hnext]
      rfl
  · rw [if_neg hcmp]
    rw [if_neg (fun h ↦ hcmp (hle.mpr h))] at hnext hmod
    refine ⟨by omega, ?_, ?_⟩
    · rw [hmod, htrial, Nat.sub_zero]
    · rw [hshift, hnext]
      rfl

/-- The same step, the bits to come counted from the width. -/
theorem DivInv.advance {n d i : ℕ} {x : DivRegs w} {denom : BitVec w}
    (hn : n < 2 ^ w) (hd : denom.toNat = d) (hpos : 0 < d) (hhalf : d ≤ 2 ^ (w - 1)) (hi : i < w)
    (h : DivInv n d i (w - i) x) : DivInv n d (i + 1) (w - (i + 1)) (x.next denom) := by
  have hleft : w - i = w - (i + 1) + 1 := by omega
  exact (hleft ▸ h).step hn hd hpos hhalf

/-- With no numerator bit left the registers hold quotient and remainder. -/
theorem DivInv.final {n d i : ℕ} {x : DivRegs w} (h : DivInv n d i 0 x) :
    x.quot.toNat = n / d ∧ x.rem.toNat = n % d := by
  refine ⟨?_, ?_⟩
  · simpa [Nat.mod_one] using h.quot
  · simpa using h.rem

/-- A zero divisor: every comparison succeeds and shifts in a one. -/
theorem DivRegs.next_zero_quot (x : DivRegs w) :
    (x.next 0).quot = x.quot.shiftConcat true := by
  have hle : (0 : BitVec w) ≤ divTrial x := by simp [BitVec.le_def]
  rw [DivRegs.next, if_pos hle]

/-! ## A 32-bit division paced by a down counter -/

/-- `k` cycles into the division of `n` by `d`; the counter started at 31. -/
structure DivRun (n d k : ℕ) (x : DivRegs 32) (denom : BitVec 32) (cnt : BitVec 5) : Prop where
  lt : n < 2 ^ 32
  inv : DivInv n d k (32 - k) x
  denom : denom.toNat = d
  cnt : cnt.toNat + k = 31

theorem DivRun.start {q denom : BitVec 32} {n d : ℕ} (hq : q.toNat = n) (hd : denom.toNat = d) :
    DivRun n d 0 ⟨q, 0⟩ denom 31 := by
  subst hq
  exact ⟨q.isLt, DivInv.init d, hd, rfl⟩

theorem DivRun.inv_next {n d k : ℕ} {x : DivRegs 32} {denom : BitVec 32} {cnt : BitVec 5}
    (hpos : 0 < d) (hhalf : d ≤ 2 ^ 31) (h : DivRun n d k x denom cnt) :
    DivInv n d (k + 1) (32 - (k + 1)) (x.next denom) := by
  have hcnt := h.cnt
  exact h.inv.advance h.lt h.denom hpos hhalf (by omega)

theorem DivRun.next {n d k : ℕ} {x : DivRegs 32} {denom : BitVec 32} {cnt : BitVec 5}
    (hpos : 0 < d) (hhalf : d ≤ 2 ^ 31) (hne : cnt ≠ 0) (h : DivRun n d k x denom cnt) :
    DivRun n d (k + 1) (x.next denom) denom (cnt - 1) := by
  have hcnt : 0 < cnt.toNat := Nat.pos_of_ne_zero fun h ↦ hne (BitVec.eq_of_toNat_eq h)
  have hone : (1 : BitVec 5).toNat = 1 := rfl
  have hlt := cnt.isLt
  have hsum := h.cnt
  refine ⟨h.lt, h.inv_next hpos hhalf, h.denom, ?_⟩
  rw [BitVec.toNat_sub, hone]
  omega

/-- The quotient is complete in the cycle in which the counter is zero. -/
theorem DivRun.last {n d k : ℕ} {x : DivRegs 32} {denom : BitVec 32} {cnt : BitVec 5}
    (hpos : 0 < d) (hhalf : d ≤ 2 ^ 31) (hzero : cnt = 0) (h : DivRun n d k x denom cnt) :
    (x.next denom).quot.toNat = n / d := by
  have hk : k = 31 := by
    have := h.cnt
    rw [hzero] at this
    simpa using this
  have hinv := h.inv_next hpos hhalf
  rw [hk] at hinv
  exact hinv.final.1

/-! ## A divider with a separate numerator register

The numerator is shifted out of its own register, so the quotient register may
be narrower. -/

section Split

variable {p r q : ℕ}

theorem msb_shiftLeft_ofNat {n i k : ℕ} (h : i + (k + 1) = p) :
    ((BitVec.ofNat p n) <<< i).msb.toNat = n / 2 ^ k % 2 := by
  rw [BitVec.msb_shiftLeft, BitVec.getMsbD_eq_getLsbD, BitVec.getLsbD_ofNat,
    show p - 1 - i = k by omega, Nat.testBit_eq_decide_div_mod_eq]
  have := Nat.mod_lt (n / 2 ^ k) (show 0 < 2 by omega)
  rw [show decide (i < p) = true by simp; omega, show decide (k < p) = true by simp; omega]
  by_cases hbit : n / 2 ^ k % 2 = 1
  · simp [hbit]
  · rw [show n / 2 ^ k % 2 = 0 by omega]
    simp

/-- After `i` cycles with `k` numerator bits left. -/
structure SplitInv (n d i k : ℕ) (numer : BitVec p) (rem : BitVec r) (quot : BitVec q) : Prop where
  width : i + k = p
  numer : numer = BitVec.ofNat p n <<< i
  rem : rem.toNat = n / 2 ^ k % d
  quot : quot.toNat = n / 2 ^ k / d

theorem SplitInv.init {n d : ℕ} (hn : n < 2 ^ p) :
    SplitInv n d 0 p (.ofNat p n) (0 : BitVec r) (0 : BitVec q) := by
  have hzero : n / 2 ^ p = 0 := Nat.div_eq_of_lt hn
  exact ⟨Nat.zero_add p, by simp, by simp [hzero], by simp [hzero]⟩

theorem SplitInv.step {n d i k : ℕ} {numer : BitVec p} {rem : BitVec r} {quot : BitVec q}
    {denom : BitVec r} (hn : n < 2 ^ p) (hr : 2 ^ p ≤ 2 ^ r) (hq : n / d < 2 ^ q)
    (hpos : 0 < d) (hd : denom.toNat = d) (h : SplitInv n d i (k + 1) numer rem quot) :
    SplitInv n d (i + 1) k (numer.shiftConcat false)
      (if rem.shiftConcat numer.msb < denom then rem.shiftConcat numer.msb
        else rem.shiftConcat numer.msb - denom)
      (quot.shiftConcat (!decide (rem.shiftConcat numer.msb < denom))) := by
  obtain ⟨hw, hnum, hrem, hquot⟩ := h
  have hbit : numer.msb.toNat = n / 2 ^ k % 2 := by rw [hnum, msb_shiftLeft_ofNat hw]
  have hnext := div_append_bit hpos (n / 2 ^ (k + 1)) _ (Nat.mod_lt (n / 2 ^ k) two_pos)
  have hmod := mod_append_bit hpos (n / 2 ^ (k + 1)) _ (Nat.mod_lt (n / 2 ^ k) two_pos)
  rw [← prefix_succ] at hnext hmod
  -- The shifted remainder is at most the prefix, so no bit of it is lost.
  have hshift : (rem.shiftConcat numer.msb).toNat =
      2 * (n / 2 ^ (k + 1) % d) + n / 2 ^ k % 2 := by
    have hle := Nat.mod_le (n / 2 ^ (k + 1)) d
    have hpre := prefix_succ n k
    have hdiv := Nat.div_le_self n (2 ^ k)
    rw [toNat_shiftConcat, hrem, hbit, Nat.mod_eq_of_lt]
    omega
  have hlt : rem.shiftConcat numer.msb < denom ↔
      ¬d ≤ 2 * (n / 2 ^ (k + 1) % d) + n / 2 ^ k % 2 := by
    rw [BitVec.lt_def, hshift, hd, Nat.not_le]
  have hqle : n / 2 ^ k / d < 2 ^ q :=
    lt_of_le_of_lt (Nat.div_le_div_right (Nat.div_le_self n _)) hq
  have hquot' : ∀ b : Bool, 2 * (n / 2 ^ (k + 1) / d) + b.toNat < 2 ^ q →
      (quot.shiftConcat b).toNat = 2 * (n / 2 ^ (k + 1) / d) + b.toNat := by
    intro b hb
    rw [toNat_shiftConcat, hquot, Nat.mod_eq_of_lt hb]
  refine ⟨by omega, ?_, ?_, ?_⟩
  · refine BitVec.eq_of_toNat_eq ?_
    rw [hnum, toNat_shiftConcat, BitVec.shiftLeft_add]
    generalize BitVec.ofNat p n <<< i = y
    rw [BitVec.toNat_shiftLeft, Nat.shiftLeft_eq, Nat.mul_comm]
    rfl
  · by_cases hcmp : rem.shiftConcat numer.msb < denom
    · rw [if_neg (hlt.mp hcmp)] at hmod
      rw [if_pos hcmp, hshift, hmod, Nat.sub_zero]
    · have hge := not_not.mp fun h ↦ hcmp (hlt.mpr h)
      rw [if_pos hge] at hmod
      rw [if_neg hcmp, BitVec.toNat_sub_of_le (BitVec.not_lt.mp hcmp), hshift, hd, hmod]
  · by_cases hcmp : rem.shiftConcat numer.msb < denom
    · rw [if_neg (hlt.mp hcmp)] at hnext
      rw [hnext] at hqle ⊢
      rw [decide_eq_true hcmp]
      exact hquot' false hqle
    · have hge := not_not.mp fun h ↦ hcmp (hlt.mpr h)
      rw [if_pos hge] at hnext
      rw [hnext] at hqle ⊢
      rw [decide_eq_false hcmp]
      exact hquot' true hqle

theorem SplitInv.final {n d i : ℕ} {numer : BitVec p} {rem : BitVec r} {quot : BitVec q}
    (h : SplitInv n d i 0 numer rem quot) : quot.toNat = n / d := by
  simpa using h.quot

end Split

end Divider

/-! ## One digit of a square root -/

/-- Appending the base-four digit `t` to a radicand prefix `x`. -/
theorem sqrt_append_digit (x t : ℕ) (ht : t < 4) :
    Nat.sqrt (4 * x + t) = 2 * Nat.sqrt x +
      (if 4 * Nat.sqrt x + 1 ≤ 4 * (x - Nat.sqrt x ^ 2) + t then 1 else 0) := by
  obtain ⟨s, hs⟩ : ∃ s, s = Nat.sqrt x := ⟨_, rfl⟩
  have hle : s * s ≤ x := hs ▸ Nat.sqrt_le x
  have hlt : x < (s + 1) * (s + 1) := hs ▸ Nat.lt_succ_sqrt x
  rw [← hs, pow_two]
  split
  · next h =>
      refine (Nat.eq_sqrt.mpr ⟨?_, ?_⟩).symm
      · have : (2 * s + 1) * (2 * s + 1) = 4 * (s * s) + 4 * s + 1 := by ring
        omega
      · have : (2 * s + 1 + 1) * (2 * s + 1 + 1) = 4 * ((s + 1) * (s + 1)) := by ring
        omega
  · next h =>
      refine (Nat.eq_sqrt.mpr ⟨?_, ?_⟩).symm
      · have : (2 * s + 0) * (2 * s + 0) = 4 * (s * s) := by ring
        omega
      · have : (2 * s + 0 + 1) * (2 * s + 0 + 1) = 4 * (s * s) + 4 * s + 1 := by ring
        omega

/-- The remainder of the square root after appending the digit `t`. -/
theorem sqrt_rem_append_digit (x t : ℕ) (ht : t < 4) :
    4 * x + t - Nat.sqrt (4 * x + t) ^ 2 = 4 * (x - Nat.sqrt x ^ 2) + t -
      (if 4 * Nat.sqrt x + 1 ≤ 4 * (x - Nat.sqrt x ^ 2) + t then 4 * Nat.sqrt x + 1 else 0) := by
  have hle : Nat.sqrt x ^ 2 ≤ x := Nat.sqrt_le' x
  rw [sqrt_append_digit x t ht]
  obtain ⟨s, hs⟩ : ∃ s, s = Nat.sqrt x := ⟨_, rfl⟩
  rw [← hs] at hle ⊢
  split
  · next h =>
      have : (2 * s + 1) ^ 2 = 4 * s ^ 2 + 4 * s + 1 := by ring
      omega
  · next h =>
      have : (2 * s + 0) ^ 2 = 4 * s ^ 2 := by ring
      omega

theorem sqrt_rem_le (x : ℕ) : x - Nat.sqrt x ^ 2 ≤ 2 * Nat.sqrt x := by
  have hlt : x < (Nat.sqrt x + 1) * (Nat.sqrt x + 1) := Nat.lt_succ_sqrt x
  have : (Nat.sqrt x + 1) * (Nat.sqrt x + 1) = Nat.sqrt x ^ 2 + 2 * Nat.sqrt x + 1 := by ring
  omega

/-! ## The square-root registers -/

section Sqrt

variable {w : ℕ}

structure SqrtRegs (w : ℕ) where
  input : BitVec (2 * w)
  rem : BitVec (2 * w)
  result : BitVec w
  deriving DecidableEq

/-- The remainder with the two top bits of the input shifted in. -/
def sqrtRemShifted (x : SqrtRegs w) : BitVec (2 * w) :=
  (x.rem.shiftConcat x.input.msb).shiftConcat (x.input.getMsbD 1)

/-- The trial subtrahend, `result` followed by the bits `01`. -/
def sqrtTrial (x : SqrtRegs w) : BitVec (2 * w) :=
  ((x.result.setWidth (2 * w)).shiftConcat false).shiftConcat true

def SqrtRegs.next (x : SqrtRegs w) : SqrtRegs w :=
  if sqrtTrial x ≤ sqrtRemShifted x then
    ⟨x.input <<< 2, sqrtRemShifted x - sqrtTrial x, x.result.shiftConcat true⟩
  else
    ⟨x.input <<< 2, sqrtRemShifted x, x.result.shiftConcat false⟩

/-- After `i` cycles on input `v`, with `k` digits still to come. -/
structure SqrtInv (v i k : ℕ) (x : SqrtRegs w) : Prop where
  width : i + k = w
  input : x.input.toNat = v % 4 ^ k * 4 ^ i
  result : x.result.toNat = Nat.sqrt (v / 4 ^ k)
  rem : x.rem.toNat = v / 4 ^ k - Nat.sqrt (v / 4 ^ k) ^ 2

theorem four_pow (w : ℕ) : 4 ^ w = 2 ^ (2 * w) := by
  rw [pow_mul]
  rfl

theorem SqrtInv.init {v : BitVec (2 * w)} : SqrtInv v.toNat 0 w (w := w) ⟨v, 0, 0⟩ := by
  have hv : v.toNat < 4 ^ w := four_pow w ▸ v.isLt
  have hz : v.toNat / 4 ^ w = 0 := Nat.div_eq_of_lt hv
  exact ⟨Nat.zero_add w, by simp [Nat.mod_eq_of_lt hv], by simp [hz], by simp [hz]⟩

/-- The two bits leaving the top of a register. -/
theorem top_two_bits {n : ℕ} (hn : 2 ≤ n) (x : BitVec n) :
    2 * x.msb.toNat + (x.getMsbD 1).toNat = x.toNat / 2 ^ (n - 2) := by
  have hlt : x.toNat / 2 ^ (n - 2) < 4 := by
    rw [Nat.div_lt_iff_lt_mul (by positivity), show 4 = 2 ^ 2 from rfl, ← pow_add,
      show 2 + (n - 2) = n by omega]
    exact x.isLt
  have hmsb : x.msb.toNat = x.toNat / 2 ^ (n - 2) / 2 % 2 := by
    rw [BitVec.msb_eq_getLsbD_last, BitVec.getLsbD, Nat.toNat_testBit,
      show n - 1 = n - 2 + 1 by omega, pow_succ, ← Nat.div_div_eq_div_mul]
  have hnext : (x.getMsbD 1).toNat = x.toNat / 2 ^ (n - 2) % 2 := by
    rw [BitVec.getMsbD_eq_getLsbD, decide_eq_true (by omega : 1 < n), Bool.true_and,
      BitVec.getLsbD, Nat.toNat_testBit, show n - 1 - 1 = n - 2 by omega]
  rw [hmsb, hnext]
  generalize x.toNat / 2 ^ (n - 2) = y at hlt ⊢
  omega

/-! The registers stay far below their width, so no shift drops a bit. -/

theorem toNat_sqrtRemShifted {x : SqrtRegs w} (hw : 1 ≤ w)
    (h : 4 * x.rem.toNat + 3 < 2 ^ (2 * w)) :
    (sqrtRemShifted x).toNat = 4 * x.rem.toNat + x.input.toNat / 2 ^ (2 * w - 2) := by
  have hmsb := Bool.toNat_lt x.input.msb
  have hnext := Bool.toNat_lt (x.input.getMsbD 1)
  rw [sqrtRemShifted, toNat_shiftConcat, toNat_shiftConcat, ← top_two_bits (by omega),
    Nat.mod_eq_of_lt (show 2 * x.rem.toNat + _ < _ by omega), Nat.mod_eq_of_lt (by omega)]
  omega

theorem toNat_sqrtTrial {x : SqrtRegs w} (h : 4 * x.result.toNat + 1 < 2 ^ (2 * w)) :
    (sqrtTrial x).toNat = 4 * x.result.toNat + 1 := by
  have hwide : (x.result.setWidth (2 * w)).toNat = x.result.toNat := by
    rw [BitVec.toNat_setWidth, Nat.mod_eq_of_lt (by omega)]
  rw [sqrtTrial, toNat_shiftConcat, toNat_shiftConcat, hwide, Bool.toNat_false, Bool.toNat_true,
    Nat.mod_eq_of_lt (show 2 * x.result.toNat + 0 < _ by omega), Nat.mod_eq_of_lt (by omega)]
  omega

theorem SqrtInv.result_lt {v i k : ℕ} {x : SqrtRegs w} (hv : v < 2 ^ (2 * w))
    (h : SqrtInv v i k x) : x.result.toNat < 2 ^ i := by
  rw [h.result, Nat.sqrt_lt', ← pow_mul, Nat.mul_comm i 2, ← four_pow,
    Nat.div_lt_iff_lt_mul (by positivity), ← pow_add, h.width, four_pow]
  exact hv

theorem SqrtInv.rem_le {v i k : ℕ} {x : SqrtRegs w} (h : SqrtInv v i k x) :
    x.rem.toNat ≤ 2 * x.result.toNat := by
  rw [h.rem, h.result]
  exact sqrt_rem_le _

theorem SqrtInv.fits {v i k : ℕ} {x : SqrtRegs w} (hv : v < 2 ^ (2 * w)) (hw2 : 2 ≤ w)
    (hi : i < w) (h : SqrtInv v i k x) :
    4 * x.rem.toNat + 3 < 2 ^ (2 * w) ∧ 4 * x.result.toNat + 1 < 2 ^ (2 * w) := by
  have hlt := h.result_lt hv
  have hle := h.rem_le
  have hpi : 2 ^ i * 2 ≤ 2 ^ w := by
    rw [← pow_succ]
    exact Nat.pow_le_pow_right (by omega) (by omega)
  have hpw : 2 ^ w * 4 ≤ 2 ^ (2 * w) := by
    rw [show 4 = 2 ^ 2 from rfl, ← pow_add]
    exact Nat.pow_le_pow_right (by omega) (by omega)
  omega

theorem SqrtInv.step {v i k : ℕ} {x : SqrtRegs w} (hv : v < 2 ^ (2 * w)) (hw2 : 2 ≤ w)
    (h : SqrtInv v i (k + 1) x) : SqrtInv v (i + 1) k x.next := by
  have hw := h.width
  have hs := h.result_lt hv
  have hshifted := toNat_sqrtRemShifted (by omega) (h.fits hv hw2 (by omega)).1
  have htrial := toNat_sqrtTrial (h.fits hv hw2 (by omega)).2
  obtain ⟨-, hinput, hresult, hrem⟩ := h
  obtain ⟨t, ht⟩ : ∃ t, t = v / 4 ^ k % 4 := ⟨_, rfl⟩
  have ht4 : t < 4 := ht ▸ Nat.mod_lt _ (by omega)
  obtain ⟨p, hp⟩ : ∃ p, p = v / 4 ^ (k + 1) := ⟨_, rfl⟩
  have hpre : v / 4 ^ k = 4 * p + t := by
    rw [hp, ht, pow_succ, ← Nat.div_div_eq_div_mul]
    omega
  have hsuffix : v % 4 ^ (k + 1) = 4 ^ k * t + v % 4 ^ k := by
    rw [ht, pow_succ, Nat.mod_mul, Nat.add_comm]
  rw [← hp] at hresult hrem
  rw [hresult] at hs htrial
  have hpi : 2 ^ i * 2 ≤ 2 ^ w := by
    rw [← pow_succ]
    exact Nat.pow_le_pow_right (by omega) (by omega)
  have hpk : 2 ^ (2 * w - 2) = 4 ^ k * 4 ^ i := by
    rw [← pow_add, four_pow]
    congr 1
    omega
  have hpk2 : 2 ^ (2 * w) = 4 ^ k * 4 ^ i * 4 := by
    rw [← pow_add, ← pow_succ, four_pow]
    congr 1
    omega
  have hlow : v % 4 ^ k * 4 ^ i < 4 ^ k * 4 ^ i :=
    Nat.mul_lt_mul_of_pos_right (Nat.mod_lt _ (by positivity)) (by positivity)
  have hinput' : x.input.toNat = v % 4 ^ k * 4 ^ i + 4 ^ k * 4 ^ i * t := by
    rw [hinput, hsuffix]
    ring
  rw [hrem, hpk, hinput', Nat.add_mul_div_left _ _ (by positivity), Nat.div_eq_of_lt hlow,
    Nat.zero_add] at hshifted
  have hinputNext : (x.input <<< 2).toNat = v % 4 ^ k * 4 ^ (i + 1) := by
    have hexp : x.input.toNat * 2 ^ 2 = v % 4 ^ k * 4 ^ (i + 1) + 2 ^ (2 * w) * t := by
      rw [hinput', hpk2, pow_succ]
      ring
    have hsmall : v % 4 ^ k * 4 ^ (i + 1) < 2 ^ (2 * w) := by
      rw [hpk2, pow_succ]
      linarith
    rw [BitVec.toNat_shiftLeft, Nat.shiftLeft_eq, hexp, Nat.add_mul_mod_self_left,
      Nat.mod_eq_of_lt hsmall]
  have hresultNext : ∀ b : Bool, (x.result.shiftConcat b).toNat = 2 * Nat.sqrt p + b.toNat := by
    intro b
    have := Bool.toNat_lt b
    rw [toNat_shiftConcat, hresult, Nat.mod_eq_of_lt]
    omega
  have hle : sqrtTrial x ≤ sqrtRemShifted x ↔
      4 * Nat.sqrt p + 1 ≤ 4 * (p - Nat.sqrt p ^ 2) + t := by
    rw [BitVec.le_def, htrial, hshifted]
  have hroot := sqrt_append_digit p t ht4
  have hrest := sqrt_rem_append_digit p t ht4
  unfold SqrtRegs.next
  by_cases hcmp : sqrtTrial x ≤ sqrtRemShifted x
  · rw [if_pos (hle.mp hcmp)] at hroot hrest
    rw [if_pos hcmp]
    refine ⟨by omega, hinputNext, ?_, ?_⟩
    · rw [hpre, hroot, hresultNext]
      rfl
    · rw [hpre, hrest, BitVec.toNat_sub_of_le hcmp, hshifted, htrial]
  · rw [if_neg (fun h ↦ hcmp (hle.mpr h))] at hroot hrest
    rw [if_neg hcmp]
    refine ⟨by omega, hinputNext, ?_, ?_⟩
    · rw [hpre, hroot, hresultNext]
      rfl
    · rw [hpre, hrest, hshifted, Nat.sub_zero]

theorem SqrtInv.advance {v i : ℕ} {x : SqrtRegs w} (hv : v < 2 ^ (2 * w)) (hw2 : 2 ≤ w)
    (hi : i < w) (h : SqrtInv v i (w - i) x) : SqrtInv v (i + 1) (w - (i + 1)) x.next := by
  have hleft : w - i = w - (i + 1) + 1 := by omega
  exact (hleft ▸ h).step hv hw2

theorem SqrtInv.final {v i : ℕ} {x : SqrtRegs w} (h : SqrtInv v i 0 x) :
    x.result.toNat = Nat.sqrt v ∧ x.rem.toNat = v - Nat.sqrt v ^ 2 := by
  refine ⟨?_, ?_⟩
  · simpa using h.result
  · simpa using h.rem

end Sqrt

end SerialArith
