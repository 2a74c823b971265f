import LgNpu.RowWise
import LgNpu.Lib.Signed
import Mathlib.Algebra.BigOperators.Group.List.Basic
import Mathlib.Data.Nat.Sqrt
import Mathlib.Tactic.Linarith

/-!
# What a layer normalisation command computes

Mean, variance and standard deviation of a row over the integers, and the
scaled, saturated quotient stored for each element.
-/

namespace LgNpu

namespace LnormCmd

variable (cmd : LnormCmd) (m : BitVec 13 → Byte)

def inIdx (i j : ℕ) : ℕ := cmd.inAddr.toNat + i * cmd.rowLen.toNat + j

def outIdx (i j : ℕ) : ℕ := cmd.outAddr.toNat + i * cmd.rowLen.toNat + j

/-- The sum of the first `b` elements of row `i`. -/
def sumUpTo (i b : ℕ) : ℤ := ((List.range b).map fun j ↦ int8At m (cmd.inIdx i j)).sum

/-- The mean, truncated toward zero. -/
def mean (i : ℕ) : ℤ := (cmd.sumUpTo m i cmd.rowLen.toNat).tdiv cmd.rowLen.toNat

/-- The sum of squared distances to the mean. -/
def varUpTo (i b : ℕ) : ℕ :=
  ((List.range b).map fun j ↦ (int8At m (cmd.inIdx i j) - cmd.mean m i).natAbs ^ 2).sum

def variance (i : ℕ) : ℕ := cmd.varUpTo m i cmd.rowLen.toNat / cmd.rowLen.toNat

def sigma (i : ℕ) : ℕ := Nat.sqrt (cmd.variance m i + 1)

/-- `sign (x - mu) * floor (min (|x - mu| * 2 ^ norm_shift, 2 ^ 32 - 1) / sigma)`,
saturated. -/
def normOf (mu : ℤ) (sigma : ℕ) (x : ℤ) : ℤ :=
  Signed.sat8 ((x - mu).sign *
    (min ((x - mu).natAbs * 2 ^ cmd.normShift.toNat) (2 ^ 32 - 1) / sigma : ℕ))

def writesOf : Writes :=
  (List.range cmd.numRows.toNat).flatMap fun i ↦
    (List.range cmd.rowLen.toNat).map fun j ↦
      (.ofNat 16 (cmd.outIdx i j),
        .ofInt 8 (cmd.normOf (cmd.mean m i) (cmd.sigma m i) (int8At m (cmd.inIdx i j))))

/-- Layer normalisation as a row-wise operation: the scans leave the mean and
the standard deviation. -/
def rowWise : RowWise (ℤ × ℕ) where
  inAddr := cmd.inAddr
  outAddr := cmd.outAddr
  numRows := cmd.numRows
  rowLen := cmd.rowLen
  stat m i := (cmd.mean m i, cmd.sigma m i)
  val st x := .ofInt 8 (cmd.normOf st.1 st.2 x)

theorem tableWrites_eq : cmd.rowWise.tableWrites m = cmd.writesOf m := rfl

theorem rowWise_local : cmd.rowWise.Local := by
  intro m m' i h
  change ∀ j < cmd.rowLen.toNat, int8At m (cmd.inIdx i j) = int8At m' (cmd.inIdx i j) at h
  have hmean : cmd.mean m i = cmd.mean m' i := by
    rw [mean, mean, sumUpTo, sumUpTo,
      List.map_congr_left fun j hj ↦ h j (List.mem_range.mp hj)]
  have hsigma : cmd.sigma m i = cmd.sigma m' i := by
    have hterm : ∀ j ∈ List.range cmd.rowLen.toNat,
        (int8At m (cmd.inIdx i j) - cmd.mean m i).natAbs ^ 2 =
          (int8At m' (cmd.inIdx i j) - cmd.mean m' i).natAbs ^ 2 :=
      fun j hj ↦ by rw [h j (List.mem_range.mp hj), hmean]
    rw [sigma, sigma, variance, variance, varUpTo, varUpTo, List.map_congr_left hterm]
  exact congrArg₂ Prod.mk hmean hsigma

/-! ## Ranges -/

theorem sumUpTo_succ (i b : ℕ) :
    cmd.sumUpTo m i (b + 1) = cmd.sumUpTo m i b + int8At m (cmd.inIdx i b) := by
  simp [sumUpTo, List.range_succ]

theorem varUpTo_succ (i b : ℕ) : cmd.varUpTo m i (b + 1) =
    cmd.varUpTo m i b + (int8At m (cmd.inIdx i b) - cmd.mean m i).natAbs ^ 2 := by
  simp [varUpTo, List.range_succ]

theorem sumUpTo_bounds (i b : ℕ) :
    -(128 * (b : ℤ)) ≤ cmd.sumUpTo m i b ∧ cmd.sumUpTo m i b ≤ 127 * b := by
  induction b with
  | zero => simp [sumUpTo]
  | succ b ih =>
      have := int8At_bounds m (cmd.inIdx i b)
      rw [sumUpTo_succ]
      push_cast
      omega

theorem mean_bounds (hL : 0 < cmd.rowLen.toNat) (i : ℕ) :
    -128 ≤ cmd.mean m i ∧ cmd.mean m i ≤ 127 := by
  have hsum := cmd.sumUpTo_bounds m i cmd.rowLen.toNat
  have hdiv : ∀ k : ℕ, (cmd.sumUpTo m i cmd.rowLen.toNat).natAbs ≤ k * cmd.rowLen.toNat →
      (cmd.sumUpTo m i cmd.rowLen.toNat).natAbs / cmd.rowLen.toNat ≤ k := by
    intro k hk
    rw [← Nat.mul_div_cancel k hL]
    exact Nat.div_le_div_right hk
  rw [mean, Signed.tdiv_natCast]
  split
  · next hneg =>
      have hle := hdiv 128 (by omega)
      generalize (cmd.sumUpTo m i cmd.rowLen.toNat).natAbs / cmd.rowLen.toNat = q at hle ⊢
      omega
  · next hpos =>
      have hle := hdiv 127 (by omega)
      generalize (cmd.sumUpTo m i cmd.rowLen.toNat).natAbs / cmd.rowLen.toNat = q at hle ⊢
      omega

theorem varUpTo_le (hL : 0 < cmd.rowLen.toNat) (i b : ℕ) : cmd.varUpTo m i b ≤ 65025 * b := by
  induction b with
  | zero => simp [varUpTo]
  | succ b ih =>
      have hx := int8At_bounds m (cmd.inIdx i b)
      have hmu := cmd.mean_bounds m hL i
      have hsq : (int8At m (cmd.inIdx i b) - cmd.mean m i).natAbs ^ 2 ≤ 255 ^ 2 :=
        Nat.pow_le_pow_left (by omega) 2
      rw [varUpTo_succ]
      omega

theorem variance_le (hL : 0 < cmd.rowLen.toNat) (i : ℕ) : cmd.variance m i ≤ 65025 := by
  refine (Nat.div_le_div_right (cmd.varUpTo_le m hL i _)).trans ?_
  rw [Nat.mul_div_cancel _ hL]

theorem sigma_pos (i : ℕ) : 0 < cmd.sigma m i := Nat.sqrt_pos.mpr (Nat.succ_pos _)

end LnormCmd

end LgNpu
