import Mathlib.Algebra.BigOperators.Group.List.Basic
import Mathlib.Algebra.BigOperators.Intervals
import Mathlib.Data.List.Flatten
import Mathlib.Data.List.Forall2
import Mathlib.Data.List.Nodup
import Mathlib.Tactic.Ring

/-!
# Nested counters as digits of one index

A nest of counters with bounds `… , b, c` runs through the mixed-radix digits
of a single index `e`: the innermost counter is `e % c` and the rest of the
nest counts `e / c`.  The lemmas here say how one increment moves the digits,
flatten the corresponding nested enumerations, and list the tuples a nest visits.
-/

namespace LoopNest

variable {e a c : ℕ}

/-! ## One increment -/

theorem succ_mod_of_lt (h : e % c + 1 < c) : (e + 1) % c = e % c + 1 := by
  rw [Nat.add_mod, Nat.mod_eq_of_lt (show 1 < c by omega), Nat.mod_eq_of_lt h]

theorem succ_div_of_lt (h : e % c + 1 < c) : (e + 1) / c = e / c := by
  have hdm := Nat.mod_add_div e c
  rw [Nat.div_eq_of_lt_le]
  · rw [Nat.mul_comm]; omega
  · rw [Nat.add_mul, Nat.mul_comm]; omega

theorem succ_eq_mul_of_eq (h : e % c + 1 = c) : e + 1 = (e / c + 1) * c := by
  have hdm := Nat.mod_add_div e c
  rw [Nat.add_mul, Nat.mul_comm]
  omega

theorem succ_mod_of_eq (h : e % c + 1 = c) : (e + 1) % c = 0 := by
  rw [succ_eq_mul_of_eq h, Nat.mul_mod_left]

theorem succ_div_of_eq (h : e % c + 1 = c) : (e + 1) / c = e / c + 1 := by
  rw [succ_eq_mul_of_eq h, Nat.mul_div_cancel _ (by omega)]

/-- A counter starts over exactly after its last value. -/
theorem succ_mod_eq_zero_iff (hc : 0 < c) : (e + 1) % c = 0 ↔ e % c + 1 = c := by
  have hlt := Nat.mod_lt e hc
  constructor
  · intro hzero
    by_contra hne
    rw [succ_mod_of_lt (by omega)] at hzero
    omega
  · exact succ_mod_of_eq

/-- The index is the last one when both digits are. -/
theorem last_iff (hc : 0 < c) :
    e + 1 = a * c ↔ e / c + 1 = a ∧ e % c + 1 = c := by
  constructor
  · intro hlast
    have hmod : e % c + 1 = c := by
      rw [← succ_mod_eq_zero_iff hc, hlast, Nat.mul_mod_left]
    refine ⟨?_, hmod⟩
    rw [succ_eq_mul_of_eq hmod] at hlast
    exact Nat.eq_of_mul_eq_mul_right hc hlast
  · rintro ⟨hdiv, hmod⟩
    rw [succ_eq_mul_of_eq hmod, hdiv]

theorem div_lt_of_lt_mul (h : e < a * c) : e / c < a :=
  Nat.div_lt_of_lt_mul (by rwa [Nat.mul_comm])

theorem pos_of_lt_mul (h : e < a * c) : 0 < c :=
  Nat.pos_of_mul_pos_left (Nat.zero_lt_of_lt h)

theorem join_lt {i k : ℕ} (hi : i < a) (hk : k < c) : i * c + k < a * c := by
  calc i * c + k < i * c + c := by omega
    _ = (i + 1) * c := by ring
    _ ≤ a * c := Nat.mul_le_mul_right c hi

theorem join_div {i k : ℕ} (hk : k < c) : (i * c + k) / c = i := by
  rw [Nat.mul_comm, Nat.mul_add_div (by omega), Nat.div_eq_of_lt hk, Nat.add_zero]

theorem join_mod {i k : ℕ} (hk : k < c) : (i * c + k) % c = k := by
  rw [Nat.mul_comm, Nat.mul_add_mod, Nat.mod_eq_of_lt hk]

theorem join_inj {i k i' k' : ℕ} (hk : k < c) (hk' : k' < c) (h : i * c + k = i' * c + k') :
    i = i' ∧ k = k' := by
  have hdiv := congrArg (· / c) h
  have hmod := congrArg (· % c) h
  simp only [join_div hk, join_div hk'] at hdiv
  simp only [join_mod hk, join_mod hk'] at hmod
  exact ⟨hdiv, hmod⟩

/-- Whole turns of the nest do not show in the inner digits. -/
theorem shift_div {b j : ℕ} (hc : 0 < c) : (e * (b * c) + j) / c = e * b + j / c := by
  rw [← Nat.mul_assoc, Nat.add_comm, Nat.add_mul_div_right _ _ hc, Nat.add_comm]

theorem shift_mod {b j : ℕ} : (e * (b * c) + j) % c = j % c := by
  rw [← Nat.mul_assoc, Nat.add_comm, Nat.add_mul_mod_self_right]

theorem div_mul_add_mod (e c : ℕ) : e / c * c + e % c = e := by
  rw [Nat.mul_comm]
  exact Nat.div_add_mod e c

/-! ## Row-major arrays -/

/-- Position of element `(i, j, k)` in an array of rows of `b` cells of `c` elements. -/
def rowMajor (b c i j k : ℕ) : ℕ := (i * b + j) * c + k

section

variable {b i j k : ℕ}

theorem rowMajor_lt (hi : i < a) (hj : j < b) (hk : k < c) : rowMajor b c i j k < a * b * c :=
  join_lt (join_lt hi hj) hk

theorem rowMajor_inj {i' j' k' : ℕ} (hj : j < b) (hk : k < c) (hj' : j' < b) (hk' : k' < c)
    (h : rowMajor b c i j k = rowMajor b c i' j' k') : i = i' ∧ j = j' ∧ k = k' := by
  obtain ⟨hij, hk⟩ := join_inj hk hk' h
  obtain ⟨hi, hj⟩ := join_inj hj hj' hij
  exact ⟨hi, hj, hk⟩

/-- Every position below the size belongs to an element. -/
theorem exists_rowMajor (h : e < a * b * c) :
    ∃ i j k, i < a ∧ j < b ∧ k < c ∧ rowMajor b c i j k = e := by
  have hab := div_lt_of_lt_mul h
  refine ⟨e / c / b, e / c % b, e % c, div_lt_of_lt_mul hab, Nat.mod_lt _ (pos_of_lt_mul hab),
    Nat.mod_lt _ (pos_of_lt_mul h), ?_⟩
  rw [rowMajor, div_mul_add_mod, div_mul_add_mod]

end

/-! ## Flattening -/

section Flatten

variable {β : Type*}

/-- A two-level enumeration is the enumeration of the joint index. -/
theorem flatMap_range_mul (f : ℕ → ℕ → List β) (a c : ℕ) :
    (List.range (a * c)).flatMap (fun e ↦ f (e / c) (e % c)) =
      (List.range a).flatMap fun i ↦ (List.range c).flatMap (f i) := by
  induction a with
  | zero => simp
  | succ a ih =>
      rw [Nat.add_mul, Nat.one_mul, List.range_add, List.flatMap_append, ih, List.range_succ,
        List.flatMap_append, List.flatMap_singleton, List.flatMap_map]
      congr 1
      refine List.flatMap_congr fun k hk ↦ ?_
      have hk' := List.mem_range.mp hk
      rw [join_div hk', join_mod hk']

theorem map_range_mul (f : ℕ → ℕ → β) (a c : ℕ) :
    (List.range (a * c)).map (fun e ↦ f (e / c) (e % c)) =
      (List.range a).flatMap fun i ↦ (List.range c).map (f i) := by
  have h := flatMap_range_mul (fun i k ↦ [f i k]) a c
  simpa only [List.flatMap_singleton', ← List.map_eq_flatMap] using h

theorem sum_range_mul {γ : Type*} [AddCommMonoid γ] (f : ℕ → ℕ → γ) (a c : ℕ) :
    ∑ e ∈ Finset.range (a * c), f (e / c) (e % c) =
      ∑ i ∈ Finset.range a, ∑ k ∈ Finset.range c, f i k := by
  induction a with
  | zero => simp
  | succ a ih =>
      rw [Nat.add_mul, Nat.one_mul, Finset.sum_range_add, ih, Finset.sum_range_succ]
      congr 1
      refine Finset.sum_congr rfl fun k hk ↦ ?_
      have hk' := Finset.mem_range.mp hk
      rw [join_div hk', join_mod hk']

end Flatten

/-! ## Index tuples -/

section Indices

/-- The index tuples of a nest with the given extents, the outermost first, in
the order its loops visit them. -/
def indices : List ℕ → List (List ℕ)
  | [] => [[]]
  | n :: ns => (List.range n).flatMap fun i ↦ (indices ns).map (i :: ·)

variable {ns x : List ℕ}

theorem mem_indices : x ∈ indices ns ↔ List.Forall₂ (· < ·) x ns := by
  induction ns generalizing x with
  | nil => simp [indices]
  | cons n ns ih =>
      simp only [indices, List.mem_flatMap, List.mem_range, List.mem_map, ih]
      constructor
      · rintro ⟨i, hi, y, hy, rfl⟩
        exact .cons hi hy
      · intro hx
        cases hx with
        | cons hi hy => exact ⟨_, hi, _, hy, rfl⟩

/-- The loops visit the tuples in lexicographic order, each once. -/
theorem sorted_indices (ns : List ℕ) : (indices ns).Pairwise (· < ·) := by
  induction ns with
  | nil => exact List.pairwise_singleton _ _
  | cons n ns ih =>
      apply List.pairwise_flatMap.mpr
      constructor
      · intro i _
        apply List.pairwise_map.mpr
        exact ih.imp fun h ↦ List.cons_lt_cons_iff.mpr (.inr ⟨rfl, h⟩)
      · apply List.pairwise_lt_range.imp
        intro i j hij x hx y hy
        obtain ⟨x', -, rfl⟩ := List.mem_map.mp hx
        obtain ⟨y', -, rfl⟩ := List.mem_map.mp hy
        exact List.cons_lt_cons_iff.mpr (.inl hij)

/-- The digits of an index in the mixed radix of the extents. -/
def digits : List ℕ → ℕ → List ℕ
  | [], _ => []
  | n :: ns, e => e / ns.prod % n :: digits ns e

theorem digits_append (ms ns : List ℕ) (e : ℕ) :
    digits (ms ++ ns) e = digits ms (e / ns.prod) ++ digits ns e := by
  induction ms with
  | nil => rfl
  | cons m ms ih =>
      rw [List.cons_append, digits, digits, ih, List.prod_append, Nat.div_div_eq_div_mul,
        Nat.mul_comm ns.prod, List.cons_append]

theorem digits_mod (ns : List ℕ) (e : ℕ) : digits ns (e % ns.prod) = digits ns e := by
  induction ns generalizing e with
  | nil => rfl
  | cons n ns ih =>
      have hinner : digits ns (e % (n * ns.prod)) = digits ns e := by
        rw [← ih (e % (n * ns.prod)), Nat.mod_mul_left_mod, ih]
      rw [List.prod_cons, digits, digits, hinner, Nat.mod_mul_left_div_self, Nat.mod_mod]

/-- The nest counts: its tuples are the digits of `0, 1, …`. -/
theorem indices_eq_map (ns : List ℕ) : indices ns = (List.range ns.prod).map (digits ns) := by
  induction ns with
  | nil => rfl
  | cons n ns ih =>
      have hjoin := map_range_mul (fun i j ↦ i :: digits ns j) n ns.prod
      simp only [indices, ih, List.map_map]
      rw [List.prod_cons]
      refine hjoin.symm.trans (List.map_congr_left fun e he ↦ ?_)
      have hlt : e / ns.prod < n := div_lt_of_lt_mul (List.mem_range.mp he)
      rw [digits, digits_mod, Nat.mod_eq_of_lt hlt]

end Indices

end LoopNest
