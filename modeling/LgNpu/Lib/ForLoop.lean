import LgNpu.Lib.LoopNest
import Mathlib.Data.List.GetD

/-!
# Counted loops over an accumulator

`for (i = 0; i < n; ++i)` with a body that changes a state: the invariant rule,
sums, and nests that fill a vector by its joint index.
-/

namespace ForLoop

variable {σ α : Type*}

/-- The state after the rounds `0, …, n - 1`. -/
def loop (n : ℕ) (s : σ) (body : ℕ → σ → σ) : σ := (List.range n).foldl (fun s i ↦ body i s) s

variable {n : ℕ} {s : σ} {body : ℕ → σ → σ}

@[simp] theorem loop_zero : loop 0 s body = s := rfl

theorem loop_succ : loop (n + 1) s body = body n (loop n s body) := by
  rw [loop, List.range_succ, List.foldl_append]
  rfl

theorem loop_induction {P : ℕ → σ → Prop} (h0 : P 0 s)
    (hstep : ∀ i < n, ∀ s, P i s → P (i + 1) (body i s)) : P n (loop n s body) := by
  induction n with
  | zero => exact h0
  | succ n ih =>
      rw [loop_succ]
      exact hstep n (Nat.lt_succ_self n) _ (ih fun i hi ↦ hstep i (hi.trans (Nat.lt_succ_self n)))

theorem loop_congr {body' : ℕ → σ → σ} (h : ∀ i < n, ∀ s, body i s = body' i s) :
    loop n s body = loop n s body' := by
  refine List.foldl_ext _ _ s fun s i hi ↦ ?_
  exact h i (List.mem_range.mp hi) s

/-- A function of the state that follows the body follows the loop. -/
theorem loop_map {τ : Type*} (g : σ → τ) {body' : ℕ → τ → τ}
    (h : ∀ i < n, ∀ s, g (body i s) = body' i (g s)) : g (loop n s body) = loop n (g s) body' := by
  induction n with
  | zero => rfl
  | succ n ih =>
      rw [loop_succ, loop_succ, h n (Nat.lt_succ_self n),
        ih fun i hi ↦ h i (hi.trans (Nat.lt_succ_self n))]

/-- Two loops are one over the joint index. -/
theorem loop_mul (f : ℕ → ℕ → σ → σ) (a c : ℕ) (s : σ) :
    loop (a * c) s (fun e ↦ f (e / c) (e % c)) = loop a s fun i s ↦ loop c s (f i) := by
  induction a with
  | zero => simp
  | succ a ih =>
      rw [loop_succ, ← ih, loop, loop, loop, Nat.succ_mul, List.range_add, List.foldl_append,
        List.foldl_map]
      refine List.foldl_ext _ _ _ fun s k hk ↦ ?_
      have hk' := List.mem_range.mp hk
      rw [LoopNest.join_div hk', LoopNest.join_mod hk']

theorem loop_add {γ : Type*} [AddCommMonoid γ] (f : ℕ → γ) (n : ℕ) (s : γ) :
    loop n s (fun i s ↦ s + f i) = s + ∑ i ∈ Finset.range n, f i := by
  induction n with
  | zero => simp
  | succ n ih => rw [loop_succ, ih, Finset.sum_range_succ, add_assoc]

/-- A loop computes the list of its values when it folds it. -/
theorem loop_eq_foldl (g : σ → α → σ) (f : ℕ → α) :
    loop n s (fun i s ↦ g s (f i)) = ((List.range n).map f).foldl g s := by
  rw [loop, List.foldl_map]

/-- A nest that skips some of its rounds folds the list of the others. -/
theorem loop_filterMap₂ (f : ℕ → ℕ → Option α) (g : σ → α → σ) (a c : ℕ) (s : σ) :
    loop a s (fun i s ↦ loop c s fun k s ↦ (f i k).elim s (g s)) =
      ((List.range a).flatMap fun i ↦ (List.range c).filterMap (f i)).foldl g s := by
  rw [List.foldl_flatMap, loop]
  refine List.foldl_ext _ _ s fun s i _ ↦ ?_
  rw [List.foldl_filterMap, loop]
  refine List.foldl_ext _ _ s fun s k _ ↦ ?_
  cases f i k <;> rfl

/-! ## Filling a vector -/

theorem loop_set (f : ℕ → α) {v : List α} (hv : v.length = n) :
    loop n v (fun e v ↦ v.set e (f e)) = (List.range n).map f := by
  have hpart : loop n v (fun e v ↦ v.set e (f e)) = (List.range n).map f ++ v.drop n := by
    apply @loop_induction _ n v _ fun i w ↦ w = (List.range i).map f ++ v.drop i
    · rfl
    · rintro i hi w rfl
      have hlen : ((List.range i).map f).length = i := by simp
      rw [List.set_append_right _ _ hlen.le, hlen, Nat.sub_self,
        List.drop_eq_getElem_cons (hv ▸ hi), List.set_cons_zero, List.range_succ, List.map_append,
        List.append_assoc]
      rfl
  rw [hpart, List.drop_of_length_le hv.le, List.append_nil]

theorem loop_set₂ (f : ℕ → ℕ → α) {a c : ℕ} {v : List α} (hv : v.length = a * c) :
    loop a v (fun i v ↦ loop c v fun k v ↦ v.set (i * c + k) (f i k)) =
      (List.range (a * c)).map fun e ↦ f (e / c) (e % c) := by
  have hflat := loop_mul (fun i k (v : List α) ↦ v.set (i * c + k) (f i k)) a c v
  simp only [LoopNest.div_mul_add_mod] at hflat
  rw [← hflat, loop_set _ hv]

theorem loop_set₃ (f : ℕ → ℕ → ℕ → α) {a b c : ℕ} {v : List α} (hv : v.length = a * b * c) :
    loop a v (fun i v ↦ loop b v fun j v ↦ loop c v fun k v ↦
        v.set ((i * b + j) * c + k) (f i j k)) =
      (List.range (a * b * c)).map fun e ↦ f (e / c / b) (e / c % b) (e % c) := by
  have hflat := loop_mul (fun i j (v : List α) ↦ loop c v fun k v ↦
    v.set ((i * b + j) * c + k) (f i j k)) a b v
  have hrows := loop_set₂ (fun q k ↦ f (q / b) (q % b) k) hv
  simp only [LoopNest.div_mul_add_mod] at hflat
  rw [← hflat, hrows]

end ForLoop
