import Mathlib.Data.Nat.Notation
import Mathlib.Data.List.Range

/-!
# Loops over a machine counter

`for (i = 0; i < n; ++i)` with a counter of fixed width and a body that may
fail.  Below the bound the increment never wraps, so the loop takes the body
through `0, …, n - 1`.
-/

namespace CountedLoop

variable {w : ℕ}

theorem toNat_succ {i n : BitVec w} (h : i.toNat < n.toNat) : (i + 1).toNat = i.toNat + 1 := by
  have hn := n.isLt
  have hone : BitVec.toNat (1 : BitVec w) = 1 :=
    (BitVec.toNat_ofNat 1 w).trans (Nat.mod_eq_of_lt (by omega))
  rw [BitVec.toNat_add, hone, Nat.mod_eq_of_lt (by omega)]

section

variable {σ ε : Type*} (n : BitVec w) (body : BitVec w → σ → Except ε σ)

/-- The rest of the loop, from counter `i` and state `s`. -/
def forLt (i : BitVec w) (s : σ) : Except ε σ :=
  if _h : i.toNat < n.toNat then
    match body i s with
    | .ok t => forLt (i + 1) t
    | .error e => .error e
  else .ok s
termination_by n.toNat - i.toNat
decreasing_by
  have hsucc := toNat_succ ‹i.toNat < n.toNat›
  omega

variable {n body}

theorem forLt_of_le {i : BitVec w} (h : n.toNat ≤ i.toNat) (s : σ) :
    forLt n body i s = .ok s := by
  rw [forLt, dif_neg (by omega)]

theorem forLt_of_lt {i : BitVec w} (h : i.toNat < n.toNat) {s t : σ} (hb : body i s = .ok t) :
    forLt n body i s = forLt n body (i + 1) t := by
  rw [forLt, dif_pos h, hb]

theorem forLt_of_error {i : BitVec w} (h : i.toNat < n.toNat) {s : σ} {e : ε}
    (hb : body i s = .error e) : forLt n body i s = .error e := by
  rw [forLt, dif_pos h, hb]

theorem forLt_zero_of_error (h : 0 < n.toNat) {s : σ} {e : ε} (hb : body 0 s = .error e) :
    forLt n body 0 s = .error e :=
  forLt_of_error (by rwa [show BitVec.toNat (0 : BitVec w) = 0 from BitVec.toNat_zero]) hb

/-- A body that never fails is folded over the counter values. -/
theorem forLt_eq_foldl {f : σ → ℕ → σ} (hb : ∀ i : BitVec w, i.toNat < n.toNat →
    ∀ s, body i s = .ok (f s i.toNat)) (s : σ) :
    forLt n body 0 s = .ok ((List.range n.toNat).foldl f s) := by
  suffices h : ∀ (k : ℕ) (i : BitVec w) (s : σ), i.toNat + k = n.toNat →
      forLt n body i s = .ok ((List.range' i.toNat k).foldl f s) by
    have := h n.toNat 0 s (by simp)
    rwa [show BitVec.toNat (0 : BitVec w) = 0 from BitVec.toNat_zero, ← List.range_eq_range']
      at this
  intro k
  induction k with
  | zero => exact fun i s hk ↦ forLt_of_le (by omega) s
  | succ k ih =>
      intro i s hk
      have hi : i.toNat < n.toNat := by omega
      have hsucc := toNat_succ hi
      rw [forLt_of_lt hi (hb i hi s), ih (i + 1) _ (by omega), hsucc, List.range'_succ,
        List.foldl_cons]

/-- A body that can only fail in one way, and does in some round, fails the loop. -/
theorem forLt_eq_error {e : ε}
    (hb : ∀ (i : BitVec w) (s : σ) (e' : ε), body i s = .error e' → e' = e) {j : BitVec w}
    (hj : j.toNat < n.toNat) (hfail : ∀ s, body j s = .error e) (s : σ) :
    forLt n body 0 s = .error e := by
  suffices h : ∀ (k : ℕ) (i : BitVec w) (s : σ), i.toNat + k = j.toNat →
      forLt n body i s = .error e from h j.toNat 0 s (by simp)
  intro k
  induction k with
  | zero =>
      intro i s hk
      obtain rfl : i = j := BitVec.eq_of_toNat_eq (by omega)
      exact forLt_of_error hj (hfail s)
  | succ k ih =>
      intro i s hk
      have hi : i.toNat < n.toNat := by omega
      have hsucc := toNat_succ hi
      cases hbody : body i s with
      | ok t => rw [forLt_of_lt hi hbody, ih (i + 1) t (by omega)]
      | error e' => rw [forLt_of_error hi hbody, hb i s e' hbody]

end

end CountedLoop
