import Mathlib.Order.WellFounded

/-!
# Fair runs

A run makes one move after the other.  It reaches a goal if in every stage on
the way some move is helpful and stays possible until it is made, and if no
other move leads back.
-/

namespace Fair

variable {σ μ ρ : Type*}

/-- A move that is possible from some time on is made. -/
def Weakly (Enabled : σ → μ → Prop) (xs : ℕ → σ) (ms : ℕ → μ) (m : μ) : Prop :=
  ∀ n, (∀ k, n ≤ k → Enabled (xs k) m) → ∃ k, n ≤ k ∧ ms k = m

/-- In a stage the helpful move is possible; a move reaches the goal or a lower
stage, or it is another one and the stage stays. -/
structure Helps (r : ρ → ρ → Prop) (Enabled : σ → μ → Prop) (xs : ℕ → σ) (ms : ℕ → μ)
    (Stage : ρ → μ → σ → Prop) (Goal : σ → Prop) : Prop where
  enabled : ∀ n i m, Stage i m (xs n) → Enabled (xs n) m
  step : ∀ n i m, Stage i m (xs n) → Goal (xs (n + 1)) ∨
    (∃ j m', r j i ∧ Stage j m' (xs (n + 1))) ∨ ms n ≠ m ∧ Stage i m (xs (n + 1))

namespace Helps

variable {r : ρ → ρ → Prop} {Enabled : σ → μ → Prop} {xs : ℕ → σ} {ms : ℕ → μ}
  {Stage : ρ → μ → σ → Prop} {Goal : σ → Prop} (h : Helps r Enabled xs ms Stage Goal)
include h

/-- A stage that is not left lasts, without its helpful move. -/
theorem lasts {n : ℕ} {i : ρ} {m : μ} (hn : Stage i m (xs n)) (hgoal : ∀ k, n ≤ k → ¬Goal (xs k))
    (hlower : ∀ k j m', n ≤ k → r j i → ¬Stage j m' (xs k)) {k : ℕ} (hk : n ≤ k) :
    Stage i m (xs k) ∧ ms k ≠ m := by
  have hstage : Stage i m (xs k) := by
    induction k, hk using Nat.le_induction with
    | base => exact hn
    | succ k hk ih =>
        rcases h.step k i m ih with hg | ⟨j, m', hj, hs⟩ | ⟨-, hs⟩
        · exact absurd hg (hgoal _ (Nat.le_succ_of_le hk))
        · exact absurd hs (hlower _ _ _ (Nat.le_succ_of_le hk) hj)
        · exact hs
  refine ⟨hstage, fun hm ↦ ?_⟩
  rcases h.step k i m hstage with hg | ⟨j, m', hj, hs⟩ | ⟨hne, -⟩
  · exact hgoal _ (Nat.le_succ_of_le hk) hg
  · exact hlower _ _ _ (Nat.le_succ_of_le hk) hj hs
  · exact hne hm

/-- A fair run reaches its goal. -/
theorem eventually (hwf : WellFounded r)
    (hfair : ∀ n i m, Stage i m (xs n) → Weakly Enabled xs ms m) {n : ℕ} {i : ρ} {m : μ}
    (hn : Stage i m (xs n)) : ∃ k, n ≤ k ∧ Goal (xs k) := by
  induction i using hwf.induction generalizing n m with
  | _ i ih =>
      by_contra hnever
      have hgoal : ∀ k, n ≤ k → ¬Goal (xs k) := fun k hk hg ↦ hnever ⟨k, hk, hg⟩
      have hlower : ∀ k j m', n ≤ k → r j i → ¬Stage j m' (xs k) := by
        intro k j m' hk hj hs
        obtain ⟨u, hu, hg⟩ := ih j hj hs
        exact hgoal u (hk.trans hu) hg
      obtain ⟨k, hk, hmade⟩ :=
        hfair n i m hn n fun k hk ↦ h.enabled k i m (h.lasts hn hgoal hlower hk).1
      exact (h.lasts hn hgoal hlower hk).2 hmade

end Helps

end Fair
