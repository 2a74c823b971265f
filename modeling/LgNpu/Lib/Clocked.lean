import Mathlib.Order.WellFounded
import Mathlib.Data.Nat.Find
import Mathlib.Tactic.Basic

/-!
# Clocked machines under fair environments

A synchronous machine is a function `step : ℕ → σ → σ`, the clock cycle being
its first argument so that inputs may be read off an arbitrary schedule.  This
module holds the rules every run argument below uses: invariants hold of each
cycle, a machine whose rank can only be held up by ports that are granted again
and again reaches its goal, and a state paced by a counter is left when that has
run down.
-/

namespace Clocked

variable {σ : Type*}

/-- The state after `t` clock edges. -/
def run (step : ℕ → σ → σ) (s : σ) : ℕ → σ
  | 0 => s
  | t + 1 => step t (run step s t)

@[simp] theorem run_zero (step : ℕ → σ → σ) (s : σ) : run step s 0 = s := rfl

theorem run_succ (step : ℕ → σ → σ) (s : σ) (t : ℕ) :
    run step s (t + 1) = step t (run step s t) := rfl

/-- An invariant of the initial state that each clock edge keeps holds of
every cycle. -/
theorem run_induction {step : ℕ → σ → σ} {s : σ} (P : ℕ → σ → Prop)
    (hzero : P 0 s) (hstep : ∀ t x, P t x → P (t + 1) (step t x)) (t : ℕ) :
    P t (run step s t) := by
  induction t with
  | zero => exact hzero
  | succ t ih => exact hstep t _ ih

/-- Two machines that each clock edge keeps related are related in every
cycle. -/
theorem run_related {τ : Type*} {step : ℕ → σ → σ} {step' : ℕ → τ → τ} {s : σ} {s' : τ}
    (R : σ → τ → Prop) (hzero : R s s')
    (hstep : ∀ t x x', R x x' → R (step t x) (step' t x')) (t : ℕ) :
    R (run step s t) (run step' s' t) := by
  induction t with
  | zero => exact hzero
  | succ t ih => exact hstep t _ _ ih

theorem run_congr {step step' : ℕ → σ → σ} {s : σ} {T : ℕ}
    (h : ∀ t < T, step t (run step s t) = step' t (run step s t)) :
    ∀ t ≤ T, run step s t = run step' s t := by
  intro t
  induction t with
  | zero => intro _; rfl
  | succ t ih =>
      intro ht
      rw [run_succ, run_succ, ← ih (by omega), h t (by omega)]

/-- What persists until `P` is still there when `P` first comes. -/
theorem exists_until {x : ℕ → σ} {A : σ → Prop} {P : ℕ → Prop} {t₀ : ℕ} (h : A (x t₀))
    (hstay : ∀ t, t₀ ≤ t → A (x t) → ¬P t → A (x (t + 1))) (hP : ∃ u, t₀ ≤ u ∧ P u) :
    ∃ u, t₀ ≤ u ∧ A (x u) ∧ P u := by
  classical
  obtain ⟨v, hv, hPv⟩ := hP
  have hex : ∃ n, P (t₀ + n) := ⟨v - t₀, by rwa [Nat.add_sub_cancel' hv]⟩
  refine ⟨t₀ + Nat.find hex, Nat.le_add_right _ _, ?_, Nat.find_spec hex⟩
  have hbefore : ∀ n ≤ Nat.find hex, A (x (t₀ + n)) := by
    intro n
    induction n with
    | zero => exact fun _ ↦ h
    | succ n ih =>
        intro hn
        exact hstay _ (Nat.le_add_right _ _) (ih (Nat.le_of_succ_le hn)) (Nat.find_min hex hn)
  exact hbefore _ le_rfl

/-- A port that is granted again and again: every held request is granted
after a finite delay. -/
def Fair (g : ℕ → Bool) : Prop := ∀ t, ∃ u, t ≤ u ∧ g u = true

theorem Fair.succ {g : ℕ → Bool} (h : Fair g) : Fair fun t ↦ g (t + 1) := by
  intro t
  obtain ⟨u, hu, hg⟩ := h (t + 1)
  refine ⟨u - 1, by omega, ?_⟩
  change g (u - 1 + 1) = true
  rwa [Nat.sub_add_cancel (by omega)]

theorem fair_true : Fair (fun _ ↦ true) := fun t ↦ ⟨t, le_rfl, rfl⟩

/-- While the goal has not been reached, each edge lowers the rank or finds
the machine waiting for some port, and a machine that waits for a port keeps
waiting, at the same rank, until that port is granted.  If every port is fair,
the goal is reached. -/
theorem eventually_of_rank {ι α : Type*} {x : ℕ → σ} {r : α → α → Prop}
    (hwf : WellFounded r) (rank : σ → α) (goal : σ → Prop)
    (waits : ι → σ → Prop) (port : ι → ℕ → Bool) (hfair : ∀ i, Fair (port i))
    (hedge : ∀ t, ¬ goal (x t) → goal (x (t + 1)) ∨ r (rank (x (t + 1))) (rank (x t)) ∨
      ∃ i, waits i (x t))
    (hwait : ∀ t i, ¬ goal (x t) → waits i (x t) →
      goal (x (t + 1)) ∨ r (rank (x (t + 1))) (rank (x t)) ∨
        port i t = false ∧ waits i (x (t + 1)) ∧ rank (x (t + 1)) = rank (x t)) (t₀ : ℕ) :
    ∃ t, t₀ ≤ t ∧ goal (x t) := by
  induction hrank : rank (x t₀) using hwf.induction generalizing t₀ with
  | _ a ih =>
  have descend : ∀ t, t₀ ≤ t → r (rank (x (t + 1))) a → ∃ u, t₀ ≤ u ∧ goal (x u) := by
    intro t ht hlt
    obtain ⟨u, hu, hgoal⟩ := ih _ hlt (t + 1) rfl
    exact ⟨u, by omega, hgoal⟩
  -- Induction on the delay until the port waited for is granted.
  have waiting : ∀ n t i, t₀ ≤ t → rank (x t) = a → waits i (x t) → port i (t + n) = true →
      ∃ u, t₀ ≤ u ∧ goal (x u) := by
    intro n
    induction n with
    | zero =>
        intro t i ht hranked hi hport
        by_cases hgoal : goal (x t)
        · exact ⟨t, ht, hgoal⟩
        rcases hwait t i hgoal hi with hnext | hlt | ⟨hblocked, -, -⟩
        · exact ⟨t + 1, by omega, hnext⟩
        · exact descend t ht (hranked ▸ hlt)
        · exact absurd (hblocked.symm.trans hport) Bool.false_ne_true
    | succ n ihn =>
        intro t i ht hranked hi hport
        by_cases hgoal : goal (x t)
        · exact ⟨t, ht, hgoal⟩
        rcases hwait t i hgoal hi with hnext | hlt | ⟨-, hstill, hsame⟩
        · exact ⟨t + 1, by omega, hnext⟩
        · exact descend t ht (hranked ▸ hlt)
        · exact ihn (t + 1) i (by omega) (hsame.trans hranked) hstill
            (by rwa [show t + 1 + n = t + (n + 1) by omega])
  by_cases hgoal : goal (x t₀)
  · exact ⟨t₀, le_rfl, hgoal⟩
  rcases hedge t₀ hgoal with hnext | hlt | ⟨i, hi⟩
  · exact ⟨t₀ + 1, by omega, hnext⟩
  · exact descend t₀ le_rfl (hrank ▸ hlt)
  · obtain ⟨u, hu, hport⟩ := hfair i t₀
    exact waiting (u - t₀) t₀ i le_rfl hrank hi (by rwa [Nat.add_sub_cancel' hu])

/-! ## States left when a counter has run down -/

section Paced

variable {τ : Type*} {w : ℕ}

/-- The machine stays in state `st` while it counts down, and leaves for `exit`
in the cycle in which the counter is zero. -/
structure Paced (step : ℕ → σ → σ) (state : σ → τ) (cnt : σ → BitVec w) (st exit : τ) : Prop where
  state_step : ∀ t x, state x = st → state (step t x) = if cnt x = 0 then exit else st
  cnt_step : ∀ t x, state x = st → cnt (step t x) = cnt x - 1

variable {step : ℕ → σ → σ} {state : σ → τ} {cnt : σ → BitVec w} {st exit : τ} {s : σ} {k : ℕ}

namespace Paced

variable (h : Paced step state cnt st exit) (hs : state s = st)
include h hs

theorem counting (hk : k ≤ (cnt s).toNat) :
    state (run step s k) = st ∧ (cnt (run step s k)).toNat + k = (cnt s).toNat := by
  induction k with
  | zero => exact ⟨hs, rfl⟩
  | succ k ih =>
      obtain ⟨hst, hcnt⟩ := ih (by omega)
      have hpos : 1 ≤ (cnt (run step s k)).toNat := by omega
      have hne : cnt (run step s k) ≠ 0 := fun hzero ↦ by simp [hzero] at hpos
      have hone : (1 : BitVec w).toNat = 1 :=
        Nat.mod_eq_of_lt (hpos.trans_lt (cnt (run step s k)).isLt)
      refine ⟨(h.state_step k _ hst).trans (if_neg hne), ?_⟩
      rw [run_succ, h.cnt_step k _ hst, BitVec.toNat_sub_of_le (BitVec.le_def.mpr (hone ▸ hpos)),
        hone]
      omega

theorem last : cnt (run step s (cnt s).toNat) = 0 := by
  have hcnt := (h.counting hs le_rfl).2
  exact BitVec.eq_of_toNat_eq (by simpa using hcnt)

theorem left : state (run step s ((cnt s).toNat + 1)) = exit := by
  rw [run_succ, h.state_step _ _ (h.counting hs le_rfl).1, if_pos (h.last hs)]

/-- What each of its cycles preserves holds until the state is left. -/
theorem induction (I : ℕ → σ → Prop) (hzero : I 0 s)
    (hbody : ∀ k x, k ≤ (cnt s).toNat → state x = st → I k x → I (k + 1) (step k x))
    (hk : k ≤ (cnt s).toNat + 1) : I k (run step s k) := by
  induction k with
  | zero => exact hzero
  | succ k ih =>
      exact hbody k _ (by omega) (h.counting hs (by omega)).1 (ih (by omega))

end Paced

end Paced

end Clocked
