import LgNpu.Lib.Clocked

/-!
# One request at a time

A machine beside an ideal one that does every request in a single step.  The two
are related at rest and on the way back to it, where a rank falls with each
clock edge or the machine waits for a port; which inputs are allowed may depend
on both.
-/

namespace Clocked

variable {ι κ ρ σ τ : Type*}

/-! ## One schedule after another -/

/-- The inputs `f` before cycle `u` and `g` from there on. -/
def splice (u : ℕ) (f g : ℕ → ι) (t : ℕ) : ι := if t < u then f t else g (t - u)

section Splice

variable {u t : ℕ} {f g : ℕ → ι} {step : ι → σ → σ} {x : σ}

theorem splice_of_lt (h : t < u) : splice u f g t = f t := if_pos h

theorem splice_add : splice u f g (u + t) = g t := by simp [splice]

theorem run_splice (h : t ≤ u) :
    run (fun t ↦ step (splice u f g t)) x t = run (fun t ↦ step (f t)) x t :=
  run_congr (fun _ hlt ↦ by rw [splice_of_lt hlt]) t h

theorem run_splice_add : run (fun t ↦ step (splice u f g t)) x (u + t) =
    run (fun t ↦ step (g t)) (run (fun t ↦ step (f t)) x u) t := by
  induction t with
  | zero => exact run_splice le_rfl
  | succ t ih => rw [← Nat.add_assoc, run_succ, ih, splice_add, run_succ]

end Splice

/-! ## One request after another -/

/-- At rest an input may start a request, which is `Due` until the machine is
back at rest.  A request that is due waits for one port at a time. -/
structure Serves (r : ρ → ρ → Prop) (step : ι → σ → σ) (ideal : ι → τ → τ) (port : κ → ι → Bool)
    (Allowed : ι → σ → τ → Prop) (Rest : σ → τ → Prop) (Due : κ → ρ → σ → τ → Prop) : Prop where
  rest : ∀ i x a, Rest x a → Allowed i x a →
    Rest (step i x) (ideal i a) ∨ ∃ k n, Due k n (step i x) (ideal i a)
  due : ∀ i k n x a, Due k n x a → Allowed i x a →
    Rest (step i x) (ideal i a) ∨ (∃ l m, r m n ∧ Due l m (step i x) (ideal i a)) ∨
      port k i = false ∧ Due k n (step i x) (ideal i a)

namespace Serves

variable {r : ρ → ρ → Prop} {step : ι → σ → σ} {ideal : ι → τ → τ} {port : κ → ι → Bool}
  {Allowed : ι → σ → τ → Prop} {Rest : σ → τ → Prop} {Due : κ → ρ → σ → τ → Prop} {ins : ℕ → ι}
  {x : σ} {a : τ} (h : Serves r step ideal port Allowed Rest Due) (hrest : Rest x a)
  (hok : ∀ t, Allowed (ins t) (run (fun t ↦ step (ins t)) x t) (run (fun t ↦ ideal (ins t)) a t))
include h hok

section Related

include hrest

theorem related (t : ℕ) :
    Rest (run (fun t ↦ step (ins t)) x t) (run (fun t ↦ ideal (ins t)) a t) ∨
      ∃ k n, Due k n (run (fun t ↦ step (ins t)) x t) (run (fun t ↦ ideal (ins t)) a t) := by
  induction t with
  | zero => exact .inl hrest
  | succ t ih =>
      rcases ih with ih | ⟨k, n, ih⟩
      · exact h.rest _ _ _ ih (hok t)
      · rcases h.due _ _ _ _ _ ih (hok t) with hr | ⟨l, m, -, hm⟩ | ⟨-, hm⟩
        exacts [.inl hr, .inr ⟨l, m, hm⟩, .inr ⟨k, n, hm⟩]

end Related

/-- A request waits until its port is granted or its rank falls. -/
theorem leaves {k : κ} {n : ρ} {t : ℕ} (hfair : Fair fun t ↦ port k (ins t))
    (hn : Due k n (run (fun t ↦ step (ins t)) x t) (run (fun t ↦ ideal (ins t)) a t)) :
    ∃ u, t ≤ u ∧ (Rest (run (fun t ↦ step (ins t)) x u) (run (fun t ↦ ideal (ins t)) a u) ∨
      ∃ l m, r m n ∧
        Due l m (run (fun t ↦ step (ins t)) x u) (run (fun t ↦ ideal (ins t)) a u)) := by
  obtain ⟨v, hv, hgrant⟩ := hfair t
  obtain ⟨d, rfl⟩ : ∃ d, v = t + d := ⟨v - t, by omega⟩
  -- Induction on the delay until the grant.
  induction d generalizing t with
  | zero =>
      rcases h.due _ _ _ _ _ hn (hok t) with hr | ⟨l, m, hlt, hm⟩ | ⟨hno, -⟩
      · exact ⟨t + 1, Nat.le_succ t, .inl hr⟩
      · exact ⟨t + 1, Nat.le_succ t, .inr ⟨l, m, hlt, hm⟩⟩
      · exact absurd (hno.symm.trans hgrant) Bool.false_ne_true
  | succ d ih =>
      rcases h.due _ _ _ _ _ hn (hok t) with hr | ⟨l, m, hlt, hm⟩ | ⟨-, hm⟩
      · exact ⟨t + 1, Nat.le_succ t, .inl hr⟩
      · exact ⟨t + 1, Nat.le_succ t, .inr ⟨l, m, hlt, hm⟩⟩
      · have hsum : t + (d + 1) = t + 1 + d := by omega
        rw [hsum] at hgrant
        obtain ⟨u, hu, hend⟩ := @ih (t + 1) hm (Nat.le_add_right _ _) hgrant
        exact ⟨u, Nat.le_of_succ_le hu, hend⟩

include hrest

/-- Every request comes to its end. -/
theorem returns (hwf : WellFounded r) (hfair : ∀ k, Fair fun t ↦ port k (ins t)) (t : ℕ) :
    ∃ u, t ≤ u ∧ Rest (run (fun t ↦ step (ins t)) x u) (run (fun t ↦ ideal (ins t)) a u) := by
  rcases h.related hrest hok t with hr | ⟨k, n, hn⟩
  · exact ⟨t, le_rfl, hr⟩
  · induction n using hwf.induction generalizing t k with
    | _ n ih =>
        obtain ⟨v, hv, hr | ⟨l, m, hlt, hm⟩⟩ := h.leaves hok (hfair k) hn
        · exact ⟨v, hv, hr⟩
        · obtain ⟨u, hu, hr⟩ := ih m hlt v l hm
          exact ⟨u, hv.trans hu, hr⟩

end Serves

end Clocked
