import Mathlib.Data.Nat.Init
import Mathlib.Logic.Function.Basic
import Mathlib.Data.List.Nodup
import Mathlib.Data.List.Infix
import Mathlib.Data.List.Range
import Mathlib.Data.List.Pairwise

/-!
# Memories as replayed write logs

A memory is a function of the address; a log is the ordered list of writes it
has taken.
-/

namespace WriteLog

variable {α β : Type*} [DecidableEq α]

/-- The memory after the writes of a log, oldest first. -/
def replay (m : α → β) (ws : List (α × β)) : α → β :=
  ws.foldl (fun m w ↦ Function.update m w.1 w.2) m

@[simp] theorem replay_nil (m : α → β) : replay m [] = m := rfl

@[simp] theorem replay_cons (m : α → β) (w : α × β) (ws : List (α × β)) :
    replay m (w :: ws) = replay (Function.update m w.1 w.2) ws := rfl

theorem replay_append (m : α → β) (ws vs : List (α × β)) :
    replay m (ws ++ vs) = replay (replay m ws) vs := by
  simp [replay]

theorem replay_concat (m : α → β) (ws : List (α × β)) (w : α × β) :
    replay m (ws ++ [w]) = Function.update (replay m ws) w.1 w.2 := by
  rw [replay_append]
  rfl

/-- An address no write mentions keeps its value. -/
theorem replay_of_notMem {m : α → β} {ws : List (α × β)} {a : α}
    (h : ∀ w ∈ ws, w.1 ≠ a) : replay m ws a = m a := by
  induction ws generalizing m with
  | nil => rfl
  | cons w ws ih =>
      rw [replay_cons, ih (fun v hv ↦ h v (List.mem_cons_of_mem w hv)),
        Function.update_of_ne (h w List.mem_cons_self).symm]

/-- An address written exactly once holds that value. -/
theorem replay_of_mem {m : α → β} {ws : List (α × β)} {a : α} {b : β}
    (hnodup : (ws.map Prod.fst).Nodup) (h : (a, b) ∈ ws) : replay m ws a = b := by
  induction ws generalizing m with
  | nil => simp at h
  | cons w ws ih =>
      rw [List.map_cons, List.nodup_cons] at hnodup
      rw [replay_cons]
      rcases List.mem_cons.mp h with rfl | h
      · rw [replay_of_notMem, Function.update_self]
        intro v hv hva
        have hmem : v.1 ∈ ws.map Prod.fst := List.mem_map_of_mem hv
        rw [hva] at hmem
        exact hnodup.1 hmem
      · exact ih hnodup.2 h

/-- A log given entry by entry grows by extension. -/
theorem map_range_isPrefix {ω : Type*} (f : ℕ → ω) {n k : ℕ} (h : n ≤ k) :
    (List.range n).map f <+: (List.range k).map f := by
  refine List.IsPrefix.map _ ⟨(List.range (k - n)).map (n + ·), ?_⟩
  rw [← List.range_add, Nat.add_sub_cancel' h]

/-! ## Sequential programs

A program emits the writes of its bodies in turn; each body sees the memory
that all writes before it have left. -/

section Program

variable {μ ω : Type*} (upd : μ → List ω → μ) (body : ℕ → μ → List ω) (m : μ)

def program : ℕ → List ω
  | 0 => []
  | n + 1 => program n ++ body n (upd m (program n))

@[simp] theorem program_zero : program upd body m 0 = [] := rfl

theorem program_succ (n : ℕ) :
    program upd body m (n + 1) = program upd body m n ++ body n (upd m (program upd body m n)) :=
  rfl

theorem program_isPrefix {i n : ℕ} (h : i ≤ n) : program upd body m i <+: program upd body m n := by
  induction n, h using Nat.le_induction with
  | base => exact List.prefix_refl _
  | succ n _ ih => exact ih.trans ⟨_, rfl⟩

theorem length_program {L : ℕ} (h : ∀ i m, (body i m).length = L) (n : ℕ) :
    (program upd body m n).length = n * L := by
  induction n with
  | zero => simp
  | succ n ih => rw [program_succ, List.length_append, ih, h, Nat.succ_mul]

/-- Bodies that do not depend on the writes before them may be listed at
once. -/
theorem program_eq_flatMap {f : ℕ → List ω} (n : ℕ)
    (h : ∀ i < n, body i (upd m (program upd body m i)) = f i) :
    program upd body m n = (List.range n).flatMap f := by
  induction n with
  | zero => rfl
  | succ n ih =>
      rw [program_succ, h n (Nat.lt_succ_self n), ih fun i hi ↦ h i (by omega), List.range_succ,
        List.flatMap_append, List.flatMap_singleton]

end Program

end WriteLog
