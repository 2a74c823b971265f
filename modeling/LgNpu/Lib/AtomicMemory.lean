import LgNpu.Lib.Clocked
import Mathlib.Logic.Function.Basic
import Mathlib.Data.List.Range

/-!
# Atomic memories

What a memory shared by several requesters is for: the operations take effect
one at a time, and each read is answered with the value the operations before
it have left.  A clocked machine implements such a memory when every cycle
performs a list of operations and the next one shows their answers.
-/

namespace AtomicMemory

variable {π α β : Type*} [DecidableEq α]

/-- An operation of requester `p`. -/
inductive Op (π α β : Type*)
  | read (p : π) (a : α)
  | write (p : π) (a : α) (v : β)

def Op.effect (m : α → β) : Op π α β → α → β
  | .read _ _ => m
  | .write _ a v => Function.update m a v

def Op.answer (m : α → β) : Op π α β → Option (π × β)
  | .read p a => some (p, m a)
  | .write _ _ _ => none

/-- The contents after a list of operations. -/
def exec (m : α → β) (ops : List (Op π α β)) : α → β := ops.foldl Op.effect m

/-- The answers to its reads, in order. -/
def answers (m : α → β) : List (Op π α β) → List (π × β)
  | [] => []
  | o :: ops => (o.answer m).toList ++ answers (o.effect m) ops

@[simp] theorem exec_nil (m : α → β) : exec m ([] : List (Op π α β)) = m := rfl

@[simp] theorem exec_cons (m : α → β) (o : Op π α β) (ops : List (Op π α β)) :
    exec m (o :: ops) = exec (o.effect m) ops := rfl

theorem exec_append (m : α → β) (ops ops' : List (Op π α β)) :
    exec m (ops ++ ops') = exec (exec m ops) ops' := by
  rw [exec, List.foldl_append]
  rfl

@[simp] theorem answers_nil (m : α → β) : answers m ([] : List (Op π α β)) = [] := rfl

@[simp] theorem answers_cons (m : α → β) (o : Op π α β) (ops : List (Op π α β)) :
    answers m (o :: ops) = (o.answer m).toList ++ answers (o.effect m) ops := rfl

theorem answers_append (m : α → β) (ops ops' : List (Op π α β)) :
    answers m (ops ++ ops') = answers m ops ++ answers (exec m ops) ops' := by
  induction ops generalizing m with
  | nil => rfl
  | cons o ops ih =>
      rw [List.cons_append, answers_cons, answers_cons, ih, List.append_assoc]
      rfl

/-! ## Implementations -/

section

variable {σ : Type*}

/-- The operations that cycles `0, …, t - 1` of a run perform. -/
def history (step : ℕ → σ → σ) (ops : ℕ → σ → List (Op π α β)) (s : σ) (t : ℕ) :
    List (Op π α β) :=
  (List.range t).flatMap fun u ↦ ops u (Clocked.run step s u)

/-- The answers that cycles `1, …, t` of a run show. -/
def shown (step : ℕ → σ → σ) (rsps : σ → List (π × β)) (s : σ) (t : ℕ) : List (π × β) :=
  (List.range t).flatMap fun u ↦ rsps (Clocked.run step s (u + 1))

/-- Each cycle performs its operations and the next one shows the answers. -/
structure Implements (step : ℕ → σ → σ) (contents : σ → α → β) (rsps : σ → List (π × β))
    (ops : ℕ → σ → List (Op π α β)) : Prop where
  contents_step : ∀ t s, contents (step t s) = exec (contents s) (ops t s)
  rsps_step : ∀ t s, rsps (step t s) = answers (contents s) (ops t s)

variable {step : ℕ → σ → σ} {contents : σ → α → β} {rsps : σ → List (π × β)}
  {ops : ℕ → σ → List (Op π α β)}

omit [DecidableEq α] in
theorem history_succ (s : σ) (t : ℕ) :
    history step ops s (t + 1) = history step ops s t ++ ops t (Clocked.run step s t) := by
  rw [history, List.range_succ, List.flatMap_append, List.flatMap_singleton]
  rfl

theorem Implements.contents_run (h : Implements step contents rsps ops) (s : σ) (t : ℕ) :
    contents (Clocked.run step s t) = exec (contents s) (history step ops s t) := by
  induction t with
  | zero => rfl
  | succ t ih => rw [Clocked.run_succ, h.contents_step, ih, history_succ, exec_append]

/-- A run shows the answers of its history: no operation is lost, none takes
effect twice. -/
theorem Implements.shown_run (h : Implements step contents rsps ops) (s : σ) (t : ℕ) :
    shown step rsps s t = answers (contents s) (history step ops s t) := by
  induction t with
  | zero => rfl
  | succ t ih =>
      have hlast := h.rsps_step t (Clocked.run step s t)
      rw [history_succ, answers_append, ← ih, ← h.contents_run, ← hlast, shown, List.range_succ,
        List.flatMap_append, List.flatMap_singleton]
      rfl

end

end AtomicMemory
