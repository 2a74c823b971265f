import LgNpu.Lib.Stream

/-!
# Bounded queues

What a queue circuit is for: an entry on offer is taken while there is room,
and the oldest entry leaves when it is asked for.  A circuit with the ports of
a queue refines one of a given capacity when a relation between its states and
contents is kept by every clock edge.
-/

/-- One cycle seen from outside a queue: the entry on offer, and whether the
reader takes one. -/
structure QueuePins (α : Type*) where
  wrData : α
  wrValid : Bool
  rdReady : Bool

namespace BoundedQueue

variable {α : Type*} (cap : ℕ) (q : List α) (p : QueuePins α)

def pushed : List α := if p.wrValid && decide (q.length < cap) then [p.wrData] else []

def popped : List α := if p.rdReady then q.take 1 else []

/-- The contents after one cycle; a full queue takes nothing, even when its
oldest entry leaves. -/
def next : List α := (if p.rdReady then q.tail else q) ++ pushed cap q p

/-- The contents in cycle `t`, empty at first. -/
def run (pins : ℕ → QueuePins α) : ℕ → List α :=
  Clocked.run (fun t q ↦ next cap q (pins t)) []

variable {cap q p}

theorem popped_append_next : popped q p ++ next cap q p = q ++ pushed cap q p := by
  cases hr : p.rdReady with
  | false => simp [popped, next, hr]
  | true => cases q <;> simp [popped, next, hr]

/-- An entry that is not asked for keeps its place. -/
theorem head?_next (hq : q ≠ []) (hr : p.rdReady = false) :
    (next cap q p).head? = q.head? := by
  rw [next, hr, if_neg Bool.false_ne_true, List.head?_append_of_ne_nil _ hq]

theorem next_ne_nil (hq : q ≠ []) (hr : p.rdReady = false) : next cap q p ≠ [] := by
  intro hnil
  have hhead : (next cap q p).head? = q.head? := head?_next hq hr
  rw [hnil, List.head?_nil, eq_comm, List.head?_eq_none_iff] at hhead
  exact hq hhead

end BoundedQueue

/-- A clocked circuit with the ports of a queue. -/
structure QueueCircuit (σ α : Type*) where
  step : σ → QueuePins α → σ
  wrReady : σ → Bool
  rdValid : σ → Bool
  rdData : σ → α

namespace QueueCircuit

variable {σ α : Type*} (c : QueueCircuit σ α) (cap : ℕ)

/-- The entries the two handshakes let in and out. -/
def stream (pins : ℕ → QueuePins α) : StreamMachine σ α α where
  step t s := c.step s (pins t)
  taken t s := if (pins t).wrValid && c.wrReady s then [(pins t).wrData] else []
  sent t s := if c.rdValid s && (pins t).rdReady then [c.rdData s] else []

/-- The ports show what a queue with contents `q` would. -/
structure Shows (s : σ) (q : List α) : Prop where
  length_le : q.length ≤ cap
  wrReady : c.wrReady s = true ↔ q.length < cap
  rdValid : c.rdValid s = true ↔ q ≠ []
  rdData : q ≠ [] → q.head? = some (c.rdData s)

/-- Each edge moves the contents as a queue would. -/
structure Simulates (R : σ → List α → Prop) : Prop where
  shows : ∀ s q, R s q → c.Shows cap s q
  step : ∀ s q p, R s q → R (c.step s p) (BoundedQueue.next cap q p)

/-- Over a run the circuit is the queue: in every cycle its ports show the
queue's contents, and what it has let in is what it has let out followed by
these. -/
structure Refines (s : σ) (pins : ℕ → QueuePins α) : Prop where
  shows : ∀ t, c.Shows cap ((c.stream pins).run s t) (BoundedQueue.run cap pins t)
  order : ∀ t, (c.stream pins).accepted s t =
    (c.stream pins).delivered s t ++ BoundedQueue.run cap pins t
  /-- A reader that is ready again and again gets every entry. -/
  drains : (Clocked.Fair fun t ↦ (pins t).rdReady) → ∀ t, ∃ u,
    (c.stream pins).accepted s t <+: (c.stream pins).delivered s u

variable {c cap} {s : σ} {q : List α} {pins : ℕ → QueuePins α} {t : ℕ}

theorem Shows.taken_eq (h : c.Shows cap s q) :
    (c.stream pins).taken t s = BoundedQueue.pushed cap q (pins t) := by
  have hready : c.wrReady s = decide (q.length < cap) :=
    Bool.eq_iff_iff.mpr (h.wrReady.trans decide_eq_true_iff.symm)
  simp only [stream, BoundedQueue.pushed, hready]

theorem Shows.sent_eq (h : c.Shows cap s q) :
    (c.stream pins).sent t s = BoundedQueue.popped q (pins t) := by
  cases q with
  | nil =>
      have hvalid : c.rdValid s = false :=
        Bool.eq_false_of_not_eq_true fun hv ↦ h.rdValid.mp hv rfl
      simp [stream, BoundedQueue.popped, hvalid]
  | cons x xs =>
      have hvalid : c.rdValid s = true := h.rdValid.mpr (List.cons_ne_nil x xs)
      have hdata : x = c.rdData s := Option.some.inj (h.rdData (List.cons_ne_nil x xs))
      simp [stream, BoundedQueue.popped, hvalid, ← hdata]

namespace Simulates

variable {R : σ → List α → Prop} (h : c.Simulates cap R)
include h

theorem run (hzero : R s []) (pins : ℕ → QueuePins α) (t : ℕ) :
    R ((c.stream pins).run s t) (BoundedQueue.run cap pins t) :=
  Clocked.run_related R hzero (fun t x q hx ↦ h.step x q (pins t) hx) t

theorem queues (pins : ℕ → QueuePins α) :
    (c.stream pins).Queues (fun t x q ↦ R x q ∧ q = BoundedQueue.run cap pins t) Eq := by
  rintro t x q ⟨hx, hq⟩
  refine ⟨BoundedQueue.popped q (pins t), BoundedQueue.next cap q (pins t), ?_, ?_,
    h.step x q (pins t) hx, congrArg (BoundedQueue.next cap · (pins t)) hq⟩
  · rw [(h.shows x q hx).taken_eq, BoundedQueue.popped_append_next]
  · rw [(h.shows x q hx).sent_eq, List.forall₂_eq_eq_eq]

theorem exists_sent (hfair : Clocked.Fair fun t ↦ (pins t).rdReady)
    (hx : R ((c.stream pins).run s t) q) (hq : q ≠ []) : ∃ u, t < u ∧
      ((c.stream pins).delivered s t).length < ((c.stream pins).delivered s u).length := by
  refine StreamMachine.exists_sent (V := fun x ↦ ∃ q, R x q ∧ q ≠ []) hfair ?_ ?_ le_rfl
    ⟨q, hx, hq⟩
  · rintro t x ⟨q, hx, hq⟩ hr
    simp [stream, (h.shows x q hx).rdValid.mpr hq, hr]
  · rintro t x ⟨q, hx, hq⟩ hr
    exact ⟨_, h.step x q (pins t) hx, BoundedQueue.next_ne_nil hq hr⟩

/-- A circuit that simulates a queue from its empty state on refines it. -/
theorem refines (hzero : R s []) (pins : ℕ → QueuePins α) : c.Refines cap s pins where
  shows t := h.shows _ _ (h.run hzero pins t)
  order t := by
    obtain ⟨d, q, hacc, hdel, -, hq⟩ := (h.queues pins).run ⟨hzero, rfl⟩ t
    rw [List.forall₂_eq_eq_eq] at hdel
    rw [hacc, hdel, hq]
  drains hfair t := by
    obtain ⟨u, hu⟩ := (h.queues pins).drains ⟨hzero, rfl⟩
      (fun t q hq hne ↦ h.exists_sent hfair hq.1 hne) t
    refine ⟨u, ?_⟩
    rw [List.forall₂_eq_eq_eq] at hu
    exact hu ▸ List.take_prefix _ _

end Simulates

/-- An entry shown to a reader that is not ready stays. -/
theorem Refines.stable (h : c.Refines cap s pins) (t : ℕ)
    (hv : c.rdValid ((c.stream pins).run s t) = true) (hr : (pins t).rdReady = false) :
    c.rdValid ((c.stream pins).run s (t + 1)) = true ∧
      c.rdData ((c.stream pins).run s (t + 1)) = c.rdData ((c.stream pins).run s t) := by
  have hq := (h.shows t).rdValid.mp hv
  have hnext : BoundedQueue.run cap pins (t + 1) ≠ [] := BoundedQueue.next_ne_nil hq hr
  have hhead : (BoundedQueue.run cap pins (t + 1)).head? = (BoundedQueue.run cap pins t).head? :=
    BoundedQueue.head?_next hq hr
  refine ⟨(h.shows (t + 1)).rdValid.mpr hnext, Option.some.inj ?_⟩
  rw [← (h.shows t).rdData hq, ← (h.shows (t + 1)).rdData hnext, hhead]

end QueueCircuit
