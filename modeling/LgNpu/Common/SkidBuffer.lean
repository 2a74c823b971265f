import LgNpu.Mac.Units
import LgNpu.Lib.BoundedQueue

/-!
# `skid_buffer` as a queue of two

The output register and the spare hold the contents of a queue with room for
two entries, whatever comes and goes in one cycle, and `in_ready` only looks at
the spare.
-/

namespace LgNpu

namespace SkidBuffer

variable {w : ℕ}

def reset : SkidBuffer w := ⟨0, 0, false, false⟩

def circuit (w : ℕ) : QueueCircuit (SkidBuffer w) (BitVec w) where
  step s p := s.step p.wrData p.wrValid p.rdReady
  wrReady := inReady
  rdValid := outValid
  rdData := outData

/-- The registers hold the entries `q`; the spare is used behind the output
register only. -/
def Contains (s : SkidBuffer w) : List (BitVec w) → Prop
  | [] => s.outValid = false ∧ s.skidValid = false
  | [x] => s.outValid = true ∧ s.outData = x ∧ s.skidValid = false
  | [x, y] => s.outValid = true ∧ s.outData = x ∧ s.skidValid = true ∧ s.skidData = y
  | _ => False

theorem Contains.shows {s : SkidBuffer w} {q : List (BitVec w)} (h : s.Contains q) :
    (circuit w).Shows 2 s q := by
  match q, h with
  | [], ⟨ho, hk⟩ => constructor <;> simp [circuit, inReady, ho, hk]
  | [x], ⟨ho, hx, hk⟩ => constructor <;> simp [circuit, inReady, ho, hx, hk]
  | [x, y], ⟨ho, hx, hk, hy⟩ => constructor <;> simp [circuit, inReady, ho, hx, hk]

/-- Every combination of an entry coming in and one going out, from an empty,
a half-full and a full buffer. -/
theorem Contains.step {s : SkidBuffer w} {q : List (BitVec w)} (h : s.Contains q)
    (p : QueuePins (BitVec w)) : ((circuit w).step s p).Contains (BoundedQueue.next 2 q p) := by
  obtain ⟨x', wrValid, rdReady⟩ := p
  match q, h with
  | [], ⟨ho, hk⟩ =>
      cases wrValid <;> cases rdReady <;>
        simp [circuit, SkidBuffer.step, inReady, BoundedQueue.next, BoundedQueue.pushed, Contains,
          ho, hk]
  | [x], ⟨ho, hx, hk⟩ =>
      cases wrValid <;> cases rdReady <;>
        simp [circuit, SkidBuffer.step, inReady, BoundedQueue.next, BoundedQueue.pushed, Contains,
          ho, hx, hk]
  | [x, y], ⟨ho, hx, hk, hy⟩ =>
      cases wrValid <;> cases rdReady <;>
        simp [circuit, SkidBuffer.step, inReady, BoundedQueue.next, BoundedQueue.pushed, Contains,
          ho, hx, hk, hy]

theorem simulates : (circuit w).Simulates 2 Contains where
  shows _ _ h := h.shows
  step _ _ p h := h.step p

/-- `skid_buffer` from reset on. -/
structure Queues (pins : ℕ → QueuePins (BitVec w)) : Prop where
  refines : (circuit w).Refines 2 reset pins
  /-- The inputs of a cycle, `out_ready` among them, do not show in its
  `in_ready`. -/
  registered : ∀ pins' t, (∀ u < t, pins' u = pins u) →
    (((circuit w).stream pins').run reset t).inReady =
      (((circuit w).stream pins).run reset t).inReady
  stable : ∀ t, (((circuit w).stream pins).run reset t).outValid = true →
    (pins t).rdReady = false →
      (((circuit w).stream pins).run reset (t + 1)).outValid = true ∧
        (((circuit w).stream pins).run reset (t + 1)).outData =
          (((circuit w).stream pins).run reset t).outData

theorem two_entry_queue (pins : ℕ → QueuePins (BitVec w)) : Queues pins := by
  have hrefines := simulates.refines (s := reset) ⟨rfl, rfl⟩ pins
  refine ⟨hrefines, fun pins' t hpins ↦ ?_, hrefines.stable⟩
  refine congrArg inReady (Clocked.run_congr (fun u hu ↦ ?_) t le_rfl)
  exact congrArg ((circuit w).step _) (hpins u hu)

end SkidBuffer

end LgNpu
