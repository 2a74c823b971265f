import LgNpu.Host.Queue
import LgNpu.Lib.BoundedQueue

/-!
# `fifo` as a bounded queue

Over any run of pushes and pops, with as many turns of the two pointers as it
takes, `fifo` is a queue of `2 ^ w` entries, and its flags are exact.
-/

namespace LgNpu

namespace Fifo

variable {w : ℕ} {α : Type} [Zero α]

/-- Out of reset the pointers are zero; the storage is not reset. -/
def reset (mem : BitVec w → α) : Fifo w α := ⟨mem, 0, 0⟩

def circuit (w : ℕ) (α : Type) [Zero α] : QueueCircuit (Fifo w α) α where
  step s p := s.step p.wrData p.wrValid p.rdReady
  wrReady := wrReady
  rdValid := rdValid
  rdData s := s.rdData

/-- The distance of the pointers. -/
def occupancy (s : Fifo w α) : BitVec (w + 1) := s.wrPtr - s.rdPtr

variable {s : Fifo w α} {xs : List α}

omit [Zero α] in
theorem Holds.toNat_occupancy (h : s.Holds xs) : s.occupancy.toNat = xs.length := by
  have hlen := h.length_le
  have hpow := Nat.pow_lt_pow_right (a := 2) (by omega) (Nat.lt_succ_self w)
  rw [occupancy, h.wrPtr, BitVec.add_comm, BitVec.add_sub_cancel, BitVec.toNat_ofNat,
    Nat.mod_eq_of_lt (by omega)]

theorem Holds.rdData_headD (h : s.Holds xs) : s.rdData = xs.headD 0 := by
  cases xs with
  | nil => rw [rdData, if_pos (h.empty_iff.mpr rfl), List.headD_nil]
  | cons x xs => exact h.rdData_eq

omit [Zero α] in
theorem Holds.wrReady_eq (h : s.Holds xs) : s.wrReady = decide (xs.length < 2 ^ w) := by
  have hlen := h.length_le
  apply Bool.eq_iff_iff.mpr
  rw [wrReady, Bool.not_eq_true', Bool.eq_false_iff, ne_eq, h.full_iff, decide_eq_true_iff]
  omega

omit [Zero α] in
theorem Holds.rdValid_iff (h : s.Holds xs) : s.rdValid = true ↔ xs ≠ [] := by
  rw [rdValid, Bool.not_eq_true', Bool.eq_false_iff, ne_eq, h.empty_iff]

theorem simulates : (circuit w α).Simulates (2 ^ w) Holds where
  shows s xs h :=
    { length_le := h.length_le
      wrReady := by
        change s.wrReady = true ↔ _
        rw [h.wrReady_eq, decide_eq_true_iff]
      rdValid := h.rdValid_iff
      rdData := fun hne ↦ by
        obtain ⟨x, xs, rfl⟩ := List.exists_cons_of_ne_nil hne
        exact congrArg some (Holds.rdData_eq h).symm }
  step s xs p h := by
    have hstep := h.step p.wrData p.wrValid p.rdReady
    rwa [← wrReady, h.wrReady_eq] at hstep

/-- `fifo` from reset on: a bounded queue whose pointers and flags tell its
length exactly. -/
structure Queues (mem : BitVec w → α) (pins : ℕ → QueuePins α) : Prop where
  refines : (circuit w α).Refines (2 ^ w) (reset mem) pins
  full : ∀ t, (((circuit w α).stream pins).run (reset mem) t).full = true ↔
    (BoundedQueue.run (2 ^ w) pins t).length = 2 ^ w
  empty : ∀ t, (((circuit w α).stream pins).run (reset mem) t).empty = true ↔
    BoundedQueue.run (2 ^ w) pins t = []
  occupancy : ∀ t, (((circuit w α).stream pins).run (reset mem) t).occupancy.toNat =
    (BoundedQueue.run (2 ^ w) pins t).length
  rdData : ∀ t, (((circuit w α).stream pins).run (reset mem) t).rdData =
    (BoundedQueue.run (2 ^ w) pins t).headD 0

theorem bounded_queue (mem : BitVec w → α) (pins : ℕ → QueuePins α) : Queues mem pins := by
  have hrun := simulates.run (s := reset mem) holds_nil pins
  exact
    { refines := simulates.refines holds_nil pins
      full := fun t ↦ (hrun t).full_iff
      empty := fun t ↦ (hrun t).empty_iff
      occupancy := fun t ↦ (hrun t).toNat_occupancy
      rdData := fun t ↦ (hrun t).rdData_headD }

end Fifo

end LgNpu
