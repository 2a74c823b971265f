import LgNpu.Pkg
import Mathlib.Logic.Function.Basic
import Mathlib.Data.List.Basic
import Mathlib.Data.Nat.ModEq
import Mathlib.Order.Basic

/-!
# The command queue

`fifo` keeps a circular buffer and two pointers with one extra bit; `Holds`
relates it to the list of its entries, oldest first, and `Holds.step` says that
a clock edge pops the head and appends the entry pushed.
-/

namespace LgNpu

/-- `fifo` with `2 ^ w` entries. -/
structure Fifo (w : ℕ) (α : Type) where
  mem : BitVec w → α
  wrPtr : BitVec (w + 1)
  rdPtr : BitVec (w + 1)

namespace Fifo

variable {w : ℕ} {α : Type} (s : Fifo w α)

def full : Bool := s.wrPtr.msb != s.rdPtr.msb && s.wrPtr.setWidth w == s.rdPtr.setWidth w

def empty : Bool := s.wrPtr == s.rdPtr

def wrReady : Bool := !s.full

def rdValid : Bool := !s.empty

def rdData [Zero α] : α := if s.empty then 0 else s.mem (s.rdPtr.setWidth w)

def step (wrData : α) (wrValid rdReady : Bool) : Fifo w α where
  mem :=
    if wrValid && s.wrReady then Function.update s.mem (s.wrPtr.setWidth w) wrData else s.mem
  wrPtr := if wrValid && s.wrReady then s.wrPtr + 1 else s.wrPtr
  rdPtr := if s.rdValid && rdReady then s.rdPtr + 1 else s.rdPtr

/-- The entries are `xs`, oldest first. -/
structure Holds (s : Fifo w α) (xs : List α) : Prop where
  length_le : xs.length ≤ 2 ^ w
  wrPtr : s.wrPtr = s.rdPtr + .ofNat (w + 1) xs.length
  mem : ∀ i (h : i < xs.length), s.mem ((s.rdPtr + .ofNat (w + 1) i).setWidth w) = xs[i]

theorem toNat_ptr (p : BitVec (w + 1)) {i : ℕ} (hi : i ≤ 2 ^ w) :
    (p + .ofNat (w + 1) i).toNat = (p.toNat + i) % 2 ^ (w + 1) := by
  have hpow := Nat.pow_lt_pow_right (a := 2) (by omega) (Nat.lt_succ_self w)
  rw [BitVec.toNat_add, BitVec.toNat_ofNat, Nat.mod_eq_of_lt (hi.trans_lt hpow)]

theorem toNat_slot (p : BitVec (w + 1)) {i : ℕ} (hi : i ≤ 2 ^ w) :
    ((p + .ofNat (w + 1) i).setWidth w).toNat = (p.toNat + i) % 2 ^ w := by
  rw [BitVec.toNat_setWidth, toNat_ptr p hi,
    Nat.mod_mod_of_dvd _ (Nat.pow_dvd_pow 2 (Nat.le_succ w))]

/-- Slots less than a full turn apart are different. -/
theorem slot_inj (p : BitVec (w + 1)) {i j : ℕ} (hi : i < 2 ^ w) (hj : j < 2 ^ w)
    (h : (p + .ofNat (w + 1) i).setWidth w = (p + .ofNat (w + 1) j).setWidth w) : i = j := by
  have hnat := congrArg BitVec.toNat h
  rw [toNat_slot p hi.le, toNat_slot p hj.le] at hnat
  have hmod := (Nat.ModEq.add_left_cancel' p.toNat hnat : i ≡ j [MOD 2 ^ w])
  rwa [Nat.ModEq, Nat.mod_eq_of_lt hi, Nat.mod_eq_of_lt hj] at hmod

variable {s} {xs : List α}

theorem Holds.empty_iff (h : s.Holds xs) : s.empty = true ↔ xs = [] := by
  have hpow := Nat.pow_lt_pow_right (a := 2) (by omega) (Nat.lt_succ_self w)
  have hlen := h.length_le
  rw [empty, beq_iff_eq, h.wrPtr, ← List.length_eq_zero_iff]
  refine ⟨fun heq ↦ ?_, fun h0 ↦ by simp [h0]⟩
  have hzero : BitVec.ofNat (w + 1) xs.length = 0 := by
    rw [BitVec.add_comm] at heq
    have hsub := congrArg (· - s.rdPtr) heq
    rwa [BitVec.add_sub_cancel, BitVec.sub_self] at hsub
  have hnat := congrArg BitVec.toNat hzero
  rw [BitVec.toNat_ofNat, Nat.mod_eq_of_lt (by omega)] at hnat
  exact hnat

theorem Holds.full_iff (h : s.Holds xs) : s.full = true ↔ xs.length = 2 ^ w := by
  have hlen := h.length_le
  have hpow : 2 ^ (w + 1) = 2 * 2 ^ w := by rw [Nat.pow_succ, Nat.mul_comm]
  have hpos : 0 < 2 ^ w := Nat.pow_pos (by omega)
  have hrd := s.rdPtr.isLt
  -- Both pointers as numbers below two turns.
  have hwr := toNat_ptr s.rdPtr hlen
  have hlow : ∀ {p : BitVec (w + 1)}, (p.setWidth w).toNat =
      if p.toNat < 2 ^ w then p.toNat else p.toNat - 2 ^ w := by
    intro p
    have hp := p.isLt
    rw [BitVec.toNat_setWidth]
    split
    · next hlt => exact Nat.mod_eq_of_lt hlt
    · next hge =>
        rw [Nat.mod_eq_sub_mod (by omega), Nat.mod_eq_of_lt (by omega)]
  rw [← h.wrPtr] at hwr
  have hwr' : s.wrPtr.toNat = if s.rdPtr.toNat + xs.length < 2 ^ (w + 1) then
      s.rdPtr.toNat + xs.length else s.rdPtr.toNat + xs.length - 2 ^ (w + 1) := by
    rw [hwr]
    split
    · next hlt => exact Nat.mod_eq_of_lt hlt
    · next hge => rw [Nat.mod_eq_sub_mod (by omega), Nat.mod_eq_of_lt (by omega)]
  rw [full, Bool.and_eq_true, bne_iff_ne, beq_iff_eq, BitVec.msb_eq_decide, BitVec.msb_eq_decide,
    ne_eq, decide_eq_decide, ← BitVec.toNat_inj, hlow, hlow, Nat.add_sub_cancel]
  rw [hpow] at hwr' hrd
  generalize 2 ^ w = P at *
  split_ifs at hwr' ⊢ <;> omega

theorem Holds.empty_cons {x : α} (h : s.Holds (x :: xs)) : s.empty = false :=
  Bool.eq_false_iff.mpr fun he ↦ by simp [h.empty_iff] at he

theorem Holds.rdData_eq [Zero α] {x : α} (h : s.Holds (x :: xs)) : s.rdData = x := by
  have hmem := h.mem 0 (by simp)
  rw [rdData, if_neg (by simp [h.empty_cons])]
  simpa using hmem

/-- What is popped, if anything, is the oldest entry. -/
theorem Holds.popped_append [Zero α] (h : s.Holds xs) (rdReady : Bool) :
    (if s.rdValid && rdReady then [s.rdData] else []) ++ (if rdReady then xs.tail else xs) = xs := by
  cases rdReady with
  | false => simp
  | true =>
      cases xs with
      | nil => simp [rdValid, h.empty_iff.mpr rfl]
      | cons y ys => simp [rdValid, h.empty_cons, h.rdData_eq]

theorem Holds.push (h : s.Holds xs) (hroom : xs.length < 2 ^ w) (x : α) :
    Holds { s with
      mem := Function.update s.mem (s.wrPtr.setWidth w) x, wrPtr := s.wrPtr + 1 }
      (xs ++ [x]) := by
  refine ⟨by rw [List.length_append]; exact hroom, ?_, fun i hi ↦ ?_⟩
  · rw [List.length_append, List.length_singleton, BitVec.ofNat_add, h.wrPtr, ← BitVec.add_assoc]
    rfl
  · dsimp only
    rw [h.wrPtr]
    rcases Nat.lt_succ_iff_lt_or_eq.mp (by simpa using hi) with hlt | rfl
    · rw [Function.update_of_ne, h.mem i hlt, List.getElem_append_left]
      exact fun heq ↦ hlt.ne (slot_inj _ (hlt.trans hroom) hroom heq)
    · rw [Function.update_self, List.getElem_concat_length rfl]

theorem Holds.pop {x : α} (h : s.Holds (x :: xs)) :
    Holds { s with rdPtr := s.rdPtr + 1 } xs := by
  have hone : (1 : BitVec (w + 1)) = .ofNat (w + 1) 1 := rfl
  have hlen := h.length_le
  rw [List.length_cons] at hlen
  refine ⟨by omega, ?_, fun i hi ↦ ?_⟩
  · rw [h.wrPtr, List.length_cons, Nat.add_comm xs.length, BitVec.ofNat_add, ← BitVec.add_assoc]
    rfl
  · have hmem := h.mem (i + 1) (by simpa using hi)
    rw [List.getElem_cons_succ] at hmem
    rw [← hmem, Nat.add_comm i 1, BitVec.ofNat_add, ← BitVec.add_assoc]
    rfl

/-- What one edge does to the entries. -/
theorem Holds.step (h : s.Holds xs) (x : α) (wrValid rdReady : Bool) :
    (s.step x wrValid rdReady).Holds
      ((if rdReady then xs.tail else xs) ++ if wrValid && !s.full then [x] else []) := by
  have hroom : s.full = false → xs.length < 2 ^ w := fun hf ↦
    lt_of_le_of_ne h.length_le fun heq ↦ by simp [h.full_iff.mpr heq] at hf
  have hpush : Holds { s with
      mem := (s.step x wrValid rdReady).mem, wrPtr := (s.step x wrValid rdReady).wrPtr }
      (xs ++ if wrValid && !s.full then [x] else []) := by
    cases hw : wrValid && !s.full with
    | false => simpa [Fifo.step, wrReady, hw] using h
    | true =>
        have hfull : s.full = false := by
          simpa using (Bool.and_eq_true_iff.mp hw).2
        simpa [Fifo.step, wrReady, hw] using h.push (hroom hfull) x
  cases rdReady with
  | false =>
      have hrd : (s.step x wrValid false).rdPtr = s.rdPtr := by simp [Fifo.step]
      rw [← hrd] at hpush
      exact hpush
  | true =>
      cases xs with
      | nil =>
          have hrd : (s.step x wrValid true).rdPtr = s.rdPtr := by
            simp [Fifo.step, rdValid, h.empty_iff.mpr rfl]
          rw [← hrd] at hpush
          exact hpush
      | cons y ys =>
          have hrd : (s.step x wrValid true).rdPtr = s.rdPtr + 1 := by
            simp [Fifo.step, rdValid, h.empty_cons]
          have hpop := hpush.pop
          dsimp only at hpop
          rw [← hrd] at hpop
          exact hpop

theorem holds_nil {mem : BitVec w → α} : Holds ⟨mem, 0, 0⟩ [] :=
  ⟨Nat.zero_le _, by simp, fun i h ↦ absurd h (Nat.not_lt_zero i)⟩

end Fifo

instance : Zero ConvCmd := ⟨⟨0, 0, 0, 0, 0, 0, 0, 0, 0, 0, 0, 0, 0, 0, 0, 0, 0, 0, 0⟩⟩

/-- `npu_queue`: `CMD_QUEUE_DEPTH` is four. -/
abbrev NpuQueue := Fifo 2 ConvCmd

def NpuQueue.reset (mem : BitVec 2 → ConvCmd) : NpuQueue := ⟨mem, 0, 0⟩

end LgNpu
