import LgNpu.Lib.LoopNest
import LgNpu.Mac.Job

/-!
# Loop nests of the multiply-accumulate front ends

`conv_ctrl` and `gemm_ctrl` walk different loop nests through the same states.
-/

namespace LgNpu

/-- `state_e` of `conv_ctrl` and `gemm_ctrl`. -/
inductive LoopState
  | idle | loadCfg | compute | drain | done
  deriving DecidableEq

/-- `last` is the end of the whole nest. -/
def LoopState.next (cmdValid iterReady last : Bool) : LoopState → LoopState
  | idle => if cmdValid then loadCfg else idle
  | loadCfg => compute
  | compute => if iterReady && last then drain else compute
  | drain => if iterReady then done else drain
  | done => idle

/-! ## Counters as digits -/

section Digit

variable {x x' : Dim} {q q' b : ℕ} {carry last : Bool}

/-- A counter inside a nest moves with the carry of the counters within it and
starts over after its last value. -/
theorem digit_step (hx : x.toNat = q % b) (hb : 0 < b) (hle : b ≤ 2 ^ 16)
    (hlast : last = true ↔ x.toNat + 1 = b) (hq : q' = q + carry.toNat)
    (hx' : x' = if carry then (if last then 0 else x + 1) else x) :
    x'.toNat = q' % b ∧ q' / b = q / b + (carry && last).toNat := by
  have hlt : q % b < b := Nat.mod_lt q hb
  subst hq hx'
  cases carry with
  | false => exact ⟨hx, rfl⟩
  | true =>
      cases last with
      | false =>
          have hne : x.toNat + 1 ≠ b := fun h ↦ Bool.false_ne_true (hlast.mpr h)
          have hin : q % b + 1 < b := by omega
          refine ⟨?_, LoopNest.succ_div_of_lt hin⟩
          calc (x + 1).toNat = x.toNat + 1 := toNat_add_one (by omega)
            _ = q % b + 1 := by rw [hx]
            _ = (q + 1) % b := (LoopNest.succ_mod_of_lt hin).symm
      | true =>
          have hend : q % b + 1 = b := hx ▸ hlast.mp rfl
          exact ⟨(LoopNest.succ_mod_of_eq hend).symm, LoopNest.succ_div_of_eq hend⟩

/-- The outermost counter stops at its last value. -/
theorem outermost_step (hx : x.toNat = q) (hb : b ≤ 2 ^ 16) (hlt : q + carry.toNat < b)
    (hx' : x' = if carry && decide (x.toNat + 1 < b) then x + 1 else x) :
    x'.toNat = q + carry.toNat := by
  subst hx'
  cases carry with
  | false => exact hx
  | true =>
      have hin : q + 1 < b := hlt
      rw [if_pos (by simpa [hx] using hin), toNat_add_one (by omega), hx]
      rfl

end Digit

theorem dim_eq_zero {d : Dim} (h : ¬0 < d.toNat) : d = 0 :=
  BitVec.eq_of_toNat_eq (Nat.eq_zero_of_not_pos h)

/-- The end of a nest is the end of its innermost loop and of the rest. -/
theorem succ_mod_mul_eq_zero_iff {i b c : ℕ} (hc : 0 < c) :
    (i + 1) % (b * c) = 0 ↔ i % c + 1 = c ∧ (i / c + 1) % b = 0 := by
  rw [Nat.mul_comm b c, Nat.mod_mul, Nat.add_eq_zero_iff, Nat.mul_eq_zero,
    LoopNest.succ_mod_eq_zero_iff hc]
  apply and_congr_right
  intro hend
  rw [LoopNest.succ_div_of_eq hend, or_iff_right hc.ne']

theorem mod_mul_eq_zero_iff {i b c : ℕ} (hc : 0 < c) :
    i % (b * c) = 0 ↔ i % c = 0 ∧ i / c % b = 0 := by
  rw [Nat.mul_comm b c, Nat.mod_mul, Nat.add_eq_zero_iff, Nat.mul_eq_zero, or_iff_right hc.ne']

end LgNpu
