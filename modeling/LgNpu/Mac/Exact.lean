import LgNpu.Mac.Done
import LgNpu.Lib.LoopNest
import LgNpu.Lib.Signed
import Mathlib.Algebra.Order.BigOperators.Group.Finset
import Mathlib.Algebra.Order.Ring.Abs
import Mathlib.Algebra.Order.Ring.Int

/-!
# Jobs over the integers

An element has too few products for its sum to leave 32 bits, so the bytes a
job writes are those of exact arithmetic.  On the buffers, which grant every
request at once, a job whose operands are not among its outputs writes them all
in order.
-/

namespace LgNpu

/-! ## The units over the integers -/

/-- The activation function on an exact sum. -/
def activateInt (mode : ActMode) (v : ℤ) : ℤ :=
  if mode = ActMode.actNone then v
  else if mode = ActMode.actLeakyRelu then (if v < 0 then v >>> leakyShift else v)
  else max 0 v

theorem toInt_activate (mode : ActMode) (x : Acc) :
    (activate mode x).toInt = activateInt mode x.toInt := by
  have hneg : x.slt 0 = decide (x.toInt < 0) := BitVec.slt_eq_decide
  rw [activate, activateInt, hneg]
  simp only [decide_eq_true_eq]
  split
  · rfl
  split
  · split
    · rw [BitVec.toInt_sshiftRight]
    · rfl
  · split
    · rw [max_eq_left (by omega)]
      rfl
    · rw [max_eq_right (by omega)]

theorem quantize_eq (shift : BitVec 5) (x : Acc) :
    quantize shift x = .ofInt 8 (Signed.sat8 (x.toInt >>> shift.toNat)) := by
  rw [quantize, Signed.clamp8_eq, BitVec.toInt_sshiftRight]

theorem abs_toInt_mul_le (a b : Byte) : |a.toInt * b.toInt| ≤ 2 ^ 14 := by
  have ha := BitVec.le_toInt a
  have hb := BitVec.le_toInt b
  have ha' := BitVec.toInt_lt (x := a)
  have hb' := BitVec.toInt_lt (x := b)
  rw [abs_mul]
  calc |a.toInt| * |b.toInt| ≤ 128 * 128 :=
        mul_le_mul (abs_le.mpr ⟨by omega, by omega⟩) (abs_le.mpr ⟨by omega, by omega⟩)
          (abs_nonneg _) (by norm_num)
    _ = 2 ^ 14 := by norm_num

theorem toInt_macProduct (a b : Byte) : (macProduct a b).toInt = a.toInt * b.toInt := by
  obtain ⟨hlo, hhi⟩ := abs_le.mp (abs_toInt_mul_le a b)
  rw [macProduct, BitVec.toInt_signExtend_of_le (by omega), BitVec.toInt_mul,
    BitVec.toInt_signExtend_of_le (by omega), BitVec.toInt_signExtend_of_le (by omega)]
  exact Signed.bmod_two_pow (w := 15) (by omega) (by omega)

/-! ## The value of an element -/

namespace MacJob

variable (c : MacJob) (rd : ℕ → Byte) (w : BitVec 12 → Byte)

/-- The first `n` products of element `e`. -/
def dot (e n : ℕ) : ℤ :=
  ∑ j ∈ Finset.range n, (c.actVal rd (e * c.its + j)).toInt * (c.wtVal w (e * c.its + j)).toInt

def exactOut (e : ℕ) : ℤ :=
  Signed.sat8 (activateInt c.actMode (c.dot rd w e c.its + (c.biasVal w e).toInt) >>>
    c.quantShift.toNat)

variable {c rd w}

theorem abs_dot_le (e n : ℕ) : |c.dot rd w e n| ≤ n * 2 ^ 14 := by
  calc |c.dot rd w e n| ≤ ∑ j ∈ Finset.range n,
          |(c.actVal rd (e * c.its + j)).toInt * (c.wtVal w (e * c.its + j)).toInt| :=
        Finset.abs_sum_le_sum_abs _ _
    _ ≤ ∑ _j ∈ Finset.range n, (2 : ℤ) ^ 14 :=
        Finset.sum_le_sum fun _ _ ↦ abs_toInt_mul_le _ _
    _ = n * 2 ^ 14 := by rw [Finset.sum_const, Finset.card_range, nsmul_eq_mul]

/-- Up to `2 ^ 16` products a sum stays far inside 32 bits. -/
theorem dot_bounds {n : ℕ} (hn : n ≤ 2 ^ 16) (e : ℕ) :
    -2 ^ 30 ≤ c.dot rd w e n ∧ c.dot rd w e n ≤ 2 ^ 30 := by
  have hcast : (n : ℤ) ≤ 2 ^ 16 := by exact_mod_cast hn
  have habs := @abs_dot_le c rd w e n
  refine abs_le.mp (habs.trans ?_)
  calc (n : ℤ) * 2 ^ 14 ≤ 2 ^ 16 * 2 ^ 14 := mul_le_mul_of_nonneg_right hcast (by norm_num)
    _ = 2 ^ 30 := by norm_num

/-- The accumulator is cleared before the first product of an element and
never wraps. -/
theorem toInt_partialSum (hits : c.its ≤ 2 ^ 16) (e : ℕ) {n : ℕ} (hpos : 1 ≤ n) (hn : n ≤ c.its) :
    (c.partialSum rd w (e * c.its + n)).toInt = c.dot rd w e n := by
  induction n, hpos using Nat.le_induction with
  | base =>
      have hclr : c.clrAt (e * c.its) = true := decide_eq_true (Nat.mul_mod_left _ _)
      have hone : c.partialSum rd w (e * c.its + 1) =
          macProduct (c.actVal rd (e * c.its)) (c.wtVal w (e * c.its)) := by
        rw [partialSum, hclr, if_pos rfl]
        exact BitVec.zero_add _
      rw [hone, toInt_macProduct, dot, Finset.sum_range_one]
      rfl
  | succ n hpos ih =>
      have hclr : c.clrAt (e * c.its + n) = false := by
        refine decide_eq_false ?_
        rw [LoopNest.join_mod (by omega)]
        omega
      have hsum : c.dot rd w e (n + 1) = c.dot rd w e n +
          (c.actVal rd (e * c.its + n)).toInt * (c.wtVal w (e * c.its + n)).toInt :=
        Finset.sum_range_succ _ _
      have hstep : c.partialSum rd w (e * c.its + (n + 1)) = c.partialSum rd w (e * c.its + n) +
          macProduct (c.actVal rd (e * c.its + n)) (c.wtVal w (e * c.its + n)) := by
        rw [← Nat.add_assoc, partialSum, hclr, if_neg Bool.false_ne_true]
      obtain ⟨hlo, hhi⟩ := @dot_bounds c rd w _ (hn.trans hits) e
      rw [hsum] at hlo hhi ⊢
      rw [hstep, Signed.toInt_add] <;> rw [ih (by omega), toInt_macProduct] <;> omega

theorem toInt_biased (hits : c.its ≤ 2 ^ 16) (hpos : 0 < c.its) (e : ℕ) :
    (c.biased rd w e).toInt = c.dot rd w e c.its + (c.biasVal w e).toInt := by
  obtain ⟨hlo, hhi⟩ := @dot_bounds c rd w _ hits e
  have hlo' := BitVec.le_toInt (c.biasVal w e)
  have hhi' := BitVec.toInt_lt (x := c.biasVal w e)
  have hsum : (c.partialSum rd w ((e + 1) * c.its)).toInt = c.dot rd w e c.its := by
    rw [Nat.succ_mul]
    exact toInt_partialSum hits e hpos le_rfl
  have hbias : ((c.biasVal w e).signExtend 32).toInt = (c.biasVal w e).toInt :=
    BitVec.toInt_signExtend_of_le (by omega)
  rw [biased, biasAdd, Signed.toInt_add] <;> rw [hsum, hbias] <;> omega

/-- The byte of an element is the one of exact arithmetic. -/
theorem outVal_eq (hits : c.its ≤ 2 ^ 16) (hpos : 0 < c.its) (e : ℕ) :
    c.outVal rd w e = .ofInt 8 (c.exactOut rd w e) := by
  rw [outVal, activated, quantize_eq, toInt_activate, toInt_biased hits hpos, exactOut]

end MacJob

/-! ## Emitting a list of writes -/

/-- The command writes exactly `W`, in that order, whenever it is done. -/
structure Backend.Emits {S Cmd : Type} (b : Backend S Cmd) (cmd : Cmd) (gs : ℕ → Grants)
    (x : Sys S) (W : Writes) : Prop where
  sound : ∀ t, (b.run cmd gs x t).log <+: W
  eventually : ∃ T, ∀ t, T ≤ t → (b.run cmd gs x t).log = W

namespace Backend

variable {S Cmd : Type} {b : Backend S Cmd} {cmd : Cmd} {gs : ℕ → Grants} {x : Sys S} {W : Writes}

/-- It is enough that the log never leaves `W` and is once complete. -/
theorem Emits.of_complete (hsound : ∀ t, (b.run cmd gs x t).log <+: W) {T : ℕ}
    (hT : (b.run cmd gs x T).log.length = W.length) : b.Emits cmd gs x W := by
  refine ⟨hsound, T, fun t ht ↦ (hsound t).eq_of_length_le ?_⟩
  rw [← hT]
  exact (log_isPrefix b cmd gs x ht).length_le

/-- Bytes outside the written addresses never change. -/
theorem Emits.frame (h : b.Emits cmd gs x W) (hlog : x.log = []) {a : BitVec 13}
    (ha : ∀ w ∈ W, w.1.setWidth 13 ≠ a) (t : ℕ) : (b.run cmd gs x t).mem.act a = x.mem.act a := by
  rw [act_eq_store b cmd gs hlog]
  exact store_of_notMem fun w hw ↦ ha w ((h.sound t).subset hw)

end Backend

section

variable {F Cmd : Type} {fe : MacFront F Cmd} {cmd : Cmd} {c : MacJob} {lat : ℕ}
  {Rest : F → Prop} {At : Feed → F → Prop} {x : Sys (Mac F)}

theorem MacJob.emits (hF : Feeds fe cmd c lat Rest At) (hpos : c.Positive) (hk : c.Keeps lat)
    (hq : Mac.Quiet Rest x) (hlog : x.log = []) (hdis : c.Disjoint) :
    (macBackend fe).Emits cmd (fun _ ↦ .all) x (c.writes (c.readsOf x.mem.act) x.mem.wt) := by
  have hinv : ∀ t, (((macBackend fe).run cmd (fun _ ↦ .all) x t).log <+:
      c.writes (c.readsOf x.mem.act) x.mem.wt) := by
    intro t
    obtain ⟨u, hu⟩ : ∃ u, t ≤ lat + 1 + u + 1 := ⟨t, by omega⟩
    refine (log_isPrefix (macBackend fe) cmd _ x hu).trans ?_
    rw [run_eq_track c lat]
    exact (track_timed hF hpos hq hlog hk (D := True) (fun _ ↦ hdis) u).1.log_isPrefix trivial
  refine Backend.Emits.of_complete hinv (T := lat + 1 + (c.lastTime + 6) + 1) ?_
  rw [run_eq_track c lat, (length_eq_iff hF hpos hk hq hlog _).mpr le_rfl]
  exact (c.length_writesUpTo _ _ c.outs).symm

end

end LgNpu
