import LgNpu.System
import LgNpu.Lib.LoopNest
import LgNpu.Lib.Signed
import Mathlib.Algebra.Order.BigOperators.Group.List
import Mathlib.Algebra.Order.Group.Abs
import Mathlib.Algebra.Order.Ring.Int
import Mathlib.Data.Finset.Card
import Mathlib.Data.List.Nodup

/-!
# What a pooling command computes

The reference result of `pool_cmd_t` over the integers: the in-bounds window
elements of each output position and channel, their maximum or their truncated
average, and the ordered list of output writes.
-/

namespace LgNpu

namespace PoolCmd

variable (cmd : PoolCmd) (m : BitVec 13 → Byte)

/-! ## Windows -/

/-- Input row of window row `r`; padding rows are negative or too large. -/
def ih (oh r : ℕ) : ℤ := oh * cmd.strideH.toNat + r - cmd.padH.toNat

def iw (ow s : ℕ) : ℤ := ow * cmd.strideW.toNat + s - cmd.padW.toNat

def InMap (i j : ℤ) : Prop := (0 ≤ i ∧ i < cmd.inH.toNat) ∧ 0 ≤ j ∧ j < cmd.inW.toNat

instance (i j : ℤ) : Decidable (cmd.InMap i j) := inferInstanceAs (Decidable (_ ∧ _))

def inIdx (i j : ℤ) (c : ℕ) : ℕ :=
  cmd.inAddr.toNat + (i.toNat * cmd.inW.toNat + j.toNat) * cmd.inC.toNat + c

def elem (oh ow c r s : ℕ) : Option ℤ :=
  if cmd.InMap (cmd.ih oh r) (cmd.iw ow s) then
    some (int8At m (cmd.inIdx (cmd.ih oh r) (cmd.iw ow s) c))
  else none

/-- The in-bounds elements of a window, in reading order. -/
def window (oh ow c : ℕ) : List ℤ :=
  (List.range cmd.poolR.toNat).flatMap fun r ↦
    (List.range cmd.poolS.toNat).filterMap fun s ↦ cmd.elem m oh ow c r s

/-- The maximum of the window, `-128` when all of it is padding. -/
def maxOf (l : List ℤ) : ℤ := l.foldl max (-128)

/-- The sum divided by the window area, truncated toward zero. -/
def avgOf (area : ℕ) (l : List ℤ) : ℤ := Signed.sat8 (l.sum.tdiv area)

/-! ## Output -/

def outIdx (oh ow c : ℕ) : ℕ :=
  cmd.outAddr.toNat + (oh * cmd.outW.toNat + ow) * cmd.inC.toNat + c

/-- The output writes of a command that stores `val` of each window. -/
def writesOf (val : List ℤ → ℤ) : Writes :=
  (List.range cmd.outH.toNat).flatMap fun oh ↦
    (List.range cmd.outW.toNat).flatMap fun ow ↦
      (List.range cmd.inC.toNat).map fun c ↦
        (.ofNat 16 (cmd.outIdx oh ow c), .ofInt 8 (val (cmd.window m oh ow c)))

/-- A command the buffers can hold: positive sizes, every window inside the
padded input, and disjoint regions inside the activation buffer. -/
structure Valid : Prop where
  inH_pos : 0 < cmd.inH.toNat
  inW_pos : 0 < cmd.inW.toNat
  inC_pos : 0 < cmd.inC.toNat
  poolR_pos : 0 < cmd.poolR.toNat
  poolS_pos : 0 < cmd.poolS.toNat
  strideH_pos : 0 < cmd.strideH.toNat
  strideW_pos : 0 < cmd.strideW.toNat
  outH_pos : 0 < cmd.outH.toNat
  outW_pos : 0 < cmd.outW.toNat
  fitH : (cmd.outH.toNat - 1) * cmd.strideH.toNat + cmd.poolR.toNat ≤
    cmd.inH.toNat + 2 * cmd.padH.toNat
  fitW : (cmd.outW.toNat - 1) * cmd.strideW.toNat + cmd.poolS.toNat ≤
    cmd.inW.toNat + 2 * cmd.padW.toNat
  inRange : cmd.inAddr.toNat + cmd.inH.toNat * cmd.inW.toNat * cmd.inC.toNat ≤ 8192
  outRange : cmd.outAddr.toNat + cmd.outH.toNat * cmd.outW.toNat * cmd.inC.toNat ≤ 8192
  disjoint :
    cmd.inAddr.toNat + cmd.inH.toNat * cmd.inW.toNat * cmd.inC.toNat ≤ cmd.outAddr.toNat ∨
    cmd.outAddr.toNat + cmd.outH.toNat * cmd.outW.toNat * cmd.inC.toNat ≤ cmd.inAddr.toNat

/-- The sides of the two loop nests are not zero. -/
structure Looping : Prop where
  outH_pos : 0 < cmd.outH.toNat
  outW_pos : 0 < cmd.outW.toNat
  inC_pos : 0 < cmd.inC.toNat
  poolR_pos : 0 < cmd.poolR.toNat
  poolS_pos : 0 < cmd.poolS.toNat

variable {cmd} in
theorem Valid.looping (h : cmd.Valid) : cmd.Looping :=
  ⟨h.outH_pos, h.outW_pos, h.inC_pos, h.poolR_pos, h.poolS_pos⟩

/-! ## The joint index

Output element `e` and window position `p` number the nests `(oh, ow, c)` and
`(r, s)`. -/

def numOut : ℕ := cmd.outH.toNat * cmd.outW.toNat * cmd.inC.toNat

def area : ℕ := cmd.poolR.toNat * cmd.poolS.toNat

def ihAt (e p : ℕ) : ℤ := cmd.ih (e / cmd.inC.toNat / cmd.outW.toNat) (p / cmd.poolS.toNat)

def iwAt (e p : ℕ) : ℤ := cmd.iw (e / cmd.inC.toNat % cmd.outW.toNat) (p % cmd.poolS.toNat)

def idxAt (e p : ℕ) : ℕ := cmd.inIdx (cmd.ihAt e p) (cmd.iwAt e p) (e % cmd.inC.toNat)

def elemAt (e p : ℕ) : Option ℤ :=
  if cmd.InMap (cmd.ihAt e p) (cmd.iwAt e p) then some (int8At m (cmd.idxAt e p)) else none

/-- The in-bounds elements among the first `p` positions of a window. -/
def seen (e p : ℕ) : List ℤ := (List.range p).filterMap (cmd.elemAt m e)

theorem seen_succ (e p : ℕ) :
    cmd.seen m e (p + 1) = cmd.seen m e p ++ (cmd.elemAt m e p).toList := by
  rw [seen, List.range_succ, List.filterMap_append, seen]
  cases h : cmd.elemAt m e p <;> simp [h]

theorem window_eq_seen (e : ℕ) :
    cmd.window m (e / cmd.inC.toNat / cmd.outW.toNat) (e / cmd.inC.toNat % cmd.outW.toNat)
      (e % cmd.inC.toNat) = cmd.seen m e cmd.area := by
  simp only [window, seen, area, List.filterMap_eq_flatMap_toList]
  exact (LoopNest.flatMap_range_mul (fun r s ↦ (cmd.elem m _ _ _ r s).toList) _ _).symm

theorem forall_window_iff (P : List ℤ → Prop) :
    (∀ oh < cmd.outH.toNat, ∀ ow < cmd.outW.toNat, ∀ c < cmd.inC.toNat,
      P (cmd.window m oh ow c)) ↔ ∀ e < cmd.numOut, P (cmd.seen m e cmd.area) := by
  constructor
  · intro h e he
    have hq := LoopNest.div_lt_of_lt_mul he
    rw [← window_eq_seen]
    exact h _ (LoopNest.div_lt_of_lt_mul hq) _ (Nat.mod_lt _ (LoopNest.pos_of_lt_mul hq)) _
      (Nat.mod_lt _ (LoopNest.pos_of_lt_mul he))
  · intro h oh hoh ow how c hc
    have he := h _ (LoopNest.join_lt (LoopNest.join_lt hoh how) hc)
    rwa [← window_eq_seen, LoopNest.join_div hc, LoopNest.join_mod hc, LoopNest.join_div how,
      LoopNest.join_mod how] at he

/-- The writes in the order of the joint index. -/
def flatWrites (val : List ℤ → ℤ) : Writes :=
  (List.range cmd.numOut).map fun e ↦
    (.ofNat 16 (cmd.outAddr.toNat + e), .ofInt 8 (val (cmd.seen m e cmd.area)))

theorem writesOf_eq (val : List ℤ → ℤ) : cmd.writesOf m val = cmd.flatWrites m val := by
  have hidx : ∀ e, cmd.outIdx (e / cmd.inC.toNat / cmd.outW.toNat)
      (e / cmd.inC.toNat % cmd.outW.toNat) (e % cmd.inC.toNat) = cmd.outAddr.toNat + e := by
    intro e
    rw [outIdx, LoopNest.div_mul_add_mod, Nat.add_assoc, LoopNest.div_mul_add_mod]
  have hflat := LoopNest.map_range_mul (fun q c ↦ ((BitVec.ofNat 16
      (cmd.outIdx (q / cmd.outW.toNat) (q % cmd.outW.toNat) c), BitVec.ofInt 8
      (val (cmd.window m (q / cmd.outW.toNat) (q % cmd.outW.toNat) c))) : Addr × Byte))
      (cmd.outH.toNat * cmd.outW.toNat) cmd.inC.toNat
  simp only [hidx, window_eq_seen] at hflat
  rw [writesOf, flatWrites, numOut, hflat]
  exact (LoopNest.flatMap_range_mul (fun oh ow ↦ (List.range cmd.inC.toNat).map fun c ↦ _) _ _).symm

/-! ## Ranges -/

section Ranges

variable {cmd}

theorem numOut_pos (hv : cmd.Looping) : 0 < cmd.numOut :=
  Nat.mul_pos (Nat.mul_pos hv.outH_pos hv.outW_pos) hv.inC_pos

theorem area_pos (hv : cmd.Looping) : 0 < cmd.area := Nat.mul_pos hv.poolR_pos hv.poolS_pos

theorem inIdx_lt {i j : ℤ} {c : ℕ} (h : cmd.InMap i j) (hc : c < cmd.inC.toNat) :
    cmd.inIdx i j c < cmd.inAddr.toNat + cmd.inH.toNat * cmd.inW.toNat * cmd.inC.toNat := by
  obtain ⟨⟨hi0, hi⟩, hj0, hj⟩ := h
  have hpix : i.toNat * cmd.inW.toNat + j.toNat < cmd.inH.toNat * cmd.inW.toNat :=
    LoopNest.join_lt (by omega) (by omega)
  have := LoopNest.join_lt hpix hc
  rw [inIdx]
  omega

/-- Distinct in-bounds positions of a window are distinct input pixels. -/
theorem length_seen_le (e p : ℕ) :
    (cmd.seen m e p).length ≤ cmd.inH.toNat * cmd.inW.toNat := by
  have hlen : (cmd.seen m e p).length =
      ((Finset.range p).filter fun q ↦ cmd.InMap (cmd.ihAt e q) (cmd.iwAt e q)).card := by
    induction p with
    | zero => rfl
    | succ p ih =>
        rw [seen_succ, List.length_append, ih, Finset.range_add_one, Finset.filter_insert, elemAt]
        split
        · rw [Finset.card_insert_of_notMem (by simp)]
          rfl
        · rfl
  rw [hlen, ← Finset.card_range (cmd.inH.toNat * cmd.inW.toNat)]
  refine Finset.card_le_card_of_injOn
    (fun q ↦ (cmd.ihAt e q).toNat * cmd.inW.toNat + (cmd.iwAt e q).toNat) ?_ ?_
  · intro q hq
    obtain ⟨-, ⟨hi0, hi⟩, hj0, hj⟩ := Finset.mem_filter.mp hq
    simp only [Finset.coe_range, Set.mem_Iio]
    exact LoopNest.join_lt (by omega) (by omega)
  · intro q hq q' hq' heq
    obtain ⟨-, ⟨hi0, hi⟩, hj0, hj⟩ := Finset.mem_filter.mp hq
    obtain ⟨-, ⟨hi0', hi'⟩, hj0', hj'⟩ := Finset.mem_filter.mp hq'
    obtain ⟨hrow, hcol⟩ := LoopNest.join_inj (c := cmd.inW.toNat) (by omega) (by omega) heq
    simp only [ihAt, iwAt, ih, iw] at *
    rw [← LoopNest.div_mul_add_mod q cmd.poolS.toNat, ← LoopNest.div_mul_add_mod q' cmd.poolS.toNat,
      show q / cmd.poolS.toNat = q' / cmd.poolS.toNat by omega,
      show q % cmd.poolS.toNat = q' % cmd.poolS.toNat by omega]

theorem mem_seen_bounds {e p : ℕ} {v : ℤ} (h : v ∈ cmd.seen m e p) : -128 ≤ v ∧ v ≤ 127 := by
  obtain ⟨q, -, hq⟩ := List.mem_filterMap.mp h
  rw [elemAt] at hq
  split at hq
  · obtain rfl := Option.some.inj hq
    exact int8At_bounds m _
  · exact absurd hq (by simp)

/-- A valid command's window sums stay far below 32 bits. -/
theorem abs_sum_seen_le (hv : cmd.Valid) (e p : ℕ) :
    |(cmd.seen m e p).sum| ≤ 128 * 8192 := by
  have hsum : ∀ l : List ℤ, (∀ v ∈ l, -128 ≤ v ∧ v ≤ 127) → |l.sum| ≤ 128 * l.length := by
    intro l
    induction l with
    | nil => simp
    | cons v l ih =>
        intro hl
        have hv := hl v List.mem_cons_self
        have hl' := ih fun w hw ↦ hl w (List.mem_cons_of_mem v hw)
        rw [abs_le] at hl' ⊢
        simp only [List.sum_cons, List.length_cons, Nat.cast_add, Nat.cast_one]
        omega
  have hlen : (cmd.seen m e p).length ≤ 8192 := by
    have h1 : (cmd.seen m e p).length ≤ cmd.inH.toNat * cmd.inW.toNat := length_seen_le m e p
    have h2 := Nat.le_mul_of_pos_right (cmd.inH.toNat * cmd.inW.toNat) hv.inC_pos
    have h3 := hv.inRange
    omega
  exact (hsum _ fun v hv ↦ mem_seen_bounds m hv).trans (by omega)

theorem maxOf_bounds {l : List ℤ} (h : ∀ v ∈ l, -128 ≤ v ∧ v ≤ 127) :
    -128 ≤ maxOf l ∧ maxOf l ≤ 127 := by
  suffices ∀ a : ℤ, -128 ≤ a → a ≤ 127 → -128 ≤ l.foldl max a ∧ l.foldl max a ≤ 127 from
    this (-128) (by omega) (by omega)
  induction l with
  | nil => exact fun a h1 h2 ↦ ⟨h1, h2⟩
  | cons v l ih =>
      intro a h1 h2
      have hv := h v List.mem_cons_self
      exact ih (fun w hw ↦ h w (List.mem_cons_of_mem v hw)) (max a v) (by omega) (by omega)

end Ranges

end PoolCmd

end LgNpu
