import LgNpu.Vec.Correct
import LgNpu.Lib.Signed
import Mathlib.Algebra.Order.Ring.Abs
import Mathlib.Algebra.Order.Ring.Int

/-!
# Vector commands over the integers

On the buffers, which grant every request at once, a vector command in range
writes the saturated sums or products of the original contents, each byte once,
and is done once.
-/

namespace LgNpu

namespace VecCmd

variable (cmd : VecCmd)

/-! ## The value of an element -/

/-- The activation function of the command, on an exact product. -/
def actOf (v : ℤ) : ℤ :=
  if cmd.actMode = ActMode.actRelu then max 0 v
  else if cmd.actMode = ActMode.actLeakyRelu then (if v < 0 then v >>> leakyShift else v)
  else v

/-- `sat8 (a + b)`, or `sat8 (act (a * b) >>> quant_shift)`. -/
def valueOf (a b : ℤ) : ℤ :=
  if cmd.vecOp then Signed.sat8 (cmd.actOf (a * b) >>> cmd.quantShift.toNat)
  else Signed.sat8 (a + b)

/-- The comparison chain that clamps the 9-bit sum. -/
theorem addSum_clamp (x : BitVec 9) :
    (if (127 : BitVec 9).slt x then (127 : BitVec 8)
      else if x.slt (-128) then 0x80 else x.setWidth 8) = .ofInt 8 (Signed.sat8 x.toInt) := by
  revert x
  decide +kernel

theorem toInt_mulAcc (s : VecCtrl) : s.mulAcc.toInt = s.aDataR.toInt * s.bDataR.toInt := by
  have ha := BitVec.le_toInt s.aDataR
  have hb := BitVec.le_toInt s.bDataR
  have ha' := BitVec.toInt_lt (x := s.aDataR)
  have hb' := BitVec.toInt_lt (x := s.bDataR)
  have habs : |s.aDataR.toInt * s.bDataR.toInt| ≤ 128 * 128 := by
    rw [abs_mul]
    exact mul_le_mul (abs_le.mpr ⟨by omega, by omega⟩) (abs_le.mpr ⟨by omega, by omega⟩)
      (abs_nonneg _) (by norm_num)
  obtain ⟨hlo, hhi⟩ := abs_le.mp habs
  rw [VecCtrl.mulAcc, BitVec.toInt_mul, BitVec.toInt_signExtend_of_le (by omega),
    BitVec.toInt_signExtend_of_le (by omega)]
  exact Signed.bmod_two_pow (w := 31) (by omega) (by omega)

/-- The byte the controller makes of two operands, over the integers. -/
theorem resultOf_eq (a b : Byte) : cmd.resultOf a b = .ofInt 8 (cmd.valueOf a.toInt b.toInt) := by
  obtain ⟨s, hs⟩ : ∃ s : VecCtrl, s = { VecCtrl.reset with
    vecOpR := cmd.vecOp, qshiftR := cmd.quantShift, actModeR := cmd.actMode, aDataR := a,
    bDataR := b } := ⟨_, rfl⟩
  have ha : s.aDataR = a := by rw [hs]
  have hb : s.bDataR = b := by rw [hs]
  rw [resultOf, ← hs, VecCtrl.result, valueOf]
  cases hop : cmd.vecOp with
  | false =>
      have hsum : s.addSum.toInt = a.toInt + b.toInt := by
        have hlo := BitVec.le_toInt a
        have hlo' := BitVec.le_toInt b
        have hhi := BitVec.toInt_lt (x := a)
        have hhi' := BitVec.toInt_lt (x := b)
        rw [VecCtrl.addSum, ha, hb, Signed.toInt_add] <;>
          rw [BitVec.toInt_signExtend_of_le (by omega),
            BitVec.toInt_signExtend_of_le (by omega)] <;>
          omega
      rw [addSum_clamp, hsum]
      simp [hs, hop]
  | true =>
      have hmul : s.mulAcc.toInt = a.toInt * b.toInt := by rw [toInt_mulAcc, ha, hb]
      have hneg : s.mulAcc.slt 0 = decide (a.toInt * b.toInt < 0) := by
        rw [BitVec.slt_eq_decide, hmul]
        rfl
      have hact : s.mulActivated.toInt = cmd.actOf (a.toInt * b.toInt) := by
        rw [VecCtrl.mulActivated, actOf, hneg, show s.actModeR = cmd.actMode by rw [hs], ← hmul]
        simp only [decide_eq_true_eq]
        split
        · split
          · rw [max_eq_left (by omega)]
            rfl
          · rw [max_eq_right (by omega)]
        · split
          · split
            · rw [BitVec.toInt_sshiftRight]
            · rfl
          · rfl
      have hshift : s.mulShifted.toInt =
          cmd.actOf (a.toInt * b.toInt) >>> cmd.quantShift.toNat := by
        rw [VecCtrl.mulShifted, BitVec.toInt_sshiftRight, hact, hs]
      rw [Signed.clamp8_eq, hshift]
      simp [hs, hop]

/-! ## The table of writes -/

/-- `A` and `C` inside the activation buffer, identical or disjoint, and `B`
inside the weight buffer. -/
structure Valid : Prop where
  length_pos : 0 < cmd.length.toNat
  aRange : cmd.aAddr.toNat + cmd.length.toNat ≤ 8192
  outRange : cmd.outAddr.toNat + cmd.length.toNat ≤ 8192
  bRange : cmd.bAddr.toNat + cmd.length.toNat ≤ 4096
  regions : cmd.aAddr = cmd.outAddr ∨ cmd.aAddr.toNat + cmd.length.toNat ≤ cmd.outAddr.toNat ∨
    cmd.outAddr.toNat + cmd.length.toNat ≤ cmd.aAddr.toNat

variable (m : BitVec 13 → Byte) (w : BitVec 12 → Byte)

/-- Element `i` of the two sources. -/
def aVal (i : ℕ) : ℤ := int8At m (cmd.aAddr.toNat + i)

def bVal (i : ℕ) : ℤ := (w (.ofNat 12 (cmd.bAddr.toNat + i))).toInt

/-- The writes of a command, all from the original contents. -/
def tableWrites : Writes :=
  (List.range cmd.length.toNat).map fun i ↦
    (.ofNat 16 (cmd.outAddr.toNat + i), .ofInt 8 (cmd.valueOf (cmd.aVal m i) (cmd.bVal w i)))

variable {cmd m w}

theorem outAt_eq (i : ℕ) : cmd.outAt i = .ofNat 16 (cmd.outAddr.toNat + i) := by
  rw [outAt, add_ofNat]

theorem map_fst_runWrites (n : ℕ) :
    (cmd.runWrites m w n).map Prod.fst = (List.range n).map cmd.outAt := by
  induction n with
  | zero => rfl
  | succ n ih =>
      rw [runWrites_succ, List.map_append, ih, List.range_succ, List.map_append]
      rfl

/-- An element of `A` is read before anything is written over it. -/
theorem Valid.read_eq (hv : cmd.Valid) {i : ℕ} (hi : i < cmd.length.toNat) :
    (store m (cmd.runWrites m w i) ((cmd.aAt i).setWidth 13)).toInt = cmd.aVal m i := by
  have haddr : (cmd.aAt i).setWidth 13 = .ofNat 13 (cmd.aAddr.toNat + i) := by
    rw [aAt, add_ofNat, setWidth13_ofNat]
  rw [aVal, int8At, haddr, store_of_notMem]
  intro e he hsame
  have hmem := List.mem_map_of_mem (f := Prod.fst) he
  rw [map_fst_runWrites] at hmem
  obtain ⟨k, hk, heq⟩ := List.mem_map.mp hmem
  have hlt := List.mem_range.mp hk
  have hreg := hv.regions.imp_left (congrArg BitVec.toNat)
  have ha := hv.aRange
  have hout := hv.outRange
  rw [← heq, outAt_eq, setWidth13_ofNat] at hsame
  have hnat := congrArg BitVec.toNat hsame
  simp only [BitVec.toNat_ofNat] at hnat
  omega

theorem Valid.runWrites_eq (hv : cmd.Valid) :
    cmd.runWrites m w cmd.length.toNat = cmd.tableWrites m w := by
  rw [runWrites, tableWrites, List.map_eq_flatMap]
  refine WriteLog.program_eq_flatMap _ _ _ _ fun i hi ↦ ?_
  have hb : (w ((cmd.bAt i).setWidth 12)).toInt = cmd.bVal w i := by
    rw [bVal, bAt, add_ofNat, setWidth12_ofNat]
  rw [← runWrites, resultOf_eq, hv.read_eq hi, hb, outAt_eq]

theorem Valid.nodup (hv : cmd.Valid) : ((cmd.tableWrites m w).map Prod.fst).Nodup := by
  rw [tableWrites, List.map_map]
  refine List.Nodup.map_on (fun i hi j hj hij ↦ ?_) List.nodup_range
  have hout := hv.outRange
  have hi' := List.mem_range.mp hi
  have hj' := List.mem_range.mp hj
  have hnat := congrArg BitVec.toNat hij
  simp only [Function.comp_apply, BitVec.toNat_ofNat] at hnat
  omega

end VecCmd

namespace VecCtrl

variable {cmd : VecCmd} {gs : ℕ → Grants} {x : Sys VecCtrl}

/-- Without another command an idle controller stays idle. -/
theorem idle_run {t u : ℕ} (htu : t ≤ u)
    (hidle : (vecBackend.run cmd gs x (t + 1)).be.state = .idle) :
    (vecBackend.run cmd gs x (u + 1)).be.state = .idle := by
  induction u, htu using Nat.le_induction with
  | base => exact hidle
  | succ u _ ih =>
      rw [run_succ_succ, be_step, step_idle ih]
      exact ih

theorem done_unique {t u : ℕ}
    (ht : vecBackend.done (vecBackend.run cmd gs x t).be = true)
    (hu : vecBackend.done (vecBackend.run cmd gs x u).be = true) : t = u := by
  have hnot : ∀ {t u : ℕ}, vecBackend.done (vecBackend.run cmd gs x t).be = true →
      vecBackend.done (vecBackend.run cmd gs x u).be = true → ¬ t < u := by
    intro t u ht hu hlt
    have hst : (vecBackend.run cmd gs x t).be.state = .done := of_decide_eq_true ht
    have hidle : (vecBackend.run cmd gs x (t + 1)).be.state = .idle := by
      rw [run_succ, be_step, step_done hst]
    obtain ⟨v, rfl⟩ : ∃ v, u = v + 1 := ⟨u - 1, by omega⟩
    have hst' : (vecBackend.run cmd gs x (v + 1)).be.state = .done := of_decide_eq_true hu
    exact absurd ((idle_run (by omega) hidle).symm.trans hst') (by simp)
  rcases Nat.lt_trichotomy t u with h | h | h
  exacts [absurd h (hnot ht hu), h, absurd h (hnot hu ht)]

/-- A vector command on the buffers: exactly the writes of the table, each to
its own byte, and then one done pulse. -/
theorem vec_correct (hv : cmd.Valid) (hs : x.be.state = .idle) (hlog : x.log = [])
    (hn : x.mem.biasPendingR = false) :
    (∀ t, (vecBackend.run cmd (fun _ ↦ .all) x t).log <+: cmd.tableWrites x.mem.act x.mem.wt) ∧
      ((cmd.tableWrites x.mem.act x.mem.wt).map Prod.fst).Nodup ∧
      (∀ t a, (∀ i < cmd.length.toNat, a ≠ .ofNat 13 (cmd.outAddr.toNat + i)) →
        (vecBackend.run cmd (fun _ ↦ .all) x t).mem.act a = x.mem.act a) ∧
      (∀ t, (vecBackend.run cmd (fun _ ↦ .all) x t).mem.wt = x.mem.wt) ∧
      ∃ T, (vecBackend.run cmd (fun _ ↦ .all) x T).log = cmd.tableWrites x.mem.act x.mem.wt ∧
        ∀ t, vecBackend.done (vecBackend.run cmd (fun _ ↦ .all) x t).be = true ↔ t = T := by
  have hperf : vecBackend.Performs cmd (fun _ ↦ .all) x (cmd.tableWrites x.mem.act x.mem.wt) := by
    rw [← hv.runWrites_eq]
    exact performs hv.length_pos fairGrants_all (fun _ ↦ rfl) hs hlog hn
  refine ⟨hperf.sound, hv.nodup,
    fun t a ha ↦ hperf.frame vecBackend cmd _ hlog (fun e he hsame ↦ ?_) t,
    fun t ↦ wt_run vecBackend cmd _ x t, ?_⟩
  · obtain ⟨i, hi, rfl⟩ := List.mem_map.mp he
    refine ha i (List.mem_range.mp hi) ?_
    rw [← hsame]
    exact setWidth13_ofNat _
  · obtain ⟨T, hdone, hfull⟩ := hperf.finish
    exact ⟨T, hfull, fun t ↦ ⟨fun ht ↦ done_unique ht hdone, fun h ↦ h ▸ hdone⟩⟩

/-- Four products in place, halved. -/
def squareCmd : VecCmd := ⟨8, 8, 8, 4, true, 1, ActMode.actRelu⟩

theorem vec_correct_square :
    squareCmd.tableWrites (fun a ↦ a.setWidth 8) (fun a ↦ a.setWidth 8) =
        [(8, 32), (9, 40), (10, 50), (11, 60)] ∧
      ∃ T, (vecBackend.run squareCmd (fun _ ↦ .all)
        (.reset .reset (fun a ↦ a.setWidth 8) fun a ↦ a.setWidth 8) T).log =
          squareCmd.tableWrites (fun a ↦ a.setWidth 8) fun a ↦ a.setWidth 8 := by
  refine ⟨by decide, ?_⟩
  obtain ⟨-, -, -, -, T, hT, -⟩ := @vec_correct squareCmd
    (.reset .reset (fun a ↦ a.setWidth 8) fun a ↦ a.setWidth 8) (by constructor <;> decide)
    rfl rfl rfl
  exact ⟨T, hT⟩

end VecCtrl

end LgNpu
