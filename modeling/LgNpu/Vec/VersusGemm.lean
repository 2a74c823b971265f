import LgNpu.Vec.Exact
import LgNpu.Gemm.Correct
import LgNpu.Mac.Stall

/-!
# Products by either unit

`vec_ctrl` has its own activation, shift and clamp.  A vector product and the
diagonal of the outer product of the same operands have the same bytes, except
that the fourth encoding of the activation passes a negative product in one
unit and clears it in the other.
-/

namespace LgNpu

/-- Write number `e` of the command, on the buffers. -/
def Backend.Wrote {S Cmd : Type} (b : Backend S Cmd) (cmd : Cmd) (x : Sys S) (e : ℕ)
    (w : Addr × Byte) : Prop :=
  ∃ t, (b.run cmd (fun _ ↦ .all) x t).log[e]? = some w

section

variable {S Cmd : Type} {b : Backend S Cmd} {cmd : Cmd} {x : Sys S} {W : Writes} {e : ℕ}
  {w : Addr × Byte}

theorem wrote_iff (hsound : ∀ t, (b.run cmd (fun _ ↦ .all) x t).log <+: W)
    (hfull : ∃ T, (b.run cmd (fun _ ↦ .all) x T).log = W) : b.Wrote cmd x e w ↔ W[e]? = some w := by
  constructor
  · rintro ⟨t, ht⟩
    obtain ⟨hlt, hget⟩ := List.getElem?_eq_some_iff.mp ht
    exact List.getElem?_eq_some_iff.mpr
      ⟨hlt.trans_le (hsound t).length_le, ((hsound t).getElem hlt).symm.trans hget⟩
  · intro h
    obtain ⟨T, hT⟩ := hfull
    exact ⟨T, hT ▸ h⟩

end

/-- A product of length `L`, and a GEMM command with `M = N = L`, `K = 1` and
the same shift and activation. -/
structure SameProduct (vec : VecCmd) (gemm : GemmCmd) : Prop where
  op : vec.vecOp = true
  length_pos : 0 < vec.length.toNat
  m : gemm.mDim = vec.length
  n : gemm.nDim = vec.length
  k : gemm.kDim = 1
  quantShift : gemm.quantShift = vec.quantShift
  actMode : gemm.actMode = vec.actMode

structure BothIdle (x : Sys VecCtrl) (y : Sys (Mac GemmFront)) : Prop where
  vec : x.be.state = .idle
  calm : x.mem.biasPendingR = false
  vecLog : x.log = []
  gemm : Mac.Quiet GemmFront.Rest y
  gemmLog : y.log = []

/-- Both commands read the vectors `a` and `b`, and the bias is zero. -/
structure Operands (vec : VecCmd) (gemm : GemmCmd) (x : Sys VecCtrl) (y : Sys (Mac GemmFront))
    (a b : ℕ → Byte) : Prop where
  vecA : ∀ i < vec.length.toNat, store x.mem.act (vec.runWrites x.mem.act x.mem.wt i)
    ((vec.aAt i).setWidth 13) = a i
  vecB : ∀ i < vec.length.toNat, x.mem.wt ((vec.bAt i).setWidth 12) = b i
  gemmA : ∃ rd, ReadsAs gemmFront gemm (fun _ ↦ .all) y rd ∧
    ∀ e < vec.length.toNat * vec.length.toNat, rd e = a (e / vec.length.toNat)
  gemmB : ∀ i < vec.length.toNat, y.mem.wt ((gemm.bAddr + .ofNat 16 i).setWidth 12) = b i
  bias : ∀ i < vec.length.toNat, y.mem.wt ((gemm.biasAddr + .ofNat 16 i).setWidth 12) = 0

/-- Element `i` of the product is `C[i, i]`. -/
def AgreesAt (vec : VecCmd) (gemm : GemmCmd) (x : Sys VecCtrl) (y : Sys (Mac GemmFront))
    (i : ℕ) : Prop :=
  ∃ v, vecBackend.Wrote vec x i (vec.outAt i, v) ∧
    gemmBackend.Wrote gemm y (i * vec.length.toNat + i)
      (gemm.cAddr + .ofNat 16 (i * vec.length.toNat + i), v)

/-! ## One element -/

/-- The activation modes that both units know. -/
theorem VecCmd.actOf_eq_activateInt {cmd : VecCmd} {v : ℤ} (h : cmd.actMode ≠ 3 ∨ 0 ≤ v) :
    cmd.actOf v = activateInt cmd.actMode v := by
  have hcases : cmd.actMode = 0 ∨ cmd.actMode = 1 ∨ cmd.actMode = 2 ∨ cmd.actMode = 3 := by
    generalize cmd.actMode = mode
    revert mode
    decide
  rw [actOf, activateInt]
  rcases hcases with hm | hm | hm | hm
  · simp [hm, ActMode.actRelu, ActMode.actLeakyRelu, ActMode.actNone]
  · simp [hm, ActMode.actRelu, ActMode.actLeakyRelu, ActMode.actNone]
  · simp [hm, ActMode.actRelu, ActMode.actLeakyRelu, ActMode.actNone]
  · have hv : 0 ≤ v := h.resolve_left (not_not_intro hm)
    simp [hm, ActMode.actRelu, ActMode.actLeakyRelu, ActMode.actNone, hv]

theorem VecCmd.actOf_three {cmd : VecCmd} (hm : cmd.actMode = 3) (v : ℤ) : cmd.actOf v = v := by
  simp [actOf, hm, ActMode.actRelu, ActMode.actLeakyRelu]

theorem activateInt_three {v : ℤ} (hv : v < 0) : activateInt 3 v = 0 := by
  simp [activateInt, ActMode.actLeakyRelu, ActMode.actNone, hv.le]

theorem sat8_shift_neg {v : ℤ} (hv : v < 0) (n : ℕ) : Signed.sat8 (v >>> n) < 0 := by
  have hshift : v >>> n < 0 := by
    rw [Int.shiftRight_eq_div_pow]
    exact Int.ediv_neg_of_neg_of_pos hv (by positivity)
  have hsat : Signed.sat8 (v >>> n) = max (-128) (min 127 (v >>> n)) := rfl
  omega

theorem sat8_act_eq_iff {cmd : VecCmd} {v : ℤ} (n : ℕ) :
    Signed.sat8 (cmd.actOf v >>> n) = Signed.sat8 (activateInt cmd.actMode v >>> n) ↔
      cmd.actMode ≠ 3 ∨ 0 ≤ v := by
  refine ⟨fun h ↦ ?_, fun h ↦ by rw [VecCmd.actOf_eq_activateInt h]⟩
  by_contra hne
  obtain ⟨hm, hv⟩ := not_or.mp hne
  have hmode : cmd.actMode = 3 := not_not.mp hm
  have hneg := sat8_shift_neg (not_le.mp hv) n
  rw [VecCmd.actOf_three hmode, hmode, activateInt_three (not_le.mp hv)] at h
  rw [h, Int.zero_shiftRight] at hneg
  exact absurd hneg (by decide)

/-! ## The two logs -/

section

variable {vec : VecCmd} {gemm : GemmCmd} {x : Sys VecCtrl} {y : Sys (Mac GemmFront)}
  {a b : ℕ → Byte} {i : ℕ}

theorem VecCmd.runWrites_get {m : BitVec 13 → Byte} {w : BitVec 12 → Byte} {n : ℕ} (hi : i < n) :
    (vec.runWrites m w n)[i]? = some (vec.outAt i,
      vec.resultOf (store m (vec.runWrites m w i) ((vec.aAt i).setWidth 13))
        (w ((vec.bAt i).setWidth 12))) := by
  induction n, hi using Nat.le_induction with
  | base => simp [VecCmd.runWrites_succ, VecCmd.length_runWrites]
  | succ n hlt ih =>
      have hlen : i < (vec.runWrites m w n).length := by
        rw [VecCmd.length_runWrites]
        exact hlt
      rw [VecCmd.runWrites_succ, List.getElem?_append_left hlen, ih]

theorem MacJob.writes_get {c : MacJob} {rd : ℕ → Byte} {w : BitVec 12 → Byte} {e : ℕ}
    (he : e < c.outs) : (c.writes rd w)[e]? = some (c.wrAddr e, c.outVal rd w e) := by
  rw [MacJob.writes, MacJob.writesUpTo, List.getElem?_map, List.getElem?_range he]
  rfl

theorem SameProduct.positive (h : SameProduct vec gemm) : gemm.Positive :=
  ⟨h.m ▸ h.length_pos, h.n ▸ h.length_pos, h.k ▸ Nat.one_pos⟩

theorem vec_wrote (h : SameProduct vec gemm) (hidle : BothIdle x y)
    (hop : Operands vec gemm x y a b) (hi : i < vec.length.toNat) (v : Byte) :
    vecBackend.Wrote vec x i (vec.outAt i, v) ↔ v = .ofInt 8
      (Signed.sat8 (vec.actOf ((a i).toInt * (b i).toInt) >>> vec.quantShift.toNat)) := by
  have hperf := VecCtrl.performs h.length_pos fairGrants_all (fun _ ↦ rfl) hidle.vec
    hidle.vecLog hidle.calm
  rw [wrote_iff hperf.sound (hperf.finish.imp fun _ hT ↦ hT.2), VecCmd.runWrites_get hi,
    hop.vecA i hi, hop.vecB i hi, VecCmd.resultOf_eq, VecCmd.valueOf, if_pos h.op]
  simp [eq_comm]

theorem diagonal_eq (h : SameProduct vec gemm) (hop : Operands vec gemm x y a b) {rd : ℕ → Byte}
    (hrd : ∀ e < vec.length.toNat * vec.length.toNat, rd e = a (e / vec.length.toNat))
    (hi : i < vec.length.toNat) :
    gemm.job.exactOut rd y.mem.wt (i * vec.length.toNat + i) =
      Signed.sat8 (activateInt vec.actMode ((a i).toInt * (b i).toInt) >>>
        vec.quantShift.toNat) := by
  have hits : gemm.job.its = 1 := congrArg BitVec.toNat h.k
  have hmod : (i * vec.length.toNat + i) % vec.length.toNat = i := LoopNest.join_mod hi
  have hact : gemm.job.actVal rd (i * vec.length.toNat + i) = a i :=
    (hrd _ (LoopNest.join_lt hi hi)).trans (congrArg a (LoopNest.join_div hi))
  have hwt : gemm.job.wtVal y.mem.wt (i * vec.length.toNat + i) = b i := by
    rw [← hop.gemmB i hi]
    simp [MacJob.wtVal, GemmCmd.job, GemmCmd.kAt, GemmCmd.nAt, h.k, h.n, hmod, Nat.mod_one]
  have hbias : gemm.job.biasVal y.mem.wt (i * vec.length.toNat + i) = 0 := by
    rw [← hop.bias i hi]
    simp [MacJob.biasVal, GemmCmd.job, h.n, hmod]
  rw [MacJob.exactOut, MacJob.dot, hits, Finset.sum_range_one, hbias, Nat.mul_one, Nat.add_zero,
    hact, hwt]
  change Signed.sat8 (activateInt gemm.actMode (_ + 0) >>> gemm.quantShift.toNat) = _
  rw [h.actMode, h.quantShift, add_zero]

theorem gemm_wrote (h : SameProduct vec gemm) (hidle : BothIdle x y)
    (hop : Operands vec gemm x y a b) (hi : i < vec.length.toNat) (v : Byte) :
    gemmBackend.Wrote gemm y (i * vec.length.toNat + i)
        (gemm.cAddr + .ofNat 16 (i * vec.length.toNat + i), v) ↔
      v = .ofInt 8 (Signed.sat8
        (activateInt vec.actMode ((a i).toInt * (b i).toInt) >>> vec.quantShift.toNat)) := by
  have hp := h.positive
  obtain ⟨rd, hreads, hrd⟩ := hop.gemmA
  have hemits : gemmBackend.Emits gemm (fun _ ↦ .all) y (gemm.job.writes rd y.mem.wt) :=
    MacJob.emits_of_fair (GemmFront.feeds hp) hp.job hidle.gemm hidle.gemmLog fairGrants_all
      (noClash_all hidle.gemm) hreads
  have hlt : i * vec.length.toNat + i < gemm.job.outs := by
    change _ < gemm.mDim.toNat * gemm.nDim.toNat
    rw [h.m, h.n]
    exact LoopNest.join_lt hi hi
  have haddr : gemm.job.wrAddr (i * vec.length.toNat + i) =
      gemm.cAddr + .ofNat 16 (i * vec.length.toNat + i) := by
    rw [GemmCmd.wrAddr_eq, LoopNest.div_mul_add_mod, ← add_ofNat]
  rw [wrote_iff hemits.sound (hemits.eventually.imp fun T hT ↦ hT T le_rfl),
    MacJob.writes_get hlt, haddr, MacJob.outVal_eq gemm.kDim.isLt.le hp.k,
    diagonal_eq h hop hrd hi]
  simp [eq_comm]

theorem agreesAt_iff (h : SameProduct vec gemm) (hidle : BothIdle x y)
    (hop : Operands vec gemm x y a b) (hi : i < vec.length.toNat) :
    AgreesAt vec gemm x y i ↔ vec.actMode ≠ 3 ∨ 0 ≤ (a i).toInt * (b i).toInt := by
  rw [← sat8_act_eq_iff vec.quantShift.toNat]
  constructor
  · rintro ⟨v, hvec, hgemm⟩
    have hbyte := ((vec_wrote h hidle hop hi v).mp hvec).symm.trans
      ((gemm_wrote h hidle hop hi v).mp hgemm)
    exact Signed.ofInt8_inj (Signed.sat8_bounds _) (Signed.sat8_bounds _) hbyte
  · intro hsat
    refine ⟨_, (vec_wrote h hidle hop hi _).mpr rfl, (gemm_wrote h hidle hop hi _).mpr ?_⟩
    rw [hsat]

/-! ## Commands in range -/

/-- In range the operands are what the buffers hold at first. -/
theorem Operands.of_valid (h : SameProduct vec gemm) (hidle : BothIdle x y) (hvec : vec.Valid)
    (hgemm : gemm.Valid)
    (hxa : ∀ i < vec.length.toNat, x.mem.act (.ofNat 13 (vec.aAddr.toNat + i)) = a i)
    (hxb : ∀ i < vec.length.toNat, x.mem.wt ((vec.bAt i).setWidth 12) = b i)
    (hya : ∀ i < vec.length.toNat, y.mem.act (.ofNat 13 (gemm.aAddr.toNat + i)) = a i)
    (hyb : ∀ i < vec.length.toNat, y.mem.wt ((gemm.bAddr + .ofNat 16 i).setWidth 12) = b i)
    (hbias : ∀ i < vec.length.toNat, y.mem.wt ((gemm.biasAddr + .ofNat 16 i).setWidth 12) = 0) :
    Operands vec gemm x y a b := by
  have hp := h.positive
  refine ⟨fun i hi ↦ ?_, hxb, ⟨_, MacJob.Disjoint.readsAs (GemmFront.feeds hp) hp.job hidle.gemm
    hidle.gemmLog hgemm.disjoint (noClash_all hidle.gemm), fun e he ↦ ?_⟩, hyb, hbias⟩
  · rw [← hxa i hi]
    exact BitVec.eq_of_toInt_eq (hvec.read_eq hi)
  · have hdiv : e / vec.length.toNat < vec.length.toNat := LoopNest.div_lt_of_lt_mul he
    have hk : gemm.kDim.toNat = 1 := congrArg BitVec.toNat h.k
    rw [← hya _ hdiv, MacJob.readsOf, GemmCmd.actAddr_eq,
      setWidth13_ofNat, GemmCmd.mAt, GemmCmd.kAt, hk, h.n,
      Nat.div_one, Nat.mul_one, Nat.mod_one, Nat.add_zero]

end

/-- The two units agree on all elements exactly if the activation is one of the
three known ones or no product is negative. -/
theorem vec_agrees_with_gemm {vec : VecCmd} {gemm : GemmCmd} {x : Sys VecCtrl}
    {y : Sys (Mac GemmFront)} {a b : ℕ → Byte} (h : SameProduct vec gemm) (hidle : BothIdle x y)
    (hop : Operands vec gemm x y a b) :
    (∀ i < vec.length.toNat, AgreesAt vec gemm x y i) ↔
      vec.actMode ≠ 3 ∨ ∀ i < vec.length.toNat, 0 ≤ (a i).toInt * (b i).toInt := by
  constructor
  · intro hall
    by_cases hm : vec.actMode = 3
    · exact .inr fun i hi ↦
        ((agreesAt_iff h hidle hop hi).mp (hall i hi)).resolve_left (not_not_intro hm)
    · exact .inl hm
  · intro hcond i hi
    exact (agreesAt_iff h hidle hop hi).mpr (hcond.imp_right fun hall ↦ hall i hi)

/-- Two elements from address 0 of both buffers, the bias behind the second
source. -/
def pairOf (mode : ActMode) : VecCmd := ⟨0, 16, 0, 2, true, 0, mode⟩

def outerOf (mode : ActMode) : GemmCmd := ⟨0, 16, 0, 2, 2, 2, 1, 0, mode⟩

/-- `A = [1, 1]` and `B = [-1, -1]`. -/
def vecOnes : Sys VecCtrl := .reset .reset (fun _ ↦ 1) fun i ↦ if i < 2 then 0xFF else 0

def gemmOnes : Sys (Mac GemmFront) :=
  .reset ⟨.reset, .reset⟩ (fun _ ↦ 1) fun i ↦ if i < 2 then 0xFF else 0

theorem sameProduct_pairOf (mode : ActMode) : SameProduct (pairOf mode) (outerOf mode) :=
  ⟨rfl, Nat.two_pos, rfl, rfl, rfl, rfl, rfl⟩

theorem bothIdle_ones : BothIdle vecOnes gemmOnes :=
  ⟨rfl, rfl, rfl, ⟨⟨rfl, rfl⟩, MacPath.quiet_reset, rfl⟩, rfl⟩

theorem operands_ones (mode : ActMode) :
    Operands (pairOf mode) (outerOf mode) vecOnes gemmOnes (fun _ ↦ 1) fun _ ↦ 0xFF := by
  have htwo : ∀ i < (pairOf mode).length.toNat, i = 0 ∨ i = 1 := by
    intro i hi
    have hlt : i < 2 := hi
    omega
  have hvec : (pairOf mode).Valid := by constructor <;> simp [pairOf]
  have hgemm : (outerOf mode).Valid := by
    refine ⟨⟨?_, ?_, ?_⟩, ?_, ?_, ?_, ?_, ?_⟩ <;> simp [outerOf]
  refine Operands.of_valid (sameProduct_pairOf mode) bothIdle_ones hvec hgemm (fun _ _ ↦ rfl) ?_
    (fun _ _ ↦ rfl) ?_ ?_
  all_goals
    intro i hi
    rcases htwo i hi with rfl | rfl <;>
      simp [vecOnes, gemmOnes, Sys.reset, NpuMemTop.reset, NpuMemTop.wt, VecCmd.bAt, pairOf,
        outerOf]

/-- With the fourth encoding one unit writes `-1`, the other `0`. -/
theorem not_vec_agrees_with_gemm_three :
    SameProduct (pairOf 3) (outerOf 3) ∧ BothIdle vecOnes gemmOnes ∧
      Operands (pairOf 3) (outerOf 3) vecOnes gemmOnes (fun _ ↦ 1) (fun _ ↦ 0xFF) ∧
      ¬∀ i < (pairOf 3).length.toNat, AgreesAt (pairOf 3) (outerOf 3) vecOnes gemmOnes i := by
  refine ⟨sameProduct_pairOf 3, bothIdle_ones, operands_ones 3, fun hall ↦ ?_⟩
  have hat := (agreesAt_iff (sameProduct_pairOf 3) bothIdle_ones (operands_ones 3)
    (show 0 < 2 by omega)).mp (hall 0 (show 0 < 2 by omega))
  exact absurd hat (by decide)

theorem vec_agrees_with_gemm_relu :
    AgreesAt (pairOf ActMode.actRelu) (outerOf ActMode.actRelu) vecOnes gemmOnes 0 ∧
      AgreesAt (pairOf ActMode.actRelu) (outerOf ActMode.actRelu) vecOnes gemmOnes 1 := by
  have hall := (vec_agrees_with_gemm (sameProduct_pairOf ActMode.actRelu) bothIdle_ones
    (operands_ones _)).mpr (.inl (by decide))
  exact ⟨hall 0 (by decide), hall 1 (by decide)⟩

end LgNpu
