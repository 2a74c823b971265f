import LgNpu.Gemm.Correct

/-!
# Convolutions end to end

A CONV command in range writes the saturated convolution of the original
contents, each byte once, and nothing else.  Coordinates are computed in 17
bits; one that does not fit wraps to a negative one, which is padding just as
the coordinate itself is.
-/

namespace LgNpu

/-! ## Coordinates -/

/-- The exact input coordinate of an output and a tap. -/
def coordOf (o stride f pad : ℕ) : ℤ := o * stride + f - pad

theorem inCoord_eq (o stride f pad : Dim) :
    inCoord o stride f pad = .ofInt 17 (coordOf o.toNat stride.toNat f.toNat pad.toNat) := by
  have hwide : ∀ d : Dim, d.setWidth 17 = .ofInt 17 d.toNat := fun d ↦ by
    rw [BitVec.ofInt_natCast, BitVec.ofNat_toNat]
  rw [inCoord, coordOf, hwide, hwide, hwide, hwide, Int.sub_eq_add_neg, BitVec.ofInt_add,
    BitVec.ofInt_add, BitVec.ofInt_neg, BitVec.ofInt_mul, ← BitVec.sub_eq_add_neg]

section Coord

variable {v : ℤ} (hlo : -2 ^ 16 ≤ v)
include hlo

theorem toInt_coord (hhi : v < 2 ^ 16) : (BitVec.ofInt 17 v).toInt = v := by
  rw [BitVec.toInt_ofInt, Signed.bmod_two_pow (w := 16) hlo hhi]

/-- A coordinate is padding just when the exact one is. -/
theorem outside_iff (hhi : v < 2 ^ 17) (d : Dim) :
    outside (.ofInt 17 v) d = true ↔ ¬(0 ≤ v ∧ v < d.toNat) := by
  have hd := d.isLt
  have hdInt : (d.setWidth 17).toInt = d.toNat := Signed.toInt_setWidth d le_rfl
  have hzero : (0 : BitVec 17).toInt = 0 := rfl
  rw [outside, BitVec.slt_eq_decide, BitVec.slt_eq_decide, hdInt, hzero, Bool.or_eq_true,
    Bool.not_eq_true', decide_eq_true_eq, decide_eq_false_iff_not]
  rcases lt_or_ge v (2 ^ 16) with hfit | hbig
  · rw [toInt_coord hlo hfit]
    omega
  · have hwrap : (BitVec.ofInt 17 v).toInt = v - 2 ^ 17 := by
      rw [BitVec.toInt_ofInt, ← Int.sub_bmod_right]
      exact Signed.bmod_two_pow (w := 16) (by push_cast; omega) (by push_cast; omega)
    rw [hwrap]
    omega

/-- A coordinate inside the map is used as it is. -/
theorem setWidth_coord (h0 : 0 ≤ v) (hhi : v < 2 ^ 16) :
    (BitVec.ofInt 17 v).setWidth 16 = .ofNat 16 v.toNat := by
  rw [Signed.setWidth_eq_ofInt _ (by omega), toInt_coord hlo hhi, ← BitVec.ofInt_natCast,
    Int.toNat_of_nonneg h0]

end Coord

namespace ConvCmd

variable (cmd : ConvCmd)

/-- Every window ends inside the padded map, input and output inside the
activation buffer and disjoint, weights and bias inside the weight buffer. -/
structure Valid (cmd : ConvCmd) : Prop extends Positive cmd where
  strideH : 0 < cmd.strideH.toNat
  strideW : 0 < cmd.strideW.toNat
  rows : (cmd.outH.toNat - 1) * cmd.strideH.toNat + cmd.filtR.toNat ≤
    cmd.inH.toNat + 2 * cmd.padH.toNat
  cols : (cmd.outW.toNat - 1) * cmd.strideW.toNat + cmd.filtS.toNat ≤
    cmd.inW.toNat + 2 * cmd.padW.toNat
  inRange : cmd.actInAddr.toNat + cmd.inH.toNat * cmd.inW.toNat * cmd.inC.toNat ≤ 8192
  outRange : cmd.actOutAddr.toNat + cmd.outSize ≤ 8192
  wtRange : cmd.weightAddr.toNat +
    cmd.outK.toNat * cmd.filtR.toNat * cmd.filtS.toNat * cmd.inC.toNat ≤ 4096
  biasRange : cmd.biasAddr.toNat + cmd.outK.toNat ≤ 4096
  regions : cmd.actInAddr.toNat + cmd.inH.toNat * cmd.inW.toNat * cmd.inC.toNat ≤
      cmd.actOutAddr.toNat ∨ cmd.actOutAddr.toNat + cmd.outSize ≤ cmd.actInAddr.toNat

/-! ## The reference convolution -/

variable (act : BitVec 13 → Byte) (wt : BitVec 12 → Byte)

def InMap (ih iw : ℤ) : Prop := 0 ≤ ih ∧ ih < cmd.inH.toNat ∧ 0 ≤ iw ∧ iw < cmd.inW.toNat

instance (ih iw : ℤ) : Decidable (cmd.InMap ih iw) := inferInstanceAs (Decidable (_ ∧ _))

/-- `X[ih, iw, c]`, zero outside the map. -/
def xVal (ih iw : ℤ) (c : ℕ) : ℤ :=
  if cmd.InMap ih iw then
    int8At act (cmd.actInAddr.toNat +
      ((ih.toNat * cmd.inW.toNat + iw.toNat) * cmd.inC.toNat + c))
  else 0

/-- `W[k, r, s, c]` and `bias[k]`. -/
def wVal (k r s c : ℕ) : ℤ :=
  (wt (.ofNat 12 (cmd.weightAddr.toNat +
    (((k * cmd.filtR.toNat + r) * cmd.filtS.toNat + s) * cmd.inC.toNat + c)))).toInt

def biasOf (k : ℕ) : ℤ := (wt (.ofNat 12 (cmd.biasAddr.toNat + k))).toInt

def rowOf (oh r : ℕ) : ℤ := coordOf oh cmd.strideH.toNat r cmd.padH.toNat

def colOf (ow s : ℕ) : ℤ := coordOf ow cmd.strideW.toNat s cmd.padW.toNat

/-- `Y[oh, ow, k]`. -/
def yVal (oh ow k : ℕ) : ℤ :=
  Signed.sat8 (activateInt cmd.actMode
    (∑ r ∈ Finset.range cmd.filtR.toNat, ∑ s ∈ Finset.range cmd.filtS.toNat,
      ∑ c ∈ Finset.range cmd.inC.toNat,
        cmd.xVal act (cmd.rowOf oh r) (cmd.colOf ow s) c * cmd.wVal wt k r s c +
      cmd.biasOf wt k) >>> cmd.quantShift.toNat)

def outIdx (oh ow k : ℕ) : ℕ :=
  cmd.actOutAddr.toNat + LoopNest.rowMajor cmd.outW.toNat cmd.outK.toNat oh ow k

/-- The writes of a command, all from the original contents. -/
def tableWrites : Writes :=
  (List.range cmd.outH.toNat).flatMap fun oh ↦ (List.range cmd.outW.toNat).flatMap fun ow ↦
    (List.range cmd.outK.toNat).map fun k ↦
      (.ofNat 16 (cmd.outIdx oh ow k), .ofInt 8 (cmd.yVal act wt oh ow k))

variable {cmd act wt}

/-! ## The job computes it -/

/-- The exact coordinates of iteration `i`. -/
def rowAt (cmd : ConvCmd) (i : ℕ) : ℤ := cmd.rowOf (cmd.ohOf (cmd.elemAt i)) (cmd.rAt i)

def colAt (cmd : ConvCmd) (i : ℕ) : ℤ := cmd.colOf (cmd.owOf (cmd.elemAt i)) (cmd.sAt i)

theorem wtAddr_eq (i : ℕ) : cmd.job.wtAddr i = .ofNat 16 (cmd.weightAddr.toNat +
    (((cmd.kOf (cmd.elemAt i) * cmd.filtR.toNat + cmd.rAt i) * cmd.filtS.toNat + cmd.sAt i) *
      cmd.inC.toNat + cmd.cAt i)) := by
  rw [← add_ofNat, BitVec.ofNat_add, ← ofNat_mul_dim, BitVec.ofNat_add, ← ofNat_mul_dim,
    BitVec.ofNat_add, ← ofNat_mul_dim]
  rfl

theorem biasVal_eq (e : ℕ) : (cmd.job.biasVal wt e).toInt = cmd.biasOf wt (cmd.kOf e) := by
  rw [biasOf, ← setWidth12_ofNat, ← add_ofNat]
  rfl

theorem coord_bounds {o n stride f filt pad d : ℕ} (hfit : (n - 1) * stride + filt ≤ d + 2 * pad)
    (ho : o < n) (hf : f < filt) (hpad : pad < 2 ^ 16) (hd : d < 2 ^ 16) :
    -2 ^ 16 ≤ coordOf o stride f pad ∧ coordOf o stride f pad < 2 ^ 17 := by
  have hmul : o * stride ≤ (n - 1) * stride := Nat.mul_le_mul_right stride (by omega)
  rw [coordOf, ← Nat.cast_mul]
  generalize o * stride = p at hmul ⊢
  generalize (n - 1) * stride = q at hmul hfit
  omega

section Tap

variable (hv : cmd.Valid) {i : ℕ} (hi : i < cmd.job.total)
include hv hi

theorem Valid.digits_lt : cmd.ohOf (cmd.elemAt i) < cmd.outH.toNat ∧
    cmd.owOf (cmd.elemAt i) < cmd.outW.toNat ∧ cmd.kOf (cmd.elemAt i) < cmd.outK.toNat ∧
    cmd.rAt i < cmd.filtR.toNat ∧ cmd.sAt i < cmd.filtS.toNat ∧ cmd.cAt i < cmd.inC.toNat := by
  have hlt := hv.toLooping.digits_lt hi
  rwa [limitDim_of_pos hv.outH, limitDim_of_pos hv.outW] at hlt

theorem Valid.ihAt_eq : cmd.ihAt i = .ofInt 17 (cmd.rowAt i) := by
  obtain ⟨hoh, -, -, hr, -, -⟩ := hv.digits_lt hi
  have h1 := cmd.outH.isLt
  have h2 := cmd.filtR.isLt
  rw [ihAt, inCoord_eq, rowAt, rowOf, BitVec.toNat_ofNat, BitVec.toNat_ofNat,
    Nat.mod_eq_of_lt (by omega), Nat.mod_eq_of_lt (by omega)]

theorem Valid.iwAt_eq : cmd.iwAt i = .ofInt 17 (cmd.colAt i) := by
  obtain ⟨-, how, -, -, hs, -⟩ := hv.digits_lt hi
  have h1 := cmd.outW.isLt
  have h2 := cmd.filtS.isLt
  rw [iwAt, inCoord_eq, colAt, colOf, BitVec.toNat_ofNat, BitVec.toNat_ofNat,
    Nat.mod_eq_of_lt (by omega), Nat.mod_eq_of_lt (by omega)]

theorem Valid.coords_bounds :
    (-2 ^ 16 ≤ cmd.rowAt i ∧ cmd.rowAt i < 2 ^ 17) ∧
      -2 ^ 16 ≤ cmd.colAt i ∧ cmd.colAt i < 2 ^ 17 := by
  obtain ⟨hoh, how, -, hr, hs, -⟩ := hv.digits_lt hi
  exact ⟨coord_bounds hv.rows hoh hr cmd.padH.isLt cmd.inH.isLt,
    coord_bounds hv.cols how hs cmd.padW.isLt cmd.inW.isLt⟩

theorem Valid.zeroPad_iff : cmd.job.zeroPad i = true ↔ ¬cmd.InMap (cmd.rowAt i) (cmd.colAt i) := by
  obtain ⟨⟨hrlo, hrhi⟩, hclo, hchi⟩ := hv.coords_bounds hi
  change (outside (cmd.ihAt i) cmd.inH || outside (cmd.iwAt i) cmd.inW) = true ↔ _
  rw [hv.ihAt_eq hi, hv.iwAt_eq hi, Bool.or_eq_true, outside_iff hrlo hrhi, outside_iff hclo hchi,
    ← not_and_or, InMap, and_assoc]

theorem Valid.actAddr_eq (hin : cmd.InMap (cmd.rowAt i) (cmd.colAt i)) : cmd.job.actAddr i =
    .ofNat 16 (cmd.actInAddr.toNat + (((cmd.rowAt i).toNat * cmd.inW.toNat +
      (cmd.colAt i).toNat) * cmd.inC.toNat + cmd.cAt i)) := by
  obtain ⟨⟨hrlo, -⟩, hclo, -⟩ := hv.coords_bounds hi
  obtain ⟨hr0, hr, hc0, hc⟩ := hin
  have h1 := cmd.inH.isLt
  have h2 := cmd.inW.isLt
  have hih : (cmd.ihAt i).setWidth 16 = .ofNat 16 _ :=
    (congrArg _ (hv.ihAt_eq hi)).trans (setWidth_coord hrlo hr0 (by omega))
  have hiw : (cmd.iwAt i).setWidth 16 = .ofNat 16 _ :=
    (congrArg _ (hv.iwAt_eq hi)).trans (setWidth_coord hclo hc0 (by omega))
  rw [← add_ofNat, BitVec.ofNat_add, ← ofNat_mul_dim, BitVec.ofNat_add, ← ofNat_mul_dim, ← hih,
    ← hiw]
  rfl

/-- An operand in the map is one of the input's bytes. -/
theorem Valid.operand_lt (hin : cmd.InMap (cmd.rowAt i) (cmd.colAt i)) :
    ((cmd.rowAt i).toNat * cmd.inW.toNat + (cmd.colAt i).toNat) * cmd.inC.toNat + cmd.cAt i <
      cmd.inH.toNat * cmd.inW.toNat * cmd.inC.toNat := by
  obtain ⟨hr0, hr, hc0, hc⟩ := hin
  exact LoopNest.rowMajor_lt (by omega) (by omega) (hv.digits_lt hi).2.2.2.2.2

theorem Valid.product_eq :
    (cmd.job.actVal (cmd.job.readsOf act) i).toInt * (cmd.job.wtVal wt i).toInt =
      cmd.xVal act (cmd.rowAt i) (cmd.colAt i) (cmd.cAt i) *
        cmd.wVal wt (cmd.kOf (cmd.elemAt i)) (cmd.rAt i) (cmd.sAt i) (cmd.cAt i) := by
  have hpad := hv.zeroPad_iff hi
  rw [MacJob.actVal, MacJob.wtVal, xVal]
  by_cases hin : cmd.InMap (cmd.rowAt i) (cmd.colAt i)
  · have hno : ¬cmd.job.zeroPad i = true := fun h ↦ hpad.mp h hin
    rw [if_neg hno, if_neg hno, if_pos hin, MacJob.readsOf, hv.actAddr_eq hi hin, wtAddr_eq,
      setWidth13_ofNat, setWidth12_ofNat]
    rfl
  · have hyes : cmd.job.zeroPad i = true := hpad.mpr hin
    rw [if_pos hyes, if_pos hyes, if_neg hin, Int.zero_mul]
    rfl

end Tap

theorem Valid.dot_eq (hv : cmd.Valid) {e : ℕ} (he : e < cmd.outSize) :
    cmd.job.dot (cmd.job.readsOf act) wt e cmd.job.its =
      ∑ r ∈ Finset.range cmd.filtR.toNat, ∑ s ∈ Finset.range cmd.filtS.toNat,
        ∑ c ∈ Finset.range cmd.inC.toNat,
          cmd.xVal act (cmd.rowOf (cmd.ohOf e) r) (cmd.colOf (cmd.owOf e) s) c *
            cmd.wVal wt (cmd.kOf e) r s c := by
  obtain ⟨tap, htap⟩ : ∃ tap : ℕ → ℕ → ℕ → ℤ, tap = fun r s c ↦
      cmd.xVal act (cmd.rowOf (cmd.ohOf e) r) (cmd.colOf (cmd.owOf e) s) c *
        cmd.wVal wt (cmd.kOf e) r s c := ⟨_, rfl⟩
  have hits : cmd.job.its = cmd.filtR.toNat * cmd.filtS.toNat * cmd.inC.toNat := rfl
  have hterm : ∀ j ∈ Finset.range cmd.job.its,
      (cmd.job.actVal (cmd.job.readsOf act) (e * cmd.job.its + j)).toInt *
        (cmd.job.wtVal wt (e * cmd.job.its + j)).toInt =
      tap (j / cmd.inC.toNat / cmd.filtS.toNat) (j / cmd.inC.toNat % cmd.filtS.toNat)
        (j % cmd.inC.toNat) := by
    intro j hj
    have hj' : j < cmd.job.its := Finset.mem_range.mp hj
    have hi : e * cmd.job.its + j < cmd.job.total :=
      LoopNest.join_lt (hv.outs_eq.symm ▸ he) hj'
    have helem : cmd.elemAt (e * cmd.job.its + j) = e := by
      rw [elemAt_eq, LoopNest.join_div hj']
    have hc : cmd.cAt (e * cmd.job.its + j) = j % cmd.inC.toNat := LoopNest.shift_mod
    have hdiv : (e * cmd.job.its + j) / cmd.inC.toNat =
        e * (cmd.filtR.toNat * cmd.filtS.toNat) + j / cmd.inC.toNat := LoopNest.shift_div hv.c
    have hs : cmd.sAt (e * cmd.job.its + j) = j / cmd.inC.toNat % cmd.filtS.toNat := by
      rw [sAt, hdiv, LoopNest.shift_mod]
    have hr : cmd.rAt (e * cmd.job.its + j) = j / cmd.inC.toNat / cmd.filtS.toNat := by
      rw [rAt, hdiv, LoopNest.shift_div hv.s]
      exact LoopNest.join_mod (LoopNest.div_lt_of_lt_mul (LoopNest.div_lt_of_lt_mul hj'))
    rw [hv.product_eq hi, rowAt, colAt, helem, hr, hs, hc, htap]
  calc cmd.job.dot (cmd.job.readsOf act) wt e cmd.job.its
      = ∑ j ∈ Finset.range (cmd.filtR.toNat * cmd.filtS.toNat * cmd.inC.toNat),
          tap (j / cmd.inC.toNat / cmd.filtS.toNat) (j / cmd.inC.toNat % cmd.filtS.toNat)
            (j % cmd.inC.toNat) := Finset.sum_congr rfl hterm
    _ = ∑ p ∈ Finset.range (cmd.filtR.toNat * cmd.filtS.toNat), ∑ c ∈ Finset.range cmd.inC.toNat,
          tap (p / cmd.filtS.toNat) (p % cmd.filtS.toNat) c :=
        LoopNest.sum_range_mul (fun p c ↦ tap (p / cmd.filtS.toNat) (p % cmd.filtS.toNat) c) _ _
    _ = ∑ r ∈ Finset.range cmd.filtR.toNat, ∑ s ∈ Finset.range cmd.filtS.toNat,
          ∑ c ∈ Finset.range cmd.inC.toNat, tap r s c :=
        LoopNest.sum_range_mul (fun r s ↦ ∑ c ∈ Finset.range cmd.inC.toNat, tap r s c) _ _
    _ = _ := by rw [htap]

theorem Valid.its_le (hv : cmd.Valid) : cmd.job.its ≤ 2 ^ 16 := by
  have hwt := hv.wtRange
  have hits : cmd.job.its ≤ cmd.outK.toNat * cmd.job.its := Nat.le_mul_of_pos_left _ hv.k
  have hassoc : cmd.outK.toNat * cmd.job.its =
      cmd.outK.toNat * cmd.filtR.toNat * cmd.filtS.toNat * cmd.inC.toNat := by
    change cmd.outK.toNat * (cmd.filtR.toNat * cmd.filtS.toNat * cmd.inC.toNat) = _
    ring
  omega

theorem Valid.outVal_eq (hv : cmd.Valid) {e : ℕ} (he : e < cmd.outSize) :
    cmd.job.outVal (cmd.job.readsOf act) wt e =
      .ofInt 8 (cmd.yVal act wt (cmd.ohOf e) (cmd.owOf e) (cmd.kOf e)) := by
  rw [MacJob.outVal_eq hv.its_le hv.job.its, MacJob.exactOut, hv.dot_eq he, biasVal_eq]
  rfl

theorem Valid.writes_eq (hv : cmd.Valid) :
    cmd.job.writes (cmd.job.readsOf act) wt = cmd.tableWrites act wt := by
  obtain ⟨entry, hentry⟩ : ∃ entry : ℕ → ℕ → ℕ → Addr × Byte, entry = fun oh ow k ↦
      (.ofNat 16 (cmd.outIdx oh ow k), .ofInt 8 (cmd.yVal act wt oh ow k)) := ⟨_, rfl⟩
  have hwrite : ∀ e ∈ List.range cmd.outSize,
      (cmd.job.wrAddr e, cmd.job.outVal (cmd.job.readsOf act) wt e) =
        entry (e / cmd.outK.toNat / cmd.outW.toNat) (e / cmd.outK.toNat % cmd.outW.toNat)
          (e % cmd.outK.toNat) := by
    intro e he
    have haddr : cmd.job.wrAddr e = .ofNat 16 (cmd.actOutAddr.toNat + e) := add_ofNat _ _
    rw [hv.outVal_eq (List.mem_range.mp he), haddr, hentry, ohOf, owOf, kOf,
      limitDim_of_pos hv.outW]
    simp only [outIdx, LoopNest.rowMajor, LoopNest.div_mul_add_mod]
  calc cmd.job.writes (cmd.job.readsOf act) wt
      = (List.range cmd.outSize).map fun e ↦
          (cmd.job.wrAddr e, cmd.job.outVal (cmd.job.readsOf act) wt e) := by
        rw [← hv.outs_eq]
        rfl
    _ = (List.range (cmd.outH.toNat * cmd.outW.toNat * cmd.outK.toNat)).map fun e ↦
          entry (e / cmd.outK.toNat / cmd.outW.toNat) (e / cmd.outK.toNat % cmd.outW.toNat)
            (e % cmd.outK.toNat) := List.map_congr_left hwrite
    _ = (List.range (cmd.outH.toNat * cmd.outW.toNat)).flatMap fun p ↦
          (List.range cmd.outK.toNat).map (entry (p / cmd.outW.toNat) (p % cmd.outW.toNat)) :=
        LoopNest.map_range_mul (fun p k ↦ entry (p / cmd.outW.toNat) (p % cmd.outW.toNat) k) _ _
    _ = (List.range cmd.outH.toNat).flatMap fun oh ↦ (List.range cmd.outW.toNat).flatMap fun ow ↦
          (List.range cmd.outK.toNat).map (entry oh ow) :=
        LoopNest.flatMap_range_mul (fun oh ow ↦ (List.range cmd.outK.toNat).map (entry oh ow)) _ _
    _ = cmd.tableWrites act wt := by rw [hentry, tableWrites]

/-! ## The regions -/

theorem Valid.disjoint (hv : cmd.Valid) : cmd.job.Disjoint := by
  intro i hi hz e he hsame
  have hin : cmd.InMap (cmd.rowAt i) (cmd.colAt i) := by
    by_contra hin
    exact Bool.false_ne_true (hz.symm.trans ((hv.zeroPad_iff hi).mpr hin))
  have hlt := hv.operand_lt hi hin
  have he' : e < cmd.outSize := hv.outs_eq ▸ he
  have hinRange := hv.inRange
  have houtRange := hv.outRange
  have hregions := hv.regions
  have haddr : cmd.job.wrAddr e = .ofNat 16 (cmd.actOutAddr.toNat + e) := add_ofNat _ _
  rw [hv.actAddr_eq hi hin, haddr, setWidth13_ofNat, setWidth13_ofNat] at hsame
  have hnat := congrArg BitVec.toNat hsame
  simp only [BitVec.toNat_ofNat] at hnat
  omega

theorem Valid.nodup (hv : cmd.Valid) : ((cmd.tableWrites act wt).map Prod.fst).Nodup := by
  have houtRange := hv.outRange
  rw [← hv.writes_eq, MacJob.writes, MacJob.writesUpTo, List.map_map]
  refine List.Nodup.map_on (fun e he e' he' heq ↦ ?_) List.nodup_range
  have hlt : e < cmd.outSize := hv.outs_eq ▸ List.mem_range.mp he
  have hlt' : e' < cmd.outSize := hv.outs_eq ▸ List.mem_range.mp he'
  have haddr : ∀ e, cmd.job.wrAddr e = .ofNat 16 (cmd.actOutAddr.toNat + e) :=
    fun e ↦ add_ofNat _ _
  have hnat := congrArg BitVec.toNat heq
  simp only [Function.comp_apply, haddr, BitVec.toNat_ofNat] at hnat
  omega

end ConvCmd

/-- A CONV command on the buffers: exactly the writes of the table, each to its
own byte. -/
theorem conv_correct {cmd : ConvCmd} {x : Sys (Mac ConvFront)} (hv : cmd.Valid)
    (hq : Mac.Quiet ConvFront.Rest x) (hlog : x.log = []) :
    convBackend.Emits cmd (fun _ ↦ .all) x (cmd.tableWrites x.mem.act x.mem.wt) ∧
      ((cmd.tableWrites x.mem.act x.mem.wt).map Prod.fst).Nodup ∧
      (∀ t a, (∀ oh < cmd.outH.toNat, ∀ ow < cmd.outW.toNat, ∀ k < cmd.outK.toNat,
          a ≠ .ofNat 13 (cmd.outIdx oh ow k)) →
        (convBackend.run cmd (fun _ ↦ .all) x t).mem.act a = x.mem.act a) ∧
      ∀ t, (convBackend.run cmd (fun _ ↦ .all) x t).mem.wt = x.mem.wt := by
  have hemits : convBackend.Emits cmd (fun _ ↦ .all) x (cmd.tableWrites x.mem.act x.mem.wt) := by
    rw [← hv.writes_eq]
    exact MacJob.emits (ConvFront.feeds hv.toLooping) hv.job cmd.keeps hq hlog hv.disjoint
  refine ⟨hemits, hv.nodup, fun t a ha ↦ hemits.frame hlog (fun e he hsame ↦ ?_) t,
    fun t ↦ wt_run convBackend cmd _ x t⟩
  obtain ⟨oh, hoh, hplane⟩ := List.mem_flatMap.mp he
  obtain ⟨ow, how, hrow⟩ := List.mem_flatMap.mp hplane
  obtain ⟨k, hk, rfl⟩ := List.mem_map.mp hrow
  refine ha oh (List.mem_range.mp hoh) ow (List.mem_range.mp how) k (List.mem_range.mp hk) ?_
  rw [← hsame]
  exact setWidth13_ofNat _

/-- Three taps along a row of three, with padding on both sides. -/
def paddedRow : ConvCmd :=
  ⟨Opcode.opConv, 0, 64, 0, 32, 1, 3, 1, 1, 1, 3, 1, 1, 0, 1, 1, 3, 1, ActMode.actRelu⟩

theorem conv_correct_paddedRow :
    paddedRow.tableWrites (fun a ↦ a.setWidth 8) (fun a ↦ a.setWidth 8) =
        [(64, 17), (65, 18), (66, 17)] ∧
      convBackend.Emits paddedRow (fun _ ↦ .all)
        (.reset ⟨.reset, .reset⟩ (fun a ↦ a.setWidth 8) fun a ↦ a.setWidth 8)
        (paddedRow.tableWrites (fun a ↦ a.setWidth 8) fun a ↦ a.setWidth 8) := by
  refine ⟨by decide, ?_⟩
  have hpos : paddedRow.Positive :=
    ⟨⟨by decide, by decide, by decide, by decide⟩, by decide, by decide, by decide, by decide⟩
  exact (@conv_correct paddedRow
    (.reset ⟨.reset, .reset⟩ (fun a ↦ a.setWidth 8) fun a ↦ a.setWidth 8)
    ⟨hpos, by decide, by decide, by decide, by decide, by decide, by decide, by decide, by decide,
      by decide⟩
    ⟨⟨rfl, rfl⟩, MacPath.quiet_reset, rfl⟩ rfl).1

end LgNpu
