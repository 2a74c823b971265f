import LgNpu.Lnorm.Ctrl
import LgNpu.Lnorm.Spec

/-!
# Runs of the layer normalisation controller

The invariant has one case for each state: the scanning passes stand at
element `b` of row `i`, the divisions and the square root count their cycles,
and the normalising pass stands at element `j`.  It holds under every schedule
of grants and wherever the two regions lie.
-/

namespace LgNpu

namespace LnormCtrl

open LnormCmd

/-! ## The datapath -/

section Datapath

variable {s : LnormCtrl} {rsp : BeRsp} {mu y : ℤ}

/-- The mean register holds a value in the range of the elements. -/
def MeanOk (s : LnormCtrl) : Prop := -128 ≤ s.meanR.toInt ∧ s.meanR.toInt ≤ 127

instance (s : LnormCtrl) : Decidable (MeanOk s) := inferInstanceAs (Decidable (_ ∧ _))

theorem toInt_diffW (hmu : s.meanR.toInt = mu) (hb : -128 ≤ mu ∧ mu ≤ 127)
    (hy : rsp.actRdRdata.toInt = y) : (s.diffW rsp).toInt = y - mu := by
  have hlt := BitVec.toInt_lt (x := rsp.actRdRdata)
  have hle := BitVec.le_toInt rsp.actRdRdata
  have hext : (rsp.actRdRdata.signExtend 32).toInt = y := by
    rw [BitVec.toInt_signExtend_of_le (by omega), hy]
  rw [diffW, Signed.toInt_sub (w := 31), hext, hmu] <;> omega

theorem toNat_absDiffW (hmu : s.meanR.toInt = mu) (hb : -128 ≤ mu ∧ mu ≤ 127)
    (hy : rsp.actRdRdata.toInt = y) : (s.absDiffW rsp).toNat = (y - mu).natAbs := by
  rw [absDiffW, Signed.toNat_magnitude, toInt_diffW hmu hb hy]

/-- The distance to the mean fits nine bits. -/
theorem natAbs_le (hb : -128 ≤ mu ∧ mu ≤ 127) (hy : rsp.actRdRdata.toInt = y) :
    (y - mu).natAbs ≤ 255 := by
  have hlt := BitVec.toInt_lt (x := rsp.actRdRdata)
  have hle := BitVec.le_toInt rsp.actRdRdata
  omega

theorem toNat_absDiffSqW (hmu : s.meanR.toInt = mu) (hb : -128 ≤ mu ∧ mu ≤ 127)
    (hy : rsp.actRdRdata.toInt = y) : (s.absDiffSqW rsp).toNat = (y - mu).natAbs ^ 2 := by
  have hle := natAbs_le hb hy
  have hsq : (y - mu).natAbs * (y - mu).natAbs ≤ 255 * 255 := Nat.mul_le_mul hle hle
  have hnarrow : ((s.absDiffNarrowW rsp).setWidth 32).toNat = (y - mu).natAbs := by
    rw [absDiffNarrowW, BitVec.toNat_setWidth, BitVec.toNat_setWidth, toNat_absDiffW hmu hb hy,
      Nat.mod_eq_of_lt (a := (y - mu).natAbs) (by omega), Nat.mod_eq_of_lt (by omega)]
  rw [absDiffSqW, BitVec.toNat_mul, hnarrow, Nat.mod_eq_of_lt (by omega), Nat.pow_two]

/-- The shifted distance never leaves 40 bits, so saturation sees all of it. -/
theorem toNat_scaledAbsW (hmu : s.meanR.toInt = mu) (hb : -128 ≤ mu ∧ mu ≤ 127)
    (hy : rsp.actRdRdata.toInt = y) : (s.scaledAbsW rsp).toNat =
      min ((y - mu).natAbs * 2 ^ s.normShiftR.toNat) (2 ^ 32 - 1) := by
  have hle := natAbs_le hb hy
  have hpow : 2 ^ s.normShiftR.toNat ≤ 2 ^ 31 :=
    Nat.pow_le_pow_right (by omega) (by have := s.normShiftR.isLt; omega)
  have hprod : (y - mu).natAbs * 2 ^ s.normShiftR.toNat ≤ 255 * 2 ^ 31 := Nat.mul_le_mul hle hpow
  have hwide : (s.wideScaledW rsp).toNat = (y - mu).natAbs * 2 ^ s.normShiftR.toNat := by
    rw [wideScaledW, BitVec.shiftLeft_eq', BitVec.toNat_shiftLeft, BitVec.toNat_setWidth,
      toNat_absDiffW hmu hb hy, Nat.mod_eq_of_lt (a := (y - mu).natAbs) (by omega),
      Nat.shiftLeft_eq, Nat.mod_eq_of_lt (by omega)]
  have hhigh : s.wideScaledW rsp >>> 32 ≠ 0 ↔ 2 ^ 32 ≤ (s.wideScaledW rsp).toNat := by
    rw [Ne, ← BitVec.toNat_inj, BitVec.toNat_ushiftRight, Nat.shiftRight_eq_div_pow,
      show (0 : BitVec 40).toNat = 0 from rfl]
    omega
  rw [scaledAbsW]
  by_cases hsat : s.wideScaledW rsp >>> 32 ≠ 0
  · have := hhigh.mp hsat
    rw [if_pos hsat, ← hwide, Nat.min_eq_right (by omega)]
    rfl
  · have hlow : ¬2 ^ 32 ≤ (s.wideScaledW rsp).toNat := fun h ↦ hsat (hhigh.mpr h)
    rw [if_neg hsat, BitVec.toNat_setWidth, ← hwide, Nat.mod_eq_of_lt (by omega),
      Nat.min_eq_left (by omega)]

theorem toInt_finalSum {l : ℤ} (hs : s.sumR.toInt = l) (hl : |l| ≤ 2 ^ 30)
    (hy : rsp.actRdRdata.toInt = y) : (s.finalSum rsp).toInt = l + y := by
  have hlt := BitVec.toInt_lt (x := rsp.actRdRdata)
  have hle := BitVec.le_toInt rsp.actRdRdata
  have hext : (rsp.actRdRdata.signExtend 32).toInt = y := by
    rw [BitVec.toInt_signExtend_of_le (by omega), hy]
  rw [abs_le] at hl
  rw [finalSum, Signed.toInt_add (w := 31), hext, hs] <;> omega

theorem toNat_finalVar {l q : ℕ} (hs : s.varSumR.toNat = l) (hq : (s.absDiffSqW rsp).toNat = q)
    (hlt : l + q < 2 ^ 32) : (s.finalVar rsp).toNat = l + q ∧
      (s.varSumR + s.absDiffSqW rsp).toNat = l + q := by
  have hsum : (s.varSumR.setWidth 64 + (s.absDiffSqW rsp).setWidth 64).toNat = l + q := by
    rw [BitVec.toNat_add, BitVec.toNat_setWidth, BitVec.toNat_setWidth, hs, hq,
      Nat.mod_eq_of_lt (a := l) (by omega), Nat.mod_eq_of_lt (a := q) (by omega),
      Nat.mod_eq_of_lt (by omega)]
  have hhigh : (s.varSumR.setWidth 64 + (s.absDiffSqW rsp).setWidth 64) >>> 32 = 0 := by
    refine BitVec.eq_of_toNat_eq ?_
    rw [BitVec.toNat_ushiftRight, hsum, Nat.shiftRight_eq_div_pow, Nat.div_eq_of_lt hlt]
    rfl
  refine ⟨?_, ?_⟩
  · rw [finalVar, if_neg (not_not.mpr hhigh), BitVec.toNat_setWidth, hsum, Nat.mod_eq_of_lt hlt]
  · rw [BitVec.toNat_add, hs, hq, Nat.mod_eq_of_lt hlt]

/-- The result is the signed quotient, saturated. -/
theorem normResult_eq {q : ℕ} {neg : Bool} (hq : s.divR.quot.toNat = q) (hn : s.normSignR = neg) :
    s.normResult = .ofInt 8 (Signed.sat8 (if neg then -(q : ℤ) else q)) := by
  have hlow : s.divR.quot.setWidth 8 = .ofInt 8 q := by
    rw [← hq, BitVec.ofInt_natCast, BitVec.ofNat_toNat]
  have h128 : (128 : BitVec 32).ult s.divR.quot = decide (128 < q) := by
    rw [BitVec.ult_eq_decide, hq]
    rfl
  have h127 : (127 : BitVec 32).ult s.divR.quot = decide (127 < q) := by
    rw [BitVec.ult_eq_decide, hq]
    rfl
  rw [normResult, hn, h128, h127, hlow, Signed.sat8]
  cases neg with
  | true =>
      simp only [if_true, decide_eq_true_eq]
      by_cases hbig : 128 < q
      · rw [if_pos hbig, show max (-128) (min 127 (-(q : ℤ))) = -128 by omega]
        rfl
      · rw [if_neg hbig, show max (-128) (min 127 (-(q : ℤ))) = -(q : ℤ) by omega,
          BitVec.ofInt_neg]
  | false =>
      simp only [Bool.false_eq_true, if_false, decide_eq_true_eq]
      by_cases hbig : 127 < q
      · rw [if_pos hbig, show max (-128) (min 127 (q : ℤ)) = 127 by omega]
        rfl
      · rw [if_neg hbig, show max (-128) (min 127 (q : ℤ)) = (q : ℤ) by omega]

end Datapath

/-! ## The invariant -/

variable (cmd : LnormCmd) (m : BitVec 13 → Byte)

structure Loaded (s : LnormCtrl) : Prop where
  numRows : s.numRowsR = cmd.numRows
  rowLen : s.rowLenR = cmd.rowLen
  shift : s.normShiftR = cmd.normShift

/-- The controller works on row `i`. -/
structure AtRow (s : LnormCtrl) (i : ℕ) : Prop where
  loaded : Loaded cmd s
  lt : i < cmd.numRows.toNat
  row : s.rowR.toNat = i
  baseIn : s.inRowBaseR = .ofNat 16 (cmd.inAddr.toNat + i * cmd.rowLen.toNat)
  baseOut : s.outRowBaseR = .ofNat 16 (cmd.outAddr.toNat + i * cmd.rowLen.toNat)

/-- A scanning pass stands at element `b` of row `i`. -/
structure Scan (x : Sys LnormCtrl) (i b : ℕ) : Prop where
  row : AtRow cmd x.be i
  log : x.log = cmd.rowWise.logAt m i 0
  lt : b < cmd.rowLen.toNat
  idx : x.be.idxR.toNat = b

/-- The read issued last cycle was for `y`. -/
structure Arrived (x : Sys LnormCtrl) (y : ℤ) : Prop where
  valid : x.mem.actBuf.beRdAcceptR = true
  data : (x.mem.actBuf.sram.bRdata).toInt = y

/-- The normalising pass stands at element `j` of row `i`. -/
structure AtElem (x : Sys LnormCtrl) (i j : ℕ) : Prop where
  row : AtRow cmd x.be i
  log : x.log = cmd.rowWise.logAt m i j
  lt : j < cmd.rowLen.toNat
  idx : x.be.idxR.toNat = j
  mean : x.be.meanR.toInt = cmd.mean (cmd.rowWise.rowMem m i) i
  std : x.be.stdR.toNat = cmd.sigma (cmd.rowWise.rowMem m i) i

/-- The distance of element `j` to the mean. -/
def diffAt (i j : ℕ) : ℤ := cmd.rowWise.readAt m i j - cmd.mean (cmd.rowWise.rowMem m i) i

/-- The numerator of its division. -/
def numerAt (i j : ℕ) : ℕ :=
  min ((diffAt cmd m i j).natAbs * 2 ^ cmd.normShift.toNat) (2 ^ 32 - 1)

inductive Phase : Sys LnormCtrl → Prop
  | loadCfg {x} (hs : x.be.state = .loadCfg) (hl : Loaded cmd x.be) (hlog : x.log = []) : Phase x
  | sumRd {x i b} (hs : x.be.state = .sumRd) (hp : Scan cmd m x i b)
      (hsum : x.be.sumR.toInt = cmd.sumUpTo (cmd.rowWise.rowMem m i) i b)
      (hvar : x.be.varSumR = 0) : Phase x
  | sumWait {x i b} (hs : x.be.state = .sumWait) (hp : Scan cmd m x i b)
      (hsum : x.be.sumR.toInt = cmd.sumUpTo (cmd.rowWise.rowMem m i) i b)
      (hvar : x.be.varSumR = 0)
      (ha : Arrived x (int8At (cmd.rowWise.rowMem m i) (cmd.inIdx i b))) : Phase x
  | meanDiv {x i k} (hs : x.be.state = .meanDiv) (hp : Scan cmd m x i 0) (hvar : x.be.varSumR = 0)
      (hsign : x.be.divSignR =
        decide (cmd.sumUpTo (cmd.rowWise.rowMem m i) i cmd.rowLen.toNat < 0))
      (hdiv : SerialArith.DivRun
        (cmd.sumUpTo (cmd.rowWise.rowMem m i) i cmd.rowLen.toNat).natAbs cmd.rowLen.toNat k
        x.be.divR x.be.divDenomR x.be.divCntR) : Phase x
  | varRd {x i b} (hs : x.be.state = .varRd) (hp : Scan cmd m x i b)
      (hmean : x.be.meanR.toInt = cmd.mean (cmd.rowWise.rowMem m i) i)
      (hvar : x.be.varSumR.toNat = cmd.varUpTo (cmd.rowWise.rowMem m i) i b) : Phase x
  | varWait {x i b} (hs : x.be.state = .varWait) (hp : Scan cmd m x i b)
      (hmean : x.be.meanR.toInt = cmd.mean (cmd.rowWise.rowMem m i) i)
      (hvar : x.be.varSumR.toNat = cmd.varUpTo (cmd.rowWise.rowMem m i) i b)
      (ha : Arrived x (int8At (cmd.rowWise.rowMem m i) (cmd.inIdx i b))) : Phase x
  | varDiv {x i k} (hs : x.be.state = .varDiv) (hp : Scan cmd m x i 0)
      (hmean : x.be.meanR.toInt = cmd.mean (cmd.rowWise.rowMem m i) i)
      (hdiv : SerialArith.DivRun (cmd.varUpTo (cmd.rowWise.rowMem m i) i cmd.rowLen.toNat)
        cmd.rowLen.toNat k x.be.divR x.be.divDenomR x.be.divCntR) : Phase x
  | sqrt {x i k} (hs : x.be.state = .sqrt) (hp : Scan cmd m x i 0)
      (hmean : x.be.meanR.toInt = cmd.mean (cmd.rowWise.rowMem m i) i)
      (hcnt : x.be.sqrtCntR.toNat + k = 15)
      (hroot : SerialArith.SqrtInv (cmd.variance (cmd.rowWise.rowMem m i) i + 1) k (16 - k)
        x.be.sqrtR) : Phase x
  | normRd {x i j} (hs : x.be.state = .normRd) (he : AtElem cmd m x i j) : Phase x
  | normWait {x i j} (hs : x.be.state = .normWait) (he : AtElem cmd m x i j)
      (ha : Arrived x (cmd.rowWise.readAt m i j)) : Phase x
  | normDiv {x i j k} (hs : x.be.state = .normDiv) (he : AtElem cmd m x i j)
      (hsign : x.be.normSignR = decide (diffAt cmd m i j < 0))
      (hdiv : SerialArith.DivRun (numerAt cmd m i j) (cmd.sigma (cmd.rowWise.rowMem m i) i) k
        x.be.divR x.be.divDenomR x.be.divCntR) : Phase x
  | normWr {x i j} (hs : x.be.state = .normWr) (he : AtElem cmd m x i j)
      (hsign : x.be.normSignR = decide (diffAt cmd m i j < 0))
      (hquot : x.be.divR.quot.toNat =
        numerAt cmd m i j / cmd.sigma (cmd.rowWise.rowMem m i) i) : Phase x
  | done {x} (hs : x.be.state = .done)
      (hlog : x.log = cmd.rowWise.runWrites m cmd.numRows.toNat) : Phase x
  | idle {x} (hs : x.be.state = .idle)
      (hlog : x.log = cmd.rowWise.runWrites m cmd.numRows.toNat) : Phase x

structure Inv (x : Sys LnormCtrl) : Prop where
  act : x.mem.act = store m x.log
  phase : Phase cmd m x

/-! ## What one edge does to the system -/

section Edge

variable {cmd} {m} {x : Sys LnormCtrl} {g : Grants} {v : Bool} {i j b : ℕ}

def rspOf (g : Grants) (x : Sys LnormCtrl) : BeRsp := x.mem.beRsp (x.granted lnormBackend g)

theorem be_step : (x.step lnormBackend cmd v g).be = x.be.step cmd v (rspOf g x) := rfl

theorem rsp_gnt (hr : x.be.reading = true) : (rspOf g x).actRdGnt = g.act :=
  congrArg (· && g.act) hr

theorem arrived_valid {y : ℤ} (ha : Arrived x y) : (rspOf g x).actRdRvalid = true := ha.valid

theorem arrived_data {y : ℤ} (ha : Arrived x y) : (rspOf g x).actRdRdata.toInt = y := ha.data

theorem rspOf_wr (hs : x.be.state = .normWr) : (rspOf g x).outWrGnt = g.out := by
  simp [rspOf, NpuMemTop.beRsp, Sys.granted, BeReq.gate, lnormBackend, req, hs]

theorem log_step (hs : x.be.state ≠ .normWr) : (x.step lnormBackend cmd v g).log = x.log := by
  simp [Sys.step, Sys.granted, BeReq.gate, BeReq.write, lnormBackend, req, hs]

theorem log_step_wr (hs : x.be.state = .normWr) : (x.step lnormBackend cmd v g).log =
    if g.out then x.log ++ [(x.be.outRowBaseR + x.be.idxR, x.be.normResult)] else x.log := by
  cases hg : g.out <;>
    simp [Sys.step, Sys.granted, BeReq.gate, BeReq.write, lnormBackend, req, hs, hg]

theorem act_step (h : x.mem.act = store m x.log) : (x.step lnormBackend cmd v g).mem.act =
    store m (x.step lnormBackend cmd v g).log := by
  rw [Sys.step, act_step_eq_store, h, store_append]

/-- A granted read delivers the addressed element in the next cycle. -/
theorem arrived_step (hr : AtRow cmd x.be i) (hidx : x.be.idxR.toNat = j)
    (hread : x.be.reading = true) (hg : g.act = true) :
    Arrived (x.step lnormBackend cmd v g) (int8At x.mem.act (cmd.inIdx i j)) := by
  have haddr : (x.be.inRowBaseR + x.be.idxR).setWidth 13 = .ofNat 13 (cmd.inIdx i j) := by
    rw [hr.baseIn, ofNat_add_dim, hidx, inIdx]
    exact setWidth13_ofNat _
  have hreq : (x.granted lnormBackend g).actRdReq = true := by
    rw [Sys.granted, BeReq.gate, hg]
    simpa [lnormBackend, req] using hread
  have hra : (x.granted lnormBackend g).actRdAddr = x.be.inRowBaseR + x.be.idxR := by
    simp [Sys.granted, BeReq.gate, lnormBackend, req, hread]
  refine ⟨hreq, ?_⟩
  rw [Sys.step, NpuMemTop.actRdRdata_step, if_pos hreq, hra, haddr]
  rfl

theorem baseOut_add (hr : AtRow cmd x.be i) (hidx : x.be.idxR.toNat = j) :
    x.be.outRowBaseR + x.be.idxR = .ofNat 16 (cmd.outIdx i j) := by
  rw [hr.baseOut, ofNat_add_dim, hidx, outIdx]

theorem act_scan (h : x.mem.act = store m x.log) (hp : Scan cmd m x i b) :
    x.mem.act = cmd.rowWise.rowMem m i := by
  rw [h, hp.log, RowWise.logAt_zero, RowWise.rowMem]

theorem lastElem_iff (hL : 0 < cmd.rowLen.toNat) (hr : AtRow cmd x.be i)
    (hidx : x.be.idxR.toNat = j) : x.be.lastElem = true ↔ j + 1 = cmd.rowLen.toNat := by
  rw [lastElem, hr.loaded.rowLen, eqLast_iff hL, hidx]

theorem AtRow.congr {s s' : LnormCtrl} (h : AtRow cmd s i) (h1 : s'.numRowsR = s.numRowsR)
    (h2 : s'.rowLenR = s.rowLenR) (h3 : s'.normShiftR = s.normShiftR) (h4 : s'.rowR = s.rowR)
    (h5 : s'.inRowBaseR = s.inRowBaseR) (h6 : s'.outRowBaseR = s.outRowBaseR) : AtRow cmd s' i :=
  ⟨⟨h1.trans h.loaded.numRows, h2.trans h.loaded.rowLen, h3.trans h.loaded.shift⟩, h.lt,
    h4 ▸ h.row, h5.trans h.baseIn, h6.trans h.baseOut⟩

/-- A scanning pass moves to element `b'` without touching the row. -/
theorem Scan.of_step {b' : ℕ} (hp : Scan cmd m x i b) (hs : x.be.state ≠ .normWr) {st : LnormState}
    {ix : Dim} {sum mean : Acc} {var : BitVec 32} {std : BitVec 16} {d : SerialArith.DivRegs 32}
    {dd : BitVec 32} {dc : BitVec 5} {ds : Bool} {q : SerialArith.SqrtRegs 16} {qc : BitVec 5}
    (hbe : x.be.step cmd v (rspOf g x) =
      { x.be with
        state := st, idxR := ix, sumR := sum, meanR := mean, varSumR := var, stdR := std, divR := d,
        divDenomR := dd, divCntR := dc, divSignR := ds, sqrtR := q, sqrtCntR := qc })
    (hlt : b' < cmd.rowLen.toNat) (hix : ix.toNat = b') :
    Scan cmd m (x.step lnormBackend cmd v g) i b' := by
  refine ⟨?_, by rw [log_step hs, hp.log], hlt, ?_⟩ <;> rw [be_step, hbe]
  · exact hp.row.congr rfl rfl rfl rfl rfl rfl
  · exact hix

/-- The normalising pass stays at its element outside the write state. -/
theorem AtElem.of_step (he : AtElem cmd m x i j) (hs : x.be.state ≠ .normWr) {st : LnormState}
    {d : SerialArith.DivRegs 32} {dd : BitVec 32} {dc : BitVec 5} {ds ns : Bool}
    (hbe : x.be.step cmd v (rspOf g x) =
      { x.be with
        state := st, divR := d, divDenomR := dd, divCntR := dc, divSignR := ds,
        normSignR := ns }) :
    AtElem cmd m (x.step lnormBackend cmd v g) i j := by
  refine ⟨?_, by rw [log_step hs, he.log], he.lt, ?_, ?_, ?_⟩ <;> rw [be_step, hbe]
  · exact he.row.congr rfl rfl rfl rfl rfl rfl
  · exact he.idx
  · exact he.mean
  · exact he.std

end Edge

/-! ## One edge keeps the invariant -/

section Step

variable {cmd} {m} {x : Sys LnormCtrl} {i j b k : ℕ} (hL : 0 < cmd.rowLen.toNat) (g : Grants)
include hL

theorem abs_sumUpTo_le (hb : b ≤ cmd.rowLen.toNat) : |cmd.sumUpTo m i b| ≤ 2 ^ 30 := by
  have h := cmd.sumUpTo_bounds m i b
  have hlen := cmd.rowLen.isLt
  rw [abs_le]
  omega

omit hL in
theorem toNat_rowLen : (cmd.rowLen.setWidth 32).toNat = cmd.rowLen.toNat := by
  have := cmd.rowLen.isLt
  rw [BitVec.toNat_setWidth, Nat.mod_eq_of_lt (by omega)]

theorem phase_loadCfg (hrows : 0 < cmd.numRows.toNat) (hs : x.be.state = .loadCfg)
    (hl : Loaded cmd x.be) (hlog : x.log = []) :
    Phase cmd m (x.step lnormBackend cmd false g) := by
  have hbe : x.be.step cmd false (rspOf g x) = _ := step_loadCfg hs
  refine .sumRd (i := 0) (b := 0) (by rw [be_step, hbe]) ⟨?_, ?_, hL, ?_⟩ ?_ ?_
  · rw [be_step, hbe]
    exact ⟨⟨hl.numRows, hl.rowLen, hl.shift⟩, hrows, rfl, by simp, by simp⟩
  · rw [log_step (by simp [hs]), hlog]
    rfl
  · rw [be_step, hbe]
    rfl
  · rw [be_step, hbe]
    rfl
  · rw [be_step, hbe]

omit hL in
theorem phase_sumRd (h : x.mem.act = store m x.log) (hs : x.be.state = .sumRd)
    (hp : Scan cmd m x i b) (hsum : x.be.sumR.toInt = cmd.sumUpTo (cmd.rowWise.rowMem m i) i b)
    (hvar : x.be.varSumR = 0) : Phase cmd m (x.step lnormBackend cmd false g) := by
  have hbe : x.be.step cmd false (rspOf g x) = _ := step_sumRd hs
  have hread : x.be.reading = true := by rw [reading, hs]
  have hscan := hp.of_step (by simp [hs]) hbe hp.lt hp.idx
  cases hg : g.act with
  | false =>
      refine .sumRd (by rw [be_step, hbe, rsp_gnt hread, hg]; rfl) hscan ?_ ?_ <;>
        rwa [be_step, hbe]
  | true =>
      have ha := arrived_step (v := false) hp.row hp.idx hread hg
      rw [act_scan h hp] at ha
      refine .sumWait (by rw [be_step, hbe, rsp_gnt hread, hg]; rfl) hscan ?_ ?_ ha <;>
        rwa [be_step, hbe]

theorem phase_sumWait (hs : x.be.state = .sumWait) (hp : Scan cmd m x i b)
    (hsum : x.be.sumR.toInt = cmd.sumUpTo (cmd.rowWise.rowMem m i) i b) (hvar : x.be.varSumR = 0)
    (ha : Arrived x (int8At (cmd.rowWise.rowMem m i) (cmd.inIdx i b))) :
    Phase cmd m (x.step lnormBackend cmd false g) := by
  have hlast := lastElem_iff hL hp.row hp.idx
  have hfinal : (x.be.finalSum (rspOf g x)).toInt =
      cmd.sumUpTo (cmd.rowWise.rowMem m i) i (b + 1) := by
    rw [sumUpTo_succ]
    exact toInt_finalSum hsum (abs_sumUpTo_le hL hp.lt.le) (arrived_data ha)
  cases hl : x.be.lastElem with
  | false =>
      have hbe : x.be.step cmd false (rspOf g x) = _ := step_sumWait hs (arrived_valid ha) hl
      have hlt : b + 1 < cmd.rowLen.toNat := by
        have hne : b + 1 ≠ cmd.rowLen.toNat := by rw [Ne, ← hlast, hl]; simp
        have := hp.lt
        omega
      refine .sumRd (by rw [be_step, hbe])
        (hp.of_step (by simp [hs]) hbe hlt (toNat_succ_dim hp.idx hp.lt)) ?_ ?_ <;>
        rwa [be_step, hbe]
  | true =>
      have hbe : x.be.step cmd false (rspOf g x) = _ := step_sumWait_last hs (arrived_valid ha) hl
      rw [hlast.mp hl] at hfinal
      refine .meanDiv (i := i) (k := 0) (by rw [be_step, hbe])
        (hp.of_step (by simp [hs]) hbe hL rfl) (by rwa [be_step, hbe]) ?_ ?_
      · rw [be_step, hbe, ← hfinal]
        exact Signed.msb_eq (x.be.finalSum (rspOf g x))
      · rw [be_step, hbe]
        refine SerialArith.DivRun.start ?_ ?_
        · rw [Signed.toNat_magnitude, hfinal]
        · rw [hp.row.loaded.rowLen, toNat_rowLen]

theorem phase_meanDiv (hs : x.be.state = .meanDiv) (hp : Scan cmd m x i 0)
    (hvar : x.be.varSumR = 0)
    (hsign : x.be.divSignR = decide (cmd.sumUpTo (cmd.rowWise.rowMem m i) i cmd.rowLen.toNat < 0))
    (hdiv : SerialArith.DivRun
      (cmd.sumUpTo (cmd.rowWise.rowMem m i) i cmd.rowLen.toNat).natAbs cmd.rowLen.toNat k
      x.be.divR x.be.divDenomR x.be.divCntR) :
    Phase cmd m (x.step lnormBackend cmd false g) := by
  have hbe : x.be.step cmd false (rspOf g x) = _ := step_meanDiv hs
  have hscan := hp.of_step (by simp [hs]) hbe hL hp.idx
  have hlen := cmd.rowLen.isLt
  by_cases hzero : x.be.divCntR = 0
  · have hquot := hdiv.last hL (by omega) hzero
    refine .varRd (by rw [be_step, hbe]; exact if_pos hzero) hscan ?_ ?_
    · have hsmall : ((x.be.divR.next x.be.divDenomR).quot).toNat < 2 ^ 31 := by
        have habs := abs_sumUpTo_le (m := cmd.rowWise.rowMem m i) (i := i) hL le_rfl
        have hle := Nat.div_le_self
          (cmd.sumUpTo (cmd.rowWise.rowMem m i) i cmd.rowLen.toNat).natAbs cmd.rowLen.toNat
        rw [abs_le] at habs
        omega
      rw [be_step, hbe]
      simp only [if_pos hzero]
      rw [Signed.toInt_restore (w := 31) _ hsmall, hquot, hsign, mean, Signed.tdiv_natCast]
      simp only [decide_eq_true_eq]
    · rw [be_step, hbe, hvar]
      rfl
  · refine .meanDiv (by rw [be_step, hbe]; exact if_neg hzero) hscan ?_ ?_ ?_ (k := k + 1) <;>
      rw [be_step, hbe]
    · exact hvar
    · exact hsign
    · exact hdiv.next hL (by omega) hzero

omit hL in
theorem phase_varRd (h : x.mem.act = store m x.log) (hs : x.be.state = .varRd)
    (hp : Scan cmd m x i b) (hmean : x.be.meanR.toInt = cmd.mean (cmd.rowWise.rowMem m i) i)
    (hvar : x.be.varSumR.toNat = cmd.varUpTo (cmd.rowWise.rowMem m i) i b) :
    Phase cmd m (x.step lnormBackend cmd false g) := by
  have hbe : x.be.step cmd false (rspOf g x) = _ := step_varRd hs
  have hread : x.be.reading = true := by rw [reading, hs]
  have hscan := hp.of_step (by simp [hs]) hbe hp.lt hp.idx
  cases hg : g.act with
  | false =>
      refine .varRd (by rw [be_step, hbe, rsp_gnt hread, hg]; rfl) hscan ?_ ?_ <;>
        rwa [be_step, hbe]
  | true =>
      have ha := arrived_step (v := false) hp.row hp.idx hread hg
      rw [act_scan h hp] at ha
      refine .varWait (by rw [be_step, hbe, rsp_gnt hread, hg]; rfl) hscan ?_ ?_ ha <;>
        rwa [be_step, hbe]

theorem phase_varWait (hs : x.be.state = .varWait) (hp : Scan cmd m x i b)
    (hmean : x.be.meanR.toInt = cmd.mean (cmd.rowWise.rowMem m i) i)
    (hvar : x.be.varSumR.toNat = cmd.varUpTo (cmd.rowWise.rowMem m i) i b)
    (ha : Arrived x (int8At (cmd.rowWise.rowMem m i) (cmd.inIdx i b))) :
    Phase cmd m (x.step lnormBackend cmd false g) := by
  have hlast := lastElem_iff hL hp.row hp.idx
  have hlen := cmd.rowLen.isLt
  have hsq := toNat_absDiffSqW hmean (cmd.mean_bounds _ hL i) (arrived_data (g := g) ha)
  have hbound : cmd.varUpTo (cmd.rowWise.rowMem m i) i (b + 1) < 2 ^ 32 := by
    have := cmd.varUpTo_le (cmd.rowWise.rowMem m i) hL i (b + 1)
    have := hp.lt
    omega
  rw [varUpTo_succ] at hbound
  have hfinal := toNat_finalVar hvar hsq hbound
  rw [← varUpTo_succ] at hfinal
  cases hl : x.be.lastElem with
  | false =>
      have hbe : x.be.step cmd false (rspOf g x) = _ := step_varWait hs (arrived_valid ha) hl
      have hlt : b + 1 < cmd.rowLen.toNat := by
        have hne : b + 1 ≠ cmd.rowLen.toNat := by rw [Ne, ← hlast, hl]; simp
        have := hp.lt
        omega
      refine .varRd (by rw [be_step, hbe])
        (hp.of_step (by simp [hs]) hbe hlt (toNat_succ_dim hp.idx hp.lt)) ?_ ?_ <;>
        rw [be_step, hbe]
      · exact hmean
      · exact hfinal.2
  | true =>
      have hbe : x.be.step cmd false (rspOf g x) = _ := step_varWait_last hs (arrived_valid ha) hl
      rw [hlast.mp hl] at hfinal
      refine .varDiv (i := i) (k := 0) (by rw [be_step, hbe])
        (hp.of_step (by simp [hs]) hbe hL rfl) (by rwa [be_step, hbe]) ?_
      rw [be_step, hbe]
      refine SerialArith.DivRun.start hfinal.1 ?_
      rw [hp.row.loaded.rowLen, toNat_rowLen]

theorem phase_varDiv (hs : x.be.state = .varDiv) (hp : Scan cmd m x i 0)
    (hmean : x.be.meanR.toInt = cmd.mean (cmd.rowWise.rowMem m i) i)
    (hdiv : SerialArith.DivRun (cmd.varUpTo (cmd.rowWise.rowMem m i) i cmd.rowLen.toNat)
      cmd.rowLen.toNat k x.be.divR x.be.divDenomR x.be.divCntR) :
    Phase cmd m (x.step lnormBackend cmd false g) := by
  have hbe : x.be.step cmd false (rspOf g x) = _ := step_varDiv hs
  have hscan := hp.of_step (by simp [hs]) hbe hL hp.idx
  have hlen := cmd.rowLen.isLt
  by_cases hzero : x.be.divCntR = 0
  · have hquot : (x.be.divR.next x.be.divDenomR).quot.toNat =
        cmd.variance (cmd.rowWise.rowMem m i) i := hdiv.last hL (by omega) hzero
    have hvar := cmd.variance_le (cmd.rowWise.rowMem m i) hL i
    have hinput : ((x.be.divR.next x.be.divDenomR).quot + 1).toNat =
        cmd.variance (cmd.rowWise.rowMem m i) i + 1 := by
      rw [toNat_add_one (by omega), hquot]
    refine .sqrt (k := 0) (by rw [be_step, hbe]; exact if_pos hzero) hscan ?_ ?_ ?_ <;>
      rw [be_step, hbe]
    · exact hmean
    · simp only [if_pos hzero]
      rfl
    · simp only [if_pos hzero]
      rw [← hinput]
      exact SerialArith.SqrtInv.init
  · refine .varDiv (by rw [be_step, hbe]; exact if_neg hzero) hscan ?_ ?_ (k := k + 1) <;>
      rw [be_step, hbe]
    · exact hmean
    · exact hdiv.next hL (by omega) hzero

theorem phase_sqrt (hs : x.be.state = .sqrt) (hp : Scan cmd m x i 0)
    (hmean : x.be.meanR.toInt = cmd.mean (cmd.rowWise.rowMem m i) i)
    (hcnt : x.be.sqrtCntR.toNat + k = 15)
    (hroot : SerialArith.SqrtInv (cmd.variance (cmd.rowWise.rowMem m i) i + 1) k (16 - k)
      x.be.sqrtR) : Phase cmd m (x.step lnormBackend cmd false g) := by
  have hbe : x.be.step cmd false (rspOf g x) = _ := step_sqrt hs
  have hscan := hp.of_step (by simp [hs]) hbe hL hp.idx
  have hvar := cmd.variance_le (cmd.rowWise.rowMem m i) hL i
  have hnext := hroot.advance (by omega) (by omega) (by omega)
  by_cases hzero : x.be.sqrtCntR = 0
  · have hk : k = 15 := by
      rw [hzero] at hcnt
      simpa using hcnt
    rw [hk] at hnext
    have hres : x.be.sqrtR.next.result.toNat = cmd.sigma (cmd.rowWise.rowMem m i) i :=
      hnext.final.1
    have hne : x.be.sqrtR.next.result ≠ 0 := by
      intro h0
      have hpos := cmd.sigma_pos (cmd.rowWise.rowMem m i) i
      rw [← hres, h0] at hpos
      exact absurd hpos (by simp)
    refine .normRd (j := 0) (by rw [be_step, hbe]; exact if_pos hzero)
      ⟨hscan.row, hscan.log, hL, hscan.idx, ?_, ?_⟩ <;> rw [be_step, hbe]
    · exact hmean
    · simp only [if_pos hzero, if_neg hne]
      exact hres
  · have hpos : 0 < x.be.sqrtCntR.toNat :=
      Nat.pos_of_ne_zero fun h ↦ hzero (BitVec.eq_of_toNat_eq h)
    have hone : (1 : BitVec 5).toNat = 1 := rfl
    have hlt := x.be.sqrtCntR.isLt
    refine .sqrt (k := k + 1) (by rw [be_step, hbe]; exact if_neg hzero) hscan ?_ ?_ ?_ <;>
      rw [be_step, hbe]
    · exact hmean
    · simp only [BitVec.toNat_sub, hone]
      omega
    · exact hnext

omit hL in
theorem phase_normRd (h : x.mem.act = store m x.log) (hs : x.be.state = .normRd)
    (he : AtElem cmd m x i j) : Phase cmd m (x.step lnormBackend cmd false g) := by
  have hbe : x.be.step cmd false (rspOf g x) = _ := step_normRd hs
  have hread : x.be.reading = true := by rw [reading, hs]
  have hel := he.of_step (by simp [hs]) hbe
  cases hg : g.act with
  | false => exact .normRd (by rw [be_step, hbe, rsp_gnt hread, hg]; rfl) hel
  | true =>
      have ha := arrived_step (v := false) he.row he.idx hread hg
      rw [h, he.log] at ha
      exact .normWait (by rw [be_step, hbe, rsp_gnt hread, hg]; rfl) hel ha

theorem phase_normWait (hs : x.be.state = .normWait) (he : AtElem cmd m x i j)
    (ha : Arrived x (cmd.rowWise.readAt m i j)) :
    Phase cmd m (x.step lnormBackend cmd false g) := by
  have hbe : x.be.step cmd false (rspOf g x) = _ := step_normWait hs (arrived_valid ha)
  have hmu := cmd.mean_bounds (cmd.rowWise.rowMem m i) hL i
  refine .normDiv (k := 0) (by rw [be_step, hbe]) (he.of_step (by simp [hs]) hbe) ?_ ?_ <;>
    rw [be_step, hbe]
  · simp only
    rw [Signed.msb_eq, toInt_diffW he.mean hmu (arrived_data ha), diffAt]
  · refine SerialArith.DivRun.start ?_ ?_
    · rw [toNat_scaledAbsW he.mean hmu (arrived_data ha), he.row.loaded.shift, numerAt, diffAt]
    · have := x.be.stdR.isLt
      rw [BitVec.toNat_setWidth, he.std, Nat.mod_eq_of_lt (by have := he.std; omega)]

omit hL in
theorem sigma_lt (he : AtElem cmd m x i j) : cmd.sigma (cmd.rowWise.rowMem m i) i < 2 ^ 16 :=
  he.std ▸ x.be.stdR.isLt

omit hL in
theorem phase_normDiv (hs : x.be.state = .normDiv) (he : AtElem cmd m x i j)
    (hsign : x.be.normSignR = decide (diffAt cmd m i j < 0))
    (hdiv : SerialArith.DivRun (numerAt cmd m i j) (cmd.sigma (cmd.rowWise.rowMem m i) i) k
      x.be.divR x.be.divDenomR x.be.divCntR) :
    Phase cmd m (x.step lnormBackend cmd false g) := by
  have hbe : x.be.step cmd false (rspOf g x) = _ := step_normDiv hs
  have hel := he.of_step (by simp [hs]) hbe
  have hpos := cmd.sigma_pos (cmd.rowWise.rowMem m i) i
  have hlt := sigma_lt he
  by_cases hzero : x.be.divCntR = 0
  · refine .normWr (by rw [be_step, hbe]; exact if_pos hzero) hel ?_ ?_ <;> rw [be_step, hbe]
    · exact hsign
    · exact hdiv.last hpos (by omega) hzero
  · refine .normDiv (k := k + 1) (by rw [be_step, hbe]; exact if_neg hzero) hel ?_ ?_ <;>
      rw [be_step, hbe]
    · exact hsign
    · exact hdiv.next hpos (by omega) hzero

omit hL in
theorem normResult_at (hsign : x.be.normSignR = decide (diffAt cmd m i j < 0))
    (hquot : x.be.divR.quot.toNat = numerAt cmd m i j / cmd.sigma (cmd.rowWise.rowMem m i) i) :
    x.be.normResult = cmd.rowWise.val (cmd.rowWise.stat (cmd.rowWise.rowMem m i) i)
      (cmd.rowWise.readAt m i j) := by
  change _ = BitVec.ofInt 8 (Signed.sat8 ((diffAt cmd m i j).sign *
    (numerAt cmd m i j / cmd.sigma (cmd.rowWise.rowMem m i) i : ℕ)))
  rw [normResult_eq hquot hsign]
  congr 2
  simp only [decide_eq_true_eq]
  rcases lt_trichotomy (diffAt cmd m i j) 0 with hneg | hzero | hpos
  · rw [if_pos hneg, Int.sign_eq_neg_one_of_neg hneg, neg_one_mul]
  · rw [if_neg (by omega), numerAt, hzero]
    simp
  · rw [if_neg (by omega), Int.sign_eq_one_of_pos hpos, one_mul]

theorem phase_normWr (hs : x.be.state = .normWr) (he : AtElem cmd m x i j)
    (hsign : x.be.normSignR = decide (diffAt cmd m i j < 0))
    (hquot : x.be.divR.quot.toNat = numerAt cmd m i j / cmd.sigma (cmd.rowWise.rowMem m i) i) :
    Phase cmd m (x.step lnormBackend cmd false g) := by
  have hgnt := rspOf_wr (g := g) hs
  have hlog : (x.step lnormBackend cmd false g).log = _ := log_step_wr hs
  cases hg : g.out with
  | false =>
      have hbe : x.be.step cmd false (rspOf g x) = _ := step_normWr_hold hs (by rw [hgnt, hg])
      rw [hg, if_neg Bool.false_ne_true] at hlog
      refine .normWr (i := i) (j := j) (by rw [be_step, hbe, hs])
        ⟨?_, by rw [hlog, he.log], he.lt, ?_, ?_, ?_⟩ ?_ ?_ <;> rw [be_step, hbe]
      exacts [he.row, he.idx, he.mean, he.std, hsign, hquot]
  | true =>
      rw [hg] at hgnt
      have hsucc : x.log ++ [(x.be.outRowBaseR + x.be.idxR, x.be.normResult)] =
          cmd.rowWise.logAt m i (j + 1) := by
        rw [he.log, baseOut_add he.row he.idx, normResult_at hsign hquot]
        exact (cmd.rowWise.logAt_succ m i j).symm
      rw [hg, if_pos rfl, hsucc] at hlog
      have hlast := lastElem_iff hL he.row he.idx
      cases hl : x.be.lastElem with
      | false =>
          have hlt : j + 1 < cmd.rowLen.toNat := by
            have hne : j + 1 ≠ cmd.rowLen.toNat := by rw [Ne, ← hlast, hl]; simp
            have := he.lt
            omega
          have hbe : x.be.step cmd false (rspOf g x) = _ := step_normWr_elem hs hgnt hl
          refine .normRd (i := i) (j := j + 1) (by rw [be_step, hbe])
            ⟨?_, hlog, hlt, ?_, ?_, ?_⟩ <;> rw [be_step, hbe]
          · exact he.row.congr rfl rfl rfl rfl rfl rfl
          · exact toNat_succ_dim he.idx he.lt
          · exact he.mean
          · exact he.std
      | true =>
          rw [hlast.mp hl] at hlog
          have hrows : 0 < cmd.numRows.toNat := Nat.zero_lt_of_lt he.row.lt
          have hrow : eqLast x.be.rowR x.be.numRowsR = true ↔ i + 1 = cmd.numRows.toNat := by
            rw [he.row.loaded.numRows, eqLast_iff hrows, he.row.row]
          have hrowlt : ltLast x.be.rowR x.be.numRowsR = true ↔ i + 1 < cmd.numRows.toNat := by
            rw [he.row.loaded.numRows, ltLast_iff hrows, he.row.row]
          cases hr : eqLast x.be.rowR x.be.numRowsR with
          | true =>
              refine .done (by rw [be_step, step_normWr_last hs hgnt hl hr]) ?_
              rw [hlog, ← hrow.mp hr]
              exact cmd.rowWise.logAt_row m i
          | false =>
              have hlt : i + 1 < cmd.numRows.toNat := by
                have hne : i + 1 ≠ cmd.numRows.toNat := by rw [Ne, ← hrow, hr]; simp
                have := he.row.lt
                omega
              have hbe : x.be.step cmd false (rspOf g x) = _ :=
                step_normWr_row hs hgnt hl hr (hrowlt.mpr hlt)
              have hbase : ∀ base : Addr, BitVec.ofNat 16 (base.toNat + i * cmd.rowLen.toNat) +
                  cmd.rowLen = .ofNat 16 (base.toNat + (i + 1) * cmd.rowLen.toNat) := by
                intro base
                rw [Nat.succ_mul, ← Nat.add_assoc, ofNat_add_dim]
              refine .sumRd (i := i + 1) (b := 0) (by rw [be_step, hbe])
                ⟨?_, by rw [hlog, RowWise.logAt_zero]; exact cmd.rowWise.logAt_row m i, hL, ?_⟩
                ?_ ?_ <;> rw [be_step, hbe]
              · exact ⟨⟨he.row.loaded.numRows, he.row.loaded.rowLen, he.row.loaded.shift⟩, hlt,
                  toNat_succ_dim he.row.row he.row.lt,
                  by simp only [he.row.baseIn, he.row.loaded.rowLen, hbase],
                  by simp only [he.row.baseOut, he.row.loaded.rowLen, hbase]⟩
              · rfl
              · rfl

theorem Inv.step (hrows : 0 < cmd.numRows.toNat) (h : Inv cmd m x) :
    Inv cmd m (x.step lnormBackend cmd false g) := by
  refine ⟨act_step h.act, ?_⟩
  rcases h.phase with ⟨hs, hl, hlog⟩ | ⟨hs, hp, hsum, hvar⟩ | ⟨hs, hp, hsum, hvar, ha⟩ |
    ⟨hs, hp, hvar, hsign, hdiv⟩ | ⟨hs, hp, hmean, hvar⟩ | ⟨hs, hp, hmean, hvar, ha⟩ |
    ⟨hs, hp, hmean, hdiv⟩ | ⟨hs, hp, hmean, hcnt, hroot⟩ | ⟨hs, he⟩ | ⟨hs, he, ha⟩ |
    ⟨hs, he, hsign, hdiv⟩ | ⟨hs, he, hsign, hquot⟩ | ⟨hs, hlog⟩ | ⟨hs, hlog⟩
  · exact phase_loadCfg hL g hrows hs hl hlog
  · exact phase_sumRd g h.act hs hp hsum hvar
  · exact phase_sumWait hL g hs hp hsum hvar ha
  · exact phase_meanDiv hL g hs hp hvar hsign hdiv
  · exact phase_varRd g h.act hs hp hmean hvar
  · exact phase_varWait hL g hs hp hmean hvar ha
  · exact phase_varDiv hL g hs hp hmean hdiv
  · exact phase_sqrt hL g hs hp hmean hcnt hroot
  · exact phase_normRd g h.act hs he
  · exact phase_normWait hL g hs he ha
  · exact phase_normDiv g hs he hsign hdiv
  · exact phase_normWr hL g hs he hsign hquot
  · exact .idle (by rw [be_step, step_done_state hs]) (by rw [log_step (by simp [hs]), hlog])
  · exact .idle (by rw [be_step, step_idle_state hs]) (by rw [log_step (by simp [hs]), hlog])

end Step

/-- Accepting a command in the idle state establishes the invariant, whatever
the registers held. -/
theorem Inv.accept {x : Sys LnormCtrl} (hs : x.be.state = .idle) (hlog : x.log = [])
    (g : Grants) : Inv cmd x.mem.act (x.step lnormBackend cmd true g) := by
  have hbe : x.be.step cmd true (rspOf g x) = _ := step_accept hs
  have hlog' : (x.step lnormBackend cmd true g).log = [] := by
    rw [log_step (by simp [hs]), hlog]
  refine ⟨act_step (by simp [hlog]), .loadCfg (by rw [be_step, hbe]) ?_ hlog'⟩
  rw [be_step, hbe]
  exact ⟨rfl, rfl, rfl⟩

end LnormCtrl

end LgNpu
