import LgNpu.System
import LgNpu.Lib.SerialArith

/-!
# The layer normalisation controller

`lnorm_ctrl`: a sum pass, a variance pass and a normalising pass over each
row, with one serial divider for all three divisions and a serial square root.
`lnorm_composite` only ties off the unused ports.
-/

namespace LgNpu

inductive LnormState
  | idle | loadCfg | sumRd | sumWait | meanDiv | varRd | varWait | varDiv | sqrt
  | normRd | normWait | normDiv | normWr | done
  deriving DecidableEq

structure LnormCtrl where
  state : LnormState
  numRowsR : Dim
  rowLenR : Dim
  normShiftR : BitVec 5
  rowR : Dim
  inRowBaseR : Addr
  outRowBaseR : Addr
  idxR : Dim
  sumR : Acc
  meanR : Acc
  varSumR : BitVec 32
  stdR : BitVec 16
  divR : SerialArith.DivRegs 32
  divDenomR : BitVec 32
  divCntR : BitVec 5
  divSignR : Bool
  sqrtR : SerialArith.SqrtRegs 16
  sqrtCntR : BitVec 5
  normSignR : Bool

def LnormCtrl.reset : LnormCtrl where
  state := .idle
  numRowsR := 0
  rowLenR := 0
  normShiftR := 0
  rowR := 0
  inRowBaseR := 0
  outRowBaseR := 0
  idxR := 0
  sumR := 0
  meanR := 0
  varSumR := 0
  stdR := 1
  divR := ⟨0, 0⟩
  divDenomR := 0
  divCntR := 0
  divSignR := false
  sqrtR := ⟨0, 0, 0⟩
  sqrtCntR := 0
  normSignR := false

namespace LnormCtrl

variable (s : LnormCtrl)

/-! ## Wires -/

def diffW (rsp : BeRsp) : BitVec 32 := rsp.actRdRdata.signExtend 32 - s.meanR

def absDiffW (rsp : BeRsp) : BitVec 32 :=
  if (s.diffW rsp).msb then -s.diffW rsp else s.diffW rsp

def absDiffNarrowW (rsp : BeRsp) : BitVec 16 := (s.absDiffW rsp).setWidth 16

def absDiffSqW (rsp : BeRsp) : BitVec 32 :=
  (s.absDiffNarrowW rsp).setWidth 32 * (s.absDiffNarrowW rsp).setWidth 32

def wideScaledW (rsp : BeRsp) : BitVec 40 := (s.absDiffW rsp).setWidth 40 <<< s.normShiftR

def scaledAbsW (rsp : BeRsp) : BitVec 32 :=
  if s.wideScaledW rsp >>> 32 ≠ 0 then 0xFFFFFFFF else (s.wideScaledW rsp).setWidth 32

/-- The sum including the element arriving now. -/
def finalSum (rsp : BeRsp) : Acc := s.sumR + rsp.actRdRdata.signExtend 32

/-- The saturated sum of squares including the element arriving now. -/
def finalVar (rsp : BeRsp) : BitVec 32 :=
  if (s.varSumR.setWidth 64 + (s.absDiffSqW rsp).setWidth 64) >>> 32 ≠ 0 then 0xFFFFFFFF
  else (s.varSumR.setWidth 64 + (s.absDiffSqW rsp).setWidth 64).setWidth 32

def normResult : Byte :=
  if s.normSignR then
    if (128 : BitVec 32).ult s.divR.quot then 0x80 else -s.divR.quot.setWidth 8
  else
    if (127 : BitVec 32).ult s.divR.quot then 127 else s.divR.quot.setWidth 8

/-! ## Ports -/

/-- The three states that request an element. -/
def reading : Bool :=
  match s.state with
  | .sumRd => true
  | .varRd => true
  | .normRd => true
  | _ => false

def req : BeReq where
  actRdAddr := if s.reading then s.inRowBaseR + s.idxR else 0
  actRdReq := s.reading
  wtRdAddr := 0
  wtRdReq := false
  outWrAddr := s.outRowBaseR + s.idxR
  outWrData := s.normResult
  outWrReq := s.state = .normWr
  biasRdAddr := 0
  biasRdReq := false

/-! ## Clock edge -/

def lastElem : Bool := eqLast s.idxR s.rowLenR

def stateNext (cmdValid : Bool) (rsp : BeRsp) : LnormState :=
  match s.state with
  | .idle => if cmdValid then .loadCfg else .idle
  | .loadCfg => .sumRd
  | .sumRd => if rsp.actRdGnt then .sumWait else .sumRd
  | .sumWait => if rsp.actRdRvalid then (if s.lastElem then .meanDiv else .sumRd) else .sumWait
  | .meanDiv => if s.divCntR = 0 then .varRd else .meanDiv
  | .varRd => if rsp.actRdGnt then .varWait else .varRd
  | .varWait => if rsp.actRdRvalid then (if s.lastElem then .varDiv else .varRd) else .varWait
  | .varDiv => if s.divCntR = 0 then .sqrt else .varDiv
  | .sqrt => if s.sqrtCntR = 0 then .normRd else .sqrt
  | .normRd => if rsp.actRdGnt then .normWait else .normRd
  | .normWait => if rsp.actRdRvalid then .normDiv else .normWait
  | .normDiv => if s.divCntR = 0 then .normWr else .normDiv
  | .normWr =>
      if rsp.outWrGnt then
        if s.lastElem then (if eqLast s.rowR s.numRowsR then .done else .sumRd) else .normRd
      else .normWr
  | .done => .idle

/-- The output write is granted in this cycle. -/
def written (rsp : BeRsp) : Prop := s.state = .normWr ∧ rsp.outWrGnt = true

instance (rsp : BeRsp) : Decidable (s.written rsp) := inferInstanceAs (Decidable (_ ∧ _))

/-- The last write of a row that another row follows. -/
def rowDone (rsp : BeRsp) : Prop :=
  s.written rsp ∧ s.lastElem = true ∧ ltLast s.rowR s.numRowsR = true

instance (rsp : BeRsp) : Decidable (s.rowDone rsp) := inferInstanceAs (Decidable (_ ∧ _))

/-- An element of the first or second pass has arrived. -/
def scanned (rsp : BeRsp) : Prop :=
  (s.state = .sumWait ∨ s.state = .varWait) ∧ rsp.actRdRvalid = true

instance (rsp : BeRsp) : Decidable (s.scanned rsp) := inferInstanceAs (Decidable (_ ∧ _))

def dividing : Prop := s.state = .meanDiv ∨ s.state = .varDiv ∨ s.state = .normDiv

instance : Decidable s.dividing := inferInstanceAs (Decidable (_ ∨ _ ∨ _))

/-- A division is loaded: of the sum, of the variance sum, or of an element. -/
def divStart (rsp : BeRsp) : Prop :=
  (s.scanned rsp ∧ s.lastElem = true) ∨ (s.state = .normWait ∧ rsp.actRdRvalid = true)

instance (rsp : BeRsp) : Decidable (s.divStart rsp) := inferInstanceAs (Decidable (_ ∨ _))

def step (cmd : LnormCmd) (cmdValid : Bool) (rsp : BeRsp) : LnormCtrl where
  state := s.stateNext cmdValid rsp
  numRowsR := if s.state = .idle ∧ cmdValid then cmd.numRows else s.numRowsR
  rowLenR := if s.state = .idle ∧ cmdValid then cmd.rowLen else s.rowLenR
  normShiftR := if s.state = .idle ∧ cmdValid then cmd.normShift else s.normShiftR
  rowR := if s.state = .loadCfg then 0 else if s.rowDone rsp then s.rowR + 1 else s.rowR
  -- The base addresses come from the command one cycle after it was accepted.
  inRowBaseR :=
    if s.state = .loadCfg then cmd.inAddr
    else if s.rowDone rsp then s.inRowBaseR + s.rowLenR else s.inRowBaseR
  outRowBaseR :=
    if s.state = .loadCfg then cmd.outAddr
    else if s.rowDone rsp then s.outRowBaseR + s.rowLenR else s.outRowBaseR
  idxR :=
    if s.state = .loadCfg then 0
    else if s.scanned rsp ∨ s.written rsp then (if s.lastElem then 0 else s.idxR + 1)
    else s.idxR
  sumR :=
    if s.state = .loadCfg ∨ s.rowDone rsp then 0
    else if s.state = .sumWait ∧ rsp.actRdRvalid then s.finalSum rsp
    else s.sumR
  varSumR :=
    if s.state = .loadCfg ∨ s.rowDone rsp then 0
    else if s.state = .varWait ∧ rsp.actRdRvalid then s.varSumR + s.absDiffSqW rsp
    else s.varSumR
  divR :=
    if s.divStart rsp then
      if s.state = .sumWait then
        ⟨if (s.finalSum rsp).msb then -s.finalSum rsp else s.finalSum rsp, 0⟩
      else if s.state = .varWait then ⟨s.finalVar rsp, 0⟩
      else ⟨s.scaledAbsW rsp, 0⟩
    else if s.dividing then s.divR.next s.divDenomR
    else s.divR
  divDenomR :=
    if s.divStart rsp then
      (if s.state = .normWait then s.stdR.setWidth 32 else s.rowLenR.setWidth 32)
    else s.divDenomR
  divCntR :=
    if s.divStart rsp then 31
    else if s.dividing then s.divCntR - 1
    else s.divCntR
  divSignR :=
    if s.divStart rsp then (if s.state = .sumWait then (s.finalSum rsp).msb else false)
    else s.divSignR
  normSignR := if s.state = .normWait ∧ rsp.actRdRvalid then (s.diffW rsp).msb else s.normSignR
  meanR :=
    if s.state = .meanDiv ∧ s.divCntR = 0 then
      if s.divSignR then -(s.divR.next s.divDenomR).quot else (s.divR.next s.divDenomR).quot
    else s.meanR
  sqrtR :=
    if s.state = .varDiv ∧ s.divCntR = 0 then ⟨(s.divR.next s.divDenomR).quot + 1, 0, 0⟩
    else if s.state = .sqrt then s.sqrtR.next
    else s.sqrtR
  sqrtCntR :=
    if s.state = .varDiv ∧ s.divCntR = 0 then 15
    else if s.state = .sqrt then s.sqrtCntR - 1
    else s.sqrtCntR
  stdR :=
    if s.state = .sqrt ∧ s.sqrtCntR = 0 then
      (if s.sqrtR.next.result = 0 then 1 else s.sqrtR.next.result)
    else s.stdR

end LnormCtrl

/-- `lnorm_composite` around `lnorm_ctrl`. -/
def lnormBackend : Backend LnormCtrl LnormCmd where
  req := LnormCtrl.req
  cmdReady s := s.state = .idle
  done s := s.state = .done
  busy s := s.state ≠ .idle
  step := LnormCtrl.step

namespace LnormCtrl

variable {s : LnormCtrl} {cmd : LnormCmd} {v : Bool} {rsp : BeRsp}

/-! ## What one edge does in each state -/

theorem step_idle_state (h : s.state = .idle) : (s.step cmd false rsp).state = .idle := by
  simp [step, stateNext, h]

theorem step_accept (h : s.state = .idle) : s.step cmd true rsp =
    { s with
      state := .loadCfg, numRowsR := cmd.numRows, rowLenR := cmd.rowLen,
      normShiftR := cmd.normShift } := by
  simp [step, stateNext, rowDone, written, scanned, divStart, dividing, h]

theorem step_loadCfg (h : s.state = .loadCfg) : s.step cmd v rsp =
    { s with
      state := .sumRd, rowR := 0, inRowBaseR := cmd.inAddr, outRowBaseR := cmd.outAddr, idxR := 0,
      sumR := 0, varSumR := 0 } := by
  simp [step, stateNext, scanned, divStart, dividing, h]

theorem step_sumRd (h : s.state = .sumRd) : s.step cmd v rsp =
    { s with state := if rsp.actRdGnt then .sumWait else .sumRd } := by
  simp [step, stateNext, rowDone, written, scanned, divStart, dividing, h]

theorem step_sumWait (h : s.state = .sumWait) (hv : rsp.actRdRvalid = true)
    (hl : s.lastElem = false) : s.step cmd v rsp =
    { s with state := .sumRd, idxR := s.idxR + 1, sumR := s.finalSum rsp } := by
  simp [step, stateNext, rowDone, written, scanned, divStart, dividing, h, hv, hl]

theorem step_sumWait_last (h : s.state = .sumWait) (hv : rsp.actRdRvalid = true)
    (hl : s.lastElem = true) : s.step cmd v rsp =
    { s with
      state := .meanDiv, idxR := 0, sumR := s.finalSum rsp
      divR := ⟨if (s.finalSum rsp).msb then -s.finalSum rsp else s.finalSum rsp, 0⟩
      divDenomR := s.rowLenR.setWidth 32, divCntR := 31, divSignR := (s.finalSum rsp).msb } := by
  simp [step, stateNext, rowDone, written, scanned, divStart, h, hv, hl]

theorem step_meanDiv (h : s.state = .meanDiv) : s.step cmd v rsp =
    { s with
      state := if s.divCntR = 0 then .varRd else .meanDiv
      divR := s.divR.next s.divDenomR
      divCntR := s.divCntR - 1
      meanR :=
        if s.divCntR = 0 then
          if s.divSignR then -(s.divR.next s.divDenomR).quot else (s.divR.next s.divDenomR).quot
        else s.meanR } := by
  simp [step, stateNext, rowDone, written, scanned, divStart, dividing, h]

theorem step_varRd (h : s.state = .varRd) : s.step cmd v rsp =
    { s with state := if rsp.actRdGnt then .varWait else .varRd } := by
  simp [step, stateNext, rowDone, written, scanned, divStart, dividing, h]

theorem step_varWait (h : s.state = .varWait) (hv : rsp.actRdRvalid = true)
    (hl : s.lastElem = false) : s.step cmd v rsp =
    { s with
      state := .varRd, idxR := s.idxR + 1, varSumR := s.varSumR + s.absDiffSqW rsp } := by
  simp [step, stateNext, rowDone, written, scanned, divStart, dividing, h, hv, hl]

theorem step_varWait_last (h : s.state = .varWait) (hv : rsp.actRdRvalid = true)
    (hl : s.lastElem = true) : s.step cmd v rsp =
    { s with
      state := .varDiv, idxR := 0, varSumR := s.varSumR + s.absDiffSqW rsp
      divR := ⟨s.finalVar rsp, 0⟩, divDenomR := s.rowLenR.setWidth 32, divCntR := 31,
      divSignR := false } := by
  simp [step, stateNext, rowDone, written, scanned, divStart, h, hv, hl]

theorem step_varDiv (h : s.state = .varDiv) : s.step cmd v rsp =
    { s with
      state := if s.divCntR = 0 then .sqrt else .varDiv
      divR := s.divR.next s.divDenomR
      divCntR := s.divCntR - 1
      sqrtR := if s.divCntR = 0 then ⟨(s.divR.next s.divDenomR).quot + 1, 0, 0⟩ else s.sqrtR
      sqrtCntR := if s.divCntR = 0 then 15 else s.sqrtCntR } := by
  simp [step, stateNext, rowDone, written, scanned, divStart, dividing, h]

theorem step_sqrt (h : s.state = .sqrt) : s.step cmd v rsp =
    { s with
      state := if s.sqrtCntR = 0 then .normRd else .sqrt
      sqrtR := s.sqrtR.next
      sqrtCntR := s.sqrtCntR - 1
      stdR :=
        if s.sqrtCntR = 0 then (if s.sqrtR.next.result = 0 then 1 else s.sqrtR.next.result)
        else s.stdR } := by
  simp [step, stateNext, rowDone, written, scanned, divStart, dividing, h]

theorem step_normRd (h : s.state = .normRd) : s.step cmd v rsp =
    { s with state := if rsp.actRdGnt then .normWait else .normRd } := by
  simp [step, stateNext, rowDone, written, scanned, divStart, dividing, h]

theorem step_normWait (h : s.state = .normWait) (hv : rsp.actRdRvalid = true) :
    s.step cmd v rsp =
    { s with
      state := .normDiv, divR := ⟨s.scaledAbsW rsp, 0⟩, divDenomR := s.stdR.setWidth 32,
      divCntR := 31, divSignR := false, normSignR := (s.diffW rsp).msb } := by
  simp [step, stateNext, rowDone, written, scanned, divStart, h, hv]

theorem step_normDiv (h : s.state = .normDiv) : s.step cmd v rsp =
    { s with
      state := if s.divCntR = 0 then .normWr else .normDiv
      divR := s.divR.next s.divDenomR
      divCntR := s.divCntR - 1 } := by
  simp [step, stateNext, rowDone, written, scanned, divStart, dividing, h]

theorem step_normWr_hold (h : s.state = .normWr) (hg : rsp.outWrGnt = false) :
    s.step cmd v rsp = s := by
  obtain ⟨⟩ := s
  simp_all [step, stateNext, rowDone, written, scanned, divStart, dividing]

theorem step_normWr_elem (h : s.state = .normWr) (hg : rsp.outWrGnt = true)
    (hl : s.lastElem = false) : s.step cmd v rsp =
    { s with state := .normRd, idxR := s.idxR + 1 } := by
  simp [step, stateNext, rowDone, written, scanned, divStart, dividing, h, hg, hl]

/-- Row change: everything that belongs to a row is reset. -/
theorem step_normWr_row (h : s.state = .normWr) (hg : rsp.outWrGnt = true)
    (hl : s.lastElem = true) (hr : eqLast s.rowR s.numRowsR = false)
    (hlt : ltLast s.rowR s.numRowsR = true) : s.step cmd v rsp =
    { s with
      state := .sumRd, idxR := 0, rowR := s.rowR + 1, inRowBaseR := s.inRowBaseR + s.rowLenR,
      outRowBaseR := s.outRowBaseR + s.rowLenR, sumR := 0, varSumR := 0 } := by
  simp [step, stateNext, rowDone, written, scanned, divStart, dividing, h, hg, hl, hr, hlt]

theorem step_normWr_last (h : s.state = .normWr) (hg : rsp.outWrGnt = true)
    (hl : s.lastElem = true) (hr : eqLast s.rowR s.numRowsR = true) :
    (s.step cmd v rsp).state = .done := by
  simp [step, stateNext, h, hg, hl, hr]

theorem step_done_state (h : s.state = .done) : (s.step cmd v rsp).state = .idle := by
  simp [step, stateNext, h]

/-- The mean register only moves when its division ends. -/
theorem meanR_step (h : s.state ≠ .meanDiv) : (s.step cmd v rsp).meanR = s.meanR := by
  simp [step, h]

end LnormCtrl

end LgNpu
