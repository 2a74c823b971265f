import LgNpu.System

/-!
# The softmax controller

`softmax_exp_lut` and `softmax_ctrl`: three passes over each row, sharing the
request and response counters, with a 24-step divider for the third.
`softmax_composite` only wires the table and ties off the unused ports.
-/

namespace LgNpu

/-! ## The exponential table -/

/-- `exp(-k) * 65535`. -/
def expIntTable : List (BitVec 16) :=
  [65535, 24109, 8869, 3263, 1200, 442, 162, 60]

/-- `exp(-f / 32) * 65535`. -/
def expFracTable : List (BitVec 16) :=
  [65535, 63519, 61564, 59670, 57834, 56055, 54330, 52659, 51039, 49468, 47946, 46471, 45042,
    43656, 42313, 41011, 39749, 38526, 37341, 36192, 35078, 33999, 32953, 31939, 30957, 30004,
    29081, 28186, 27319, 26479, 25664, 24874]

def softmaxExpLut (diff : BitVec 8) : BitVec 16 :=
  (((expIntTable.getD (diff >>> 5).toNat 0).setWidth 32 *
    (expFracTable.getD (diff &&& 31).toNat 0).setWidth 32) >>> 16).setWidth 16

/-! ## Registers -/

inductive SoftmaxState
  | idle | loadCfg | findMax | expSum | normRd | normWait | normDiv | normWr | done
  deriving DecidableEq

structure SoftmaxCtrl where
  state : SoftmaxState
  inBaseR : Addr
  outBaseR : Addr
  numRowsR : Dim
  rowLenR : Dim
  rowR : Dim
  reqCntR : Dim
  rcvCntR : Dim
  maxValR : Byte
  sumR : BitVec 32
  expSumRvalidD : Bool
  expSumLutD : BitVec 16
  normIdxR : Dim
  divNumerR : BitVec 24
  divRemR : BitVec 32
  divQuotR : BitVec 8
  divCntR : BitVec 5
  rowBaseInR : Addr
  rowBaseOutR : Addr

def SoftmaxCtrl.reset : SoftmaxCtrl where
  state := .idle
  inBaseR := 0
  outBaseR := 0
  numRowsR := 0
  rowLenR := 0
  rowR := 0
  reqCntR := 0
  rcvCntR := 0
  maxValR := -128
  sumR := 0
  expSumRvalidD := false
  expSumLutD := 0
  normIdxR := 0
  divNumerR := 0
  divRemR := 0
  divQuotR := 0
  divCntR := 0
  rowBaseInR := 0
  rowBaseOutR := 0

namespace SoftmaxCtrl

variable (s : SoftmaxCtrl)

/-! ## Wires -/

/-- `max_val_r - act_rd_rdata`, the table index. -/
def lutDiff (rsp : BeRsp) : BitVec 8 := s.maxValR - rsp.actRdRdata

def lutExpVal (rsp : BeRsp) : BitVec 16 := softmaxExpLut (s.lutDiff rsp)

/-- The remainder with the next numerator bit shifted in. -/
def divShifted : BitVec 32 := s.divRemR.shiftConcat s.divNumerR.msb

def divTrial : BitVec 33 := s.divShifted.setWidth 33 - s.sumR.setWidth 33

def normResult : Byte := if (127 : BitVec 8).ult s.divQuotR then 127 else s.divQuotR

/-! ## Ports -/

def actRdReq : Bool :=
  match s.state with
  | .findMax => s.reqCntR.ult s.rowLenR
  | .expSum => s.reqCntR.ult s.rowLenR
  | .normRd => true
  | _ => false

def actRdAddr : Addr :=
  match s.state with
  | .findMax => s.rowBaseInR + s.reqCntR
  | .expSum => s.rowBaseInR + s.reqCntR
  | .normRd => s.rowBaseInR + s.normIdxR
  | _ => 0

def req : BeReq where
  actRdAddr := s.actRdAddr
  actRdReq := s.actRdReq
  wtRdAddr := 0
  wtRdReq := false
  outWrAddr := s.rowBaseOutR + s.normIdxR
  outWrData := s.normResult
  outWrReq := s.state = .normWr
  biasRdAddr := 0
  biasRdReq := false

/-! ## Clock edge -/

def stateNext (cmdValid : Bool) (rsp : BeRsp) : SoftmaxState :=
  match s.state with
  | .idle => if cmdValid then .loadCfg else .idle
  | .loadCfg => .findMax
  | .findMax => if rsp.actRdRvalid && eqLast s.rcvCntR s.rowLenR then .expSum else .findMax
  | .expSum => if s.rcvCntR = s.rowLenR then .normRd else .expSum
  | .normRd => if rsp.actRdGnt then .normWait else .normRd
  | .normWait => if rsp.actRdRvalid then .normDiv else .normWait
  | .normDiv => if s.divCntR = 23 then .normWr else .normDiv
  | .normWr =>
      if rsp.outWrGnt then
        if eqLast s.normIdxR s.rowLenR then
          if eqLast s.rowR s.numRowsR then .done else .findMax
        else .normRd
      else .normWr
  | .done => .idle

/-- The output write is granted in this cycle. -/
def written (rsp : BeRsp) : Prop := s.state = .normWr ∧ rsp.outWrGnt = true

instance (rsp : BeRsp) : Decidable (s.written rsp) := inferInstanceAs (Decidable (_ ∧ _))

/-- The last write of a row that another row follows. -/
def rowDone (rsp : BeRsp) : Prop :=
  s.written rsp ∧ eqLast s.normIdxR s.rowLenR = true ∧ ltLast s.rowR s.numRowsR = true

instance (rsp : BeRsp) : Decidable (s.rowDone rsp) := inferInstanceAs (Decidable (_ ∧ _))

/-- `FIND_MAX` and `EXP_SUM` share the request and response counters. -/
def scanning : Prop := s.state = .findMax ∨ s.state = .expSum

instance : Decidable s.scanning := inferInstanceAs (Decidable (_ ∨ _))

def step (cmd : SoftmaxCmd) (cmdValid : Bool) (rsp : BeRsp) : SoftmaxCtrl where
  state := s.stateNext cmdValid rsp
  inBaseR := if s.state = .idle ∧ cmdValid then cmd.inAddr else s.inBaseR
  outBaseR := if s.state = .idle ∧ cmdValid then cmd.outAddr else s.outBaseR
  numRowsR := if s.state = .idle ∧ cmdValid then cmd.numRows else s.numRowsR
  rowLenR := if s.state = .idle ∧ cmdValid then cmd.rowLen else s.rowLenR
  rowR := if s.state = .loadCfg then 0 else if s.rowDone rsp then s.rowR + 1 else s.rowR
  rowBaseInR :=
    if s.state = .loadCfg then s.inBaseR
    else if s.rowDone rsp then s.rowBaseInR + s.rowLenR else s.rowBaseInR
  rowBaseOutR :=
    if s.state = .loadCfg then s.outBaseR
    else if s.rowDone rsp then s.rowBaseOutR + s.rowLenR else s.rowBaseOutR
  reqCntR :=
    if s.state = .loadCfg ∨ s.rowDone rsp then 0
    else if s.state = .findMax ∧ rsp.actRdRvalid ∧ eqLast s.rcvCntR s.rowLenR then 0
    else if s.scanning ∧ rsp.actRdGnt ∧ s.reqCntR.ult s.rowLenR then s.reqCntR + 1
    else s.reqCntR
  rcvCntR :=
    if s.state = .loadCfg ∨ s.rowDone rsp then 0
    else if s.state = .findMax ∧ rsp.actRdRvalid ∧ eqLast s.rcvCntR s.rowLenR then 0
    else if s.scanning ∧ rsp.actRdRvalid then s.rcvCntR + 1
    else s.rcvCntR
  maxValR :=
    if s.state = .loadCfg ∨ s.rowDone rsp then -128
    else if s.state = .findMax ∧ rsp.actRdRvalid then
      if s.maxValR.slt rsp.actRdRdata then rsp.actRdRdata else s.maxValR
    else s.maxValR
  -- The table value enters the sum one cycle after its data.
  expSumRvalidD := s.state = .expSum ∧ rsp.actRdRvalid
  expSumLutD := if s.state = .expSum ∧ rsp.actRdRvalid then s.lutExpVal rsp else s.expSumLutD
  sumR :=
    if s.state = .loadCfg ∨ s.rowDone rsp then 0
    else if s.expSumRvalidD then s.sumR + s.expSumLutD.setWidth 32
    else s.sumR
  normIdxR :=
    if s.state = .expSum ∧ s.rcvCntR = s.rowLenR then 0
    else if s.written rsp then (if eqLast s.normIdxR s.rowLenR then 0 else s.normIdxR + 1)
    else s.normIdxR
  divNumerR :=
    if s.state = .normWait ∧ rsp.actRdRvalid then (s.lutExpVal rsp).setWidth 24 * 127
    else if s.state = .normDiv then s.divNumerR.shiftConcat false
    else s.divNumerR
  divRemR :=
    if s.state = .normWait ∧ rsp.actRdRvalid then 0
    else if s.state = .normDiv then
      (if s.divTrial.msb then s.divShifted else s.divTrial.setWidth 32)
    else s.divRemR
  divQuotR :=
    if s.state = .normWait ∧ rsp.actRdRvalid then 0
    else if s.state = .normDiv then s.divQuotR.shiftConcat (!s.divTrial.msb)
    else s.divQuotR
  divCntR :=
    if s.state = .normWait ∧ rsp.actRdRvalid then 0
    else if s.state = .normDiv then s.divCntR + 1
    else s.divCntR

end SoftmaxCtrl

/-- `softmax_composite` around `softmax_ctrl`. -/
def softmaxBackend : Backend SoftmaxCtrl SoftmaxCmd where
  req := SoftmaxCtrl.req
  cmdReady s := s.state = .idle
  done s := s.state = .done
  busy s := s.state ≠ .idle
  step := SoftmaxCtrl.step

namespace SoftmaxCtrl

variable {s : SoftmaxCtrl} {cmd : SoftmaxCmd} {v : Bool} {rsp : BeRsp}

/-! ## What one edge does in each state

Outside `EXP_SUM` and the cycle after it no table value is pending. -/

theorem step_idle_state (h : s.state = .idle) : (s.step cmd false rsp).state = .idle := by
  simp [step, stateNext, h]

theorem step_accept (h : s.state = .idle) : s.step cmd true rsp =
    { s with
      state := .loadCfg, inBaseR := cmd.inAddr, outBaseR := cmd.outAddr, numRowsR := cmd.numRows,
      rowLenR := cmd.rowLen, expSumRvalidD := false,
      sumR := if s.expSumRvalidD then s.sumR + s.expSumLutD.setWidth 32 else s.sumR } := by
  simp [step, stateNext, rowDone, written, scanning, h]

theorem step_loadCfg (h : s.state = .loadCfg) : s.step cmd v rsp =
    { s with
      state := .findMax, rowR := 0, rowBaseInR := s.inBaseR, rowBaseOutR := s.outBaseR,
      reqCntR := 0, rcvCntR := 0, maxValR := -128, expSumRvalidD := false, sumR := 0 } := by
  simp [step, stateNext, rowDone, written, h]

theorem step_findMax (h : s.state = .findMax) (hd : s.expSumRvalidD = false)
    (hl : (rsp.actRdRvalid && eqLast s.rcvCntR s.rowLenR) = false) : s.step cmd v rsp =
    { s with
      reqCntR := if rsp.actRdGnt ∧ s.reqCntR.ult s.rowLenR then s.reqCntR + 1 else s.reqCntR
      rcvCntR := if rsp.actRdRvalid then s.rcvCntR + 1 else s.rcvCntR
      maxValR :=
        if rsp.actRdRvalid then
          if s.maxValR.slt rsp.actRdRdata then rsp.actRdRdata else s.maxValR
        else s.maxValR } := by
  obtain ⟨⟩ := s
  cases hv : rsp.actRdRvalid <;>
    simp_all [step, stateNext, rowDone, written, scanning]

theorem step_findMax_last (h : s.state = .findMax) (hd : s.expSumRvalidD = false)
    (hv : rsp.actRdRvalid = true) (hl : eqLast s.rcvCntR s.rowLenR = true) : s.step cmd v rsp =
    { s with
      state := .expSum, reqCntR := 0, rcvCntR := 0
      maxValR := if s.maxValR.slt rsp.actRdRdata then rsp.actRdRdata else s.maxValR } := by
  obtain ⟨⟩ := s
  simp_all [step, stateNext, rowDone, written]

theorem step_expSum (h : s.state = .expSum) (hl : s.rcvCntR ≠ s.rowLenR) : s.step cmd v rsp =
    { s with
      reqCntR := if rsp.actRdGnt ∧ s.reqCntR.ult s.rowLenR then s.reqCntR + 1 else s.reqCntR
      rcvCntR := if rsp.actRdRvalid then s.rcvCntR + 1 else s.rcvCntR
      expSumRvalidD := rsp.actRdRvalid
      expSumLutD := if rsp.actRdRvalid then s.lutExpVal rsp else s.expSumLutD
      sumR := if s.expSumRvalidD then s.sumR + s.expSumLutD.setWidth 32 else s.sumR } := by
  simp [step, stateNext, rowDone, written, scanning, h, hl]

theorem step_expSum_last (h : s.state = .expSum) (hl : s.rcvCntR = s.rowLenR)
    (hr : s.reqCntR.ult s.rowLenR = false) (hv : rsp.actRdRvalid = false) : s.step cmd v rsp =
    { s with
      state := .normRd, normIdxR := 0, expSumRvalidD := false
      sumR := if s.expSumRvalidD then s.sumR + s.expSumLutD.setWidth 32 else s.sumR } := by
  simp [step, stateNext, rowDone, written, scanning, h, hl, hr, hv]

theorem step_normRd (h : s.state = .normRd) (hd : s.expSumRvalidD = false) : s.step cmd v rsp =
    { s with state := if rsp.actRdGnt then .normWait else .normRd } := by
  simp [step, stateNext, rowDone, written, scanning, h, hd]

theorem step_normWait (h : s.state = .normWait) (hd : s.expSumRvalidD = false)
    (hv : rsp.actRdRvalid = true) : s.step cmd v rsp =
    { s with
      state := .normDiv, divNumerR := (s.lutExpVal rsp).setWidth 24 * 127, divRemR := 0,
      divQuotR := 0, divCntR := 0 } := by
  simp [step, stateNext, rowDone, written, scanning, h, hd, hv]

theorem step_normDiv (h : s.state = .normDiv) (hd : s.expSumRvalidD = false) : s.step cmd v rsp =
    { s with
      state := if s.divCntR = 23 then .normWr else .normDiv
      divNumerR := s.divNumerR.shiftConcat false
      divRemR := if s.divTrial.msb then s.divShifted else s.divTrial.setWidth 32
      divQuotR := s.divQuotR.shiftConcat (!s.divTrial.msb)
      divCntR := s.divCntR + 1 } := by
  simp [step, stateNext, rowDone, written, scanning, h, hd]

theorem step_normWr_hold (h : s.state = .normWr) (hd : s.expSumRvalidD = false)
    (hg : rsp.outWrGnt = false) : s.step cmd v rsp = s := by
  obtain ⟨⟩ := s
  simp_all [step, stateNext, rowDone, written, scanning]

theorem step_normWr_elem (h : s.state = .normWr) (hd : s.expSumRvalidD = false)
    (hg : rsp.outWrGnt = true) (hl : eqLast s.normIdxR s.rowLenR = false) : s.step cmd v rsp =
    { s with state := .normRd, normIdxR := s.normIdxR + 1 } := by
  simp [step, stateNext, rowDone, written, scanning, h, hd, hg, hl]

/-- Row change: everything that belongs to a row is reset. -/
theorem step_normWr_row (h : s.state = .normWr) (hd : s.expSumRvalidD = false)
    (hg : rsp.outWrGnt = true) (hl : eqLast s.normIdxR s.rowLenR = true)
    (hr : eqLast s.rowR s.numRowsR = false) (hlt : ltLast s.rowR s.numRowsR = true) :
    s.step cmd v rsp =
    { s with
      state := .findMax, normIdxR := 0, rowR := s.rowR + 1
      rowBaseInR := s.rowBaseInR + s.rowLenR, rowBaseOutR := s.rowBaseOutR + s.rowLenR,
      reqCntR := 0, rcvCntR := 0, maxValR := -128, sumR := 0 } := by
  simp [step, stateNext, rowDone, written, h, hd, hg, hl, hr, hlt]

theorem step_normWr_last (h : s.state = .normWr) (hg : rsp.outWrGnt = true)
    (hl : eqLast s.normIdxR s.rowLenR = true) (hr : eqLast s.rowR s.numRowsR = true) :
    (s.step cmd v rsp).state = .done := by
  simp [step, stateNext, h, hg, hl, hr]

theorem step_done_state (h : s.state = .done) : (s.step cmd v rsp).state = .idle := by
  simp [step, stateNext, h]

end SoftmaxCtrl

end LgNpu
