import LgNpu.System
import LgNpu.Lib.SerialArith

/-!
# The pooling controller

`pool_ctrl`: a loop nest over `(oh, ow, c, r, s)`, with the MAX tracker and the
AVG sum in one accumulator and a serial divider for AVG.  `pool_composite`
only ties off the weight and bias ports.
-/

namespace LgNpu

inductive PoolState
  | idle | loadCfg | rd | wait | next | avgDiv | wr | done
  deriving DecidableEq

structure PoolCtrl where
  state : PoolState
  inBaseR : Addr
  outBaseR : Addr
  inHR : Dim
  inWR : Dim
  inCR : Dim
  poolRR : Dim
  poolSR : Dim
  strideHR : Dim
  strideWR : Dim
  padHR : Dim
  padWR : Dim
  poolModeR : Bool
  outHR : Dim
  outWR : Dim
  ohR : Dim
  owR : Dim
  cR : Dim
  ohBaseR : BitVec 32
  owBaseR : BitVec 32
  outPixBaseR : Addr
  rR : Dim
  sR : Dim
  accR : Acc
  hasValidR : Bool
  poolAreaR : BitVec 16
  inWxcR : Addr
  divR : SerialArith.DivRegs 32
  divDenomR : BitVec 32
  divCntR : BitVec 5
  divSignR : Bool

namespace PoolCtrl

variable (s : PoolCtrl)

/-! ## Wires -/

def ihW : BitVec 33 := s.ohBaseR.setWidth 33 + s.rR.setWidth 33 - s.padHR.setWidth 33

def iwW : BitVec 33 := s.owBaseR.setWidth 33 + s.sR.setWidth 33 - s.padWR.setWidth 33

def oobW : Bool :=
  s.ihW.slt 0 || !s.ihW.slt (s.inHR.setWidth 33) ||
    s.iwW.slt 0 || !s.iwW.slt (s.inWR.setWidth 33)

def rdAddrW : Addr :=
  s.inBaseR + s.ihW.setWidth 16 * s.inWxcR + s.iwW.setWidth 16 * s.inCR + s.cR

def wrAddrW : Addr := s.outBaseR + s.outPixBaseR + s.cR

/-- The divider result with bit 31 dropped and the sign restored. -/
def signedQuotW : BitVec 32 :=
  if s.divSignR then -(s.divR.quot.setWidth 31).setWidth 32
  else (s.divR.quot.setWidth 31).setWidth 32

def resultW : Byte :=
  if !s.poolModeR then
    if (127 : BitVec 32).slt s.accR then 127
    else if s.accR.slt (-128) then 0x80
    else s.accR.setWidth 8
  else
    if (127 : BitVec 32).slt s.signedQuotW then 127
    else if s.signedQuotW.slt (-128) then 0x80
    else s.signedQuotW.setWidth 8

def lastInnerW : Bool := eqLast s.rR s.poolRR && eqLast s.sR s.poolSR

def lastOutputW : Bool :=
  eqLast s.ohR s.outHR && eqLast s.owR s.outWR && eqLast s.cR s.inCR

/-! ## Ports -/

def req : BeReq where
  actRdAddr := if s.state = .rd ∧ !s.oobW then s.rdAddrW else 0
  actRdReq := s.state = .rd ∧ !s.oobW
  wtRdAddr := 0
  wtRdReq := false
  outWrAddr := s.wrAddrW
  outWrData := s.resultW
  outWrReq := s.state = .wr
  biasRdAddr := 0
  biasRdReq := false

/-! ## Clock edge -/

def stateNext (cmdValid : Bool) (rsp : BeRsp) : PoolState :=
  match s.state with
  | .idle => if cmdValid then .loadCfg else .idle
  | .loadCfg => .rd
  | .rd => if s.oobW then .next else if rsp.actRdGnt then .wait else .rd
  | .wait => if rsp.actRdRvalid then .next else .wait
  | .next => if s.lastInnerW then (if s.poolModeR then .avgDiv else .wr) else .rd
  | .avgDiv => if s.divCntR = 0 then .wr else .avgDiv
  | .wr => if rsp.outWrGnt then (if s.lastOutputW then .done else .rd) else .wr
  | .done => .idle

def accept (cmdValid : Bool) : Prop := s.state = .idle ∧ cmdValid = true

instance (cmdValid : Bool) : Decidable (s.accept cmdValid) :=
  inferInstanceAs (Decidable (_ ∧ _))

/-- The output write is granted in this cycle. -/
def written (rsp : BeRsp) : Prop := s.state = .wr ∧ rsp.outWrGnt = true

instance (rsp : BeRsp) : Decidable (s.written rsp) := inferInstanceAs (Decidable (_ ∧ _))

/-- The outer loops move on to another output element. -/
def advance (rsp : BeRsp) : Prop := s.written rsp ∧ s.lastOutputW = false

instance (rsp : BeRsp) : Decidable (s.advance rsp) := inferInstanceAs (Decidable (_ ∧ _))

def step (cmd : PoolCmd) (cmdValid : Bool) (rsp : BeRsp) : PoolCtrl where
  state := s.stateNext cmdValid rsp
  inBaseR := if s.accept cmdValid then cmd.inAddr else s.inBaseR
  outBaseR := if s.accept cmdValid then cmd.outAddr else s.outBaseR
  inHR := if s.accept cmdValid then cmd.inH else s.inHR
  inWR := if s.accept cmdValid then cmd.inW else s.inWR
  inCR := if s.accept cmdValid then cmd.inC else s.inCR
  poolRR := if s.accept cmdValid then cmd.poolR else s.poolRR
  poolSR := if s.accept cmdValid then cmd.poolS else s.poolSR
  strideHR := if s.accept cmdValid then cmd.strideH else s.strideHR
  strideWR := if s.accept cmdValid then cmd.strideW else s.strideWR
  padHR := if s.accept cmdValid then cmd.padH else s.padHR
  padWR := if s.accept cmdValid then cmd.padW else s.padWR
  poolModeR := if s.accept cmdValid then cmd.poolMode else s.poolModeR
  outHR := if s.accept cmdValid then cmd.outH else s.outHR
  outWR := if s.accept cmdValid then cmd.outW else s.outWR
  -- Only the low bytes of the window sides enter the area.
  poolAreaR :=
    if s.accept cmdValid then
      (cmd.poolR.setWidth 8).setWidth 16 * (cmd.poolS.setWidth 8).setWidth 16
    else s.poolAreaR
  inWxcR := if s.accept cmdValid then cmd.inW * cmd.inC else s.inWxcR
  cR :=
    if s.state = .loadCfg then 0
    else if s.advance rsp then (if ltLast s.cR s.inCR then s.cR + 1 else 0) else s.cR
  outPixBaseR :=
    if s.state = .loadCfg then 0
    else if s.advance rsp ∧ !ltLast s.cR s.inCR then s.outPixBaseR + s.inCR
    else s.outPixBaseR
  owR :=
    if s.state = .loadCfg then 0
    else if s.advance rsp ∧ !ltLast s.cR s.inCR then
      (if ltLast s.owR s.outWR then s.owR + 1 else 0)
    else s.owR
  owBaseR :=
    if s.state = .loadCfg then 0
    else if s.advance rsp ∧ !ltLast s.cR s.inCR then
      (if ltLast s.owR s.outWR then s.owBaseR + s.strideWR.setWidth 32 else 0)
    else s.owBaseR
  ohR :=
    if s.state = .loadCfg then 0
    else if s.advance rsp ∧ !ltLast s.cR s.inCR ∧ !ltLast s.owR s.outWR then s.ohR + 1
    else s.ohR
  ohBaseR :=
    if s.state = .loadCfg then 0
    else if s.advance rsp ∧ !ltLast s.cR s.inCR ∧ !ltLast s.owR s.outWR then
      s.ohBaseR + s.strideHR.setWidth 32
    else s.ohBaseR
  sR :=
    if s.state = .loadCfg ∨ s.written rsp then 0
    else if s.state = .next ∧ !s.lastInnerW then (if ltLast s.sR s.poolSR then s.sR + 1 else 0)
    else s.sR
  rR :=
    if s.state = .loadCfg ∨ s.written rsp then 0
    else if s.state = .next ∧ !s.lastInnerW ∧ !ltLast s.sR s.poolSR then s.rR + 1
    else s.rR
  accR :=
    if s.state = .loadCfg ∨ s.written rsp then (if !s.poolModeR then -128 else 0)
    else if s.state = .wait ∧ rsp.actRdRvalid then
      if !s.poolModeR then
        if !s.hasValidR || s.accR.slt (rsp.actRdRdata.signExtend 32) then
          rsp.actRdRdata.signExtend 32
        else s.accR
      else s.accR + rsp.actRdRdata.signExtend 32
    else s.accR
  hasValidR :=
    if s.state = .loadCfg ∨ s.written rsp then false
    else if s.state = .wait ∧ rsp.actRdRvalid then true else s.hasValidR
  divR :=
    if s.state = .next ∧ s.lastInnerW ∧ s.poolModeR then
      ⟨if s.accR.msb then -s.accR else s.accR, 0⟩
    else if s.state = .avgDiv then s.divR.next s.divDenomR else s.divR
  divDenomR :=
    if s.state = .next ∧ s.lastInnerW ∧ s.poolModeR then s.poolAreaR.setWidth 32
    else s.divDenomR
  divCntR :=
    if s.state = .next ∧ s.lastInnerW ∧ s.poolModeR then 31
    else if s.state = .avgDiv then s.divCntR - 1 else s.divCntR
  divSignR :=
    if s.state = .next ∧ s.lastInnerW ∧ s.poolModeR then s.accR.msb else s.divSignR

end PoolCtrl

def PoolCtrl.reset : PoolCtrl where
  state := .idle
  inBaseR := 0
  outBaseR := 0
  inHR := 0
  inWR := 0
  inCR := 0
  poolRR := 0
  poolSR := 0
  strideHR := 0
  strideWR := 0
  padHR := 0
  padWR := 0
  poolModeR := false
  outHR := 0
  outWR := 0
  ohR := 0
  owR := 0
  cR := 0
  ohBaseR := 0
  owBaseR := 0
  outPixBaseR := 0
  rR := 0
  sR := 0
  accR := 0
  hasValidR := false
  poolAreaR := 0
  inWxcR := 0
  divR := ⟨0, 0⟩
  divDenomR := 0
  divCntR := 0
  divSignR := false

/-- `pool_composite` around `pool_ctrl`. -/
def poolBackend : Backend PoolCtrl PoolCmd where
  req := PoolCtrl.req
  cmdReady s := s.state = .idle
  done s := s.state = .done
  busy s := s.state ≠ .idle
  step := PoolCtrl.step

namespace PoolCtrl

variable {s : PoolCtrl} {cmd : PoolCmd} {v : Bool} {rsp : BeRsp}

/-! ## What one edge does in each state -/

theorem step_idle (h : s.state = .idle) : s.step cmd false rsp = s := by
  obtain ⟨⟩ := s
  simp_all [step, stateNext, accept, written, advance]

theorem step_loadCfg (h : s.state = .loadCfg) : s.step cmd v rsp =
    { s with
      state := .rd, cR := 0, outPixBaseR := 0, owR := 0, owBaseR := 0, ohR := 0, ohBaseR := 0,
      sR := 0, rR := 0, hasValidR := false, accR := if !s.poolModeR then -128 else 0 } := by
  simp [step, stateNext, accept, h]

theorem step_rd_oob (h : s.state = .rd) (ho : s.oobW = true) :
    s.step cmd v rsp = { s with state := .next } := by
  simp [step, stateNext, accept, written, advance, h, ho]

theorem step_rd_gnt (h : s.state = .rd) (ho : s.oobW = false) (hg : rsp.actRdGnt = true) :
    s.step cmd v rsp = { s with state := .wait } := by
  simp [step, stateNext, accept, written, advance, h, ho, hg]

theorem step_rd_hold (h : s.state = .rd) (ho : s.oobW = false) (hg : rsp.actRdGnt = false) :
    s.step cmd v rsp = s := by
  obtain ⟨⟩ := s
  simp_all [step, stateNext, accept, written, advance]

theorem step_accept (h : s.state = .idle) : s.step cmd true rsp =
    { s with
      state := .loadCfg, inBaseR := cmd.inAddr, outBaseR := cmd.outAddr, inHR := cmd.inH,
      inWR := cmd.inW, inCR := cmd.inC, poolRR := cmd.poolR, poolSR := cmd.poolS,
      strideHR := cmd.strideH, strideWR := cmd.strideW, padHR := cmd.padH, padWR := cmd.padW,
      poolModeR := cmd.poolMode, outHR := cmd.outH, outWR := cmd.outW,
      poolAreaR := (cmd.poolR.setWidth 8).setWidth 16 * (cmd.poolS.setWidth 8).setWidth 16,
      inWxcR := cmd.inW * cmd.inC } := by
  simp [step, stateNext, accept, written, advance, h]

theorem step_wait (h : s.state = .wait) (hv : rsp.actRdRvalid = true) : s.step cmd v rsp =
    { s with
      state := .next, hasValidR := true
      accR :=
        if !s.poolModeR then
          if !s.hasValidR || s.accR.slt (rsp.actRdRdata.signExtend 32) then
            rsp.actRdRdata.signExtend 32
          else s.accR
        else s.accR + rsp.actRdRdata.signExtend 32 } := by
  simp [step, stateNext, accept, written, advance, h, hv]

theorem step_next_inner (h : s.state = .next) (hl : s.lastInnerW = false) :
    s.step cmd v rsp =
    { s with
      state := .rd
      sR := if ltLast s.sR s.poolSR then s.sR + 1 else 0
      rR := if ltLast s.sR s.poolSR then s.rR else s.rR + 1 } := by
  cases hs : ltLast s.sR s.poolSR <;>
    simp [step, stateNext, accept, written, advance, h, hl, hs]

theorem step_next_max (h : s.state = .next) (hl : s.lastInnerW = true)
    (hm : s.poolModeR = false) : s.step cmd v rsp = { s with state := .wr } := by
  simp [step, stateNext, accept, written, advance, h, hl, hm]

theorem step_next_avg (h : s.state = .next) (hl : s.lastInnerW = true)
    (hm : s.poolModeR = true) : s.step cmd v rsp =
    { s with
      state := .avgDiv, divR := ⟨if s.accR.msb then -s.accR else s.accR, 0⟩,
      divDenomR := s.poolAreaR.setWidth 32, divCntR := 31, divSignR := s.accR.msb } := by
  simp [step, stateNext, accept, written, advance, h, hl, hm]

theorem step_avgDiv (h : s.state = .avgDiv) : s.step cmd v rsp =
    { s with
      state := if s.divCntR = 0 then .wr else .avgDiv
      divR := s.divR.next s.divDenomR
      divCntR := s.divCntR - 1 } := by
  simp [step, stateNext, accept, written, advance, h]

theorem step_wr_hold (h : s.state = .wr) (hg : rsp.outWrGnt = false) :
    s.step cmd v rsp = s := by
  obtain ⟨⟩ := s
  simp_all [step, stateNext, accept, written, advance]

theorem step_wr_last (h : s.state = .wr) (hg : rsp.outWrGnt = true)
    (hl : s.lastOutputW = true) : s.step cmd v rsp =
    { s with
      state := .done, sR := 0, rR := 0, hasValidR := false,
      accR := if !s.poolModeR then -128 else 0 } := by
  simp [step, stateNext, accept, written, advance, h, hg, hl]

theorem step_wr_advance (h : s.state = .wr) (hg : rsp.outWrGnt = true)
    (hl : s.lastOutputW = false) : s.step cmd v rsp =
    { s with
      state := .rd, sR := 0, rR := 0, hasValidR := false,
      accR := if !s.poolModeR then -128 else 0
      cR := if ltLast s.cR s.inCR then s.cR + 1 else 0
      outPixBaseR := if ltLast s.cR s.inCR then s.outPixBaseR else s.outPixBaseR + s.inCR
      owR :=
        if ltLast s.cR s.inCR then s.owR else if ltLast s.owR s.outWR then s.owR + 1 else 0
      owBaseR :=
        if ltLast s.cR s.inCR then s.owBaseR
        else if ltLast s.owR s.outWR then s.owBaseR + s.strideWR.setWidth 32 else 0
      ohR :=
        if ltLast s.cR s.inCR then s.ohR else if ltLast s.owR s.outWR then s.ohR else s.ohR + 1
      ohBaseR :=
        if ltLast s.cR s.inCR then s.ohBaseR
        else if ltLast s.owR s.outWR then s.ohBaseR
        else s.ohBaseR + s.strideHR.setWidth 32 } := by
  cases hc : ltLast s.cR s.inCR <;> cases ho : ltLast s.owR s.outWR <;>
    simp [step, stateNext, accept, written, advance, h, hg, hl, hc, ho]

theorem step_done (h : s.state = .done) : s.step cmd v rsp = { s with state := .idle } := by
  simp [step, stateNext, accept, written, advance, h]

end PoolCtrl

end LgNpu
