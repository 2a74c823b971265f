import LgNpu.System

/-!
# The vector controller

`vec_ctrl` reads an element of each source in parallel, combines them and
writes the result.  `vec_backend` only ties off the bias port.
-/

namespace LgNpu

inductive VecState
  | idle | loadCfg | read | wait | write | done
  deriving DecidableEq

structure VecCtrl where
  state : VecState
  aBaseR : Addr
  bBaseR : Addr
  outBaseR : Addr
  lengthR : Dim
  vecOpR : Bool
  qshiftR : BitVec 5
  actModeR : ActMode
  idxR : Dim
  aAddrR : Addr
  bAddrR : Addr
  outAddrR : Addr
  aGntR : Bool
  bGntR : Bool
  aValR : Bool
  bValR : Bool
  aDataR : Byte
  bDataR : Byte

namespace VecCtrl

def reset : VecCtrl where
  state := .idle
  aBaseR := 0
  bBaseR := 0
  outBaseR := 0
  lengthR := 0
  vecOpR := false
  qshiftR := 0
  actModeR := ActMode.actNone
  idxR := 0
  aAddrR := 0
  bAddrR := 0
  outAddrR := 0
  aGntR := false
  bGntR := false
  aValR := false
  bValR := false
  aDataR := 0
  bDataR := 0

variable (s : VecCtrl)

/-! ## The result -/

def mulAcc : Acc := s.aDataR.signExtend 32 * s.bDataR.signExtend 32

/-- Unlike `activation`, an encoding outside the enumeration passes through. -/
def mulActivated : Acc :=
  if s.actModeR = ActMode.actRelu then (if s.mulAcc.slt 0 then 0 else s.mulAcc)
  else if s.actModeR = ActMode.actLeakyRelu then
    (if s.mulAcc.slt 0 then s.mulAcc.sshiftRight leakyShift else s.mulAcc)
  else s.mulAcc

def mulShifted : Acc := s.mulActivated.sshiftRight s.qshiftR.toNat

def addSum : BitVec 9 := s.aDataR.signExtend 9 + s.bDataR.signExtend 9

def result : Byte :=
  if !s.vecOpR then
    if (127 : BitVec 9).slt s.addSum then 127
    else if s.addSum.slt (-128) then 0x80
    else s.addSum.setWidth 8
  else
    if (127 : BitVec 32).slt s.mulShifted then 127
    else if s.mulShifted.slt (-128) then 0x80
    else s.mulShifted.setWidth 8

/-! ## Ports -/

def req : BeReq where
  actRdAddr := s.aAddrR
  actRdReq := s.state = .read && !s.aGntR
  wtRdAddr := s.bAddrR
  wtRdReq := s.state = .read && !s.bGntR
  outWrAddr := s.outAddrR
  outWrData := s.result
  outWrReq := s.state = .write
  biasRdAddr := 0
  biasRdReq := false

/-! ## Clock edge -/

def stateNext (cmdValid : Bool) (rsp : BeRsp) : VecState :=
  match s.state with
  | .idle => if cmdValid then .loadCfg else .idle
  | .loadCfg => .read
  | .read =>
      if (s.aGntR || rsp.actRdGnt) && (s.bGntR || rsp.wtRdGnt) then .wait else .read
  | .wait =>
      if (s.aValR || rsp.actRdRvalid) && (s.bValR || rsp.wtRdRvalid) then .write else .wait
  | .write =>
      if rsp.outWrGnt then (if eqLast s.idxR s.lengthR then .done else .read) else .write
  | .done => .idle

def accept (cmdValid : Bool) : Bool := s.state = .idle && cmdValid

/-- The output write is granted in this cycle. -/
def written (rsp : BeRsp) : Bool := s.state = .write && rsp.outWrGnt

/-- The tracking flags start over. -/
def fresh (rsp : BeRsp) : Bool := s.state = .loadCfg || s.written rsp

def step (cmd : VecCmd) (cmdValid : Bool) (rsp : BeRsp) : VecCtrl where
  state := s.stateNext cmdValid rsp
  aBaseR := if s.accept cmdValid then cmd.aAddr else s.aBaseR
  bBaseR := if s.accept cmdValid then cmd.bAddr else s.bBaseR
  outBaseR := if s.accept cmdValid then cmd.outAddr else s.outBaseR
  lengthR := if s.accept cmdValid then cmd.length else s.lengthR
  vecOpR := if s.accept cmdValid then cmd.vecOp else s.vecOpR
  qshiftR := if s.accept cmdValid then cmd.quantShift else s.qshiftR
  actModeR := if s.accept cmdValid then cmd.actMode else s.actModeR
  idxR := if s.state = .loadCfg then 0 else if s.written rsp then s.idxR + 1 else s.idxR
  aAddrR :=
    if s.state = .loadCfg then s.aBaseR else if s.written rsp then s.aAddrR + 1 else s.aAddrR
  bAddrR :=
    if s.state = .loadCfg then s.bBaseR else if s.written rsp then s.bAddrR + 1 else s.bAddrR
  outAddrR :=
    if s.state = .loadCfg then s.outBaseR
    else if s.written rsp then s.outAddrR + 1 else s.outAddrR
  aGntR := if s.fresh rsp then false else s.aGntR || (s.state = .read && rsp.actRdGnt)
  bGntR := if s.fresh rsp then false else s.bGntR || (s.state = .read && rsp.wtRdGnt)
  aValR := if s.fresh rsp then false else s.aValR || (s.state = .wait && rsp.actRdRvalid)
  bValR := if s.fresh rsp then false else s.bValR || (s.state = .wait && rsp.wtRdRvalid)
  aDataR := if s.state = .wait && rsp.actRdRvalid then rsp.actRdRdata else s.aDataR
  bDataR := if s.state = .wait && rsp.wtRdRvalid then rsp.wtRdRdata else s.bDataR

end VecCtrl

/-- `vec_backend` around `vec_ctrl`. -/
def vecBackend : Backend VecCtrl VecCmd where
  req := VecCtrl.req
  cmdReady s := s.state = .idle
  done s := s.state = .done
  busy s := s.state ≠ .idle
  step := VecCtrl.step

namespace VecCtrl

variable {s : VecCtrl} {cmd : VecCmd} {v : Bool} {rsp : BeRsp}

/-! ## What one edge does in each state -/

theorem step_idle (h : s.state = .idle) : s.step cmd false rsp = s := by
  obtain ⟨⟩ := s
  simp_all [step, stateNext, accept, written, fresh]

theorem step_accept (h : s.state = .idle) : s.step cmd true rsp =
    { s with
      state := .loadCfg, aBaseR := cmd.aAddr, bBaseR := cmd.bAddr, outBaseR := cmd.outAddr,
      lengthR := cmd.length, vecOpR := cmd.vecOp, qshiftR := cmd.quantShift,
      actModeR := cmd.actMode } := by
  simp [step, stateNext, accept, written, fresh, h]

theorem step_loadCfg (h : s.state = .loadCfg) : s.step cmd v rsp =
    { s with
      state := .read, idxR := 0, aAddrR := s.aBaseR, bAddrR := s.bBaseR, outAddrR := s.outBaseR,
      aGntR := false, bGntR := false, aValR := false, bValR := false } := by
  simp [step, stateNext, accept, fresh, h]

theorem step_read (h : s.state = .read) : s.step cmd v rsp =
    { s with
      state := if (s.aGntR || rsp.actRdGnt) && (s.bGntR || rsp.wtRdGnt) then .wait else .read
      aGntR := s.aGntR || rsp.actRdGnt
      bGntR := s.bGntR || rsp.wtRdGnt } := by
  simp [step, stateNext, accept, written, fresh, h]

theorem step_wait (h : s.state = .wait) : s.step cmd v rsp =
    { s with
      state := if (s.aValR || rsp.actRdRvalid) && (s.bValR || rsp.wtRdRvalid) then .write else .wait
      aValR := s.aValR || rsp.actRdRvalid
      bValR := s.bValR || rsp.wtRdRvalid
      aDataR := if rsp.actRdRvalid then rsp.actRdRdata else s.aDataR
      bDataR := if rsp.wtRdRvalid then rsp.wtRdRdata else s.bDataR } := by
  simp [step, stateNext, accept, written, fresh, h]

theorem step_write_hold (h : s.state = .write) (hg : rsp.outWrGnt = false) :
    s.step cmd v rsp = s := by
  obtain ⟨⟩ := s
  simp_all [step, stateNext, accept, written, fresh]

theorem step_write (h : s.state = .write) (hg : rsp.outWrGnt = true) : s.step cmd v rsp =
    { s with
      state := if eqLast s.idxR s.lengthR then .done else .read
      idxR := s.idxR + 1, aAddrR := s.aAddrR + 1, bAddrR := s.bAddrR + 1,
      outAddrR := s.outAddrR + 1, aGntR := false, bGntR := false, aValR := false,
      bValR := false } := by
  simp [step, stateNext, accept, written, fresh, h, hg]

theorem step_done (h : s.state = .done) : s.step cmd v rsp = { s with state := .idle } := by
  simp [step, stateNext, accept, written, fresh, h]

end VecCtrl

end LgNpu
