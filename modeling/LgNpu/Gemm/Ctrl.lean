import LgNpu.Mac.Front

/-!
# The GEMM front end

`gemm_ctrl` walks `(m, n, k)`, `gemm_addr_gen` turns the indices into operand
addresses, and `gemm_backend` keeps the metadata of the iteration at hand.
-/

namespace LgNpu

/-! ## Controller -/

structure GemmCtrl where
  state : LoopState
  cmdR : GemmCmd
  mR : Dim
  nR : Dim
  kR : Dim

namespace GemmCtrl

def reset : GemmCtrl := ⟨.idle, ⟨0, 0, 0, 0, 0, 0, 0, 0, 0⟩, 0, 0, 0⟩

variable (s : GemmCtrl)

def lastK : Bool := eqLast s.kR s.cmdR.kDim

def lastN : Bool := eqLast s.nR s.cmdR.nDim

def innerLast : Bool := s.lastK

def outerLast : Bool := eqLast s.mR s.cmdR.mDim && s.lastN

def iterValid : Bool := s.state = .compute

def accClr : Bool := s.state = .compute && s.kR = 0

def advance (iterReady : Bool) : Bool := s.state = .compute && iterReady

def step (cmd : GemmCmd) (cmdValid iterReady : Bool) : GemmCtrl where
  state := s.state.next cmdValid iterReady (s.innerLast && s.outerLast)
  cmdR := if s.state = .idle && cmdValid then cmd else s.cmdR
  kR :=
    if s.state = .loadCfg then 0
    else if s.advance iterReady then (if s.lastK then 0 else s.kR + 1) else s.kR
  nR :=
    if s.state = .loadCfg then 0
    else if s.advance iterReady && s.lastK then (if s.lastN then 0 else s.nR + 1) else s.nR
  mR :=
    if s.state = .loadCfg then 0
    else if s.advance iterReady && s.lastK && s.lastN && ltLast s.mR s.cmdR.mDim then s.mR + 1
    else s.mR

end GemmCtrl

/-! ## Address generator -/

inductive GemmAddrState
  | idle | stage1 | out
  deriving DecidableEq

structure GemmAddrGen where
  state : GemmAddrState
  aMulS1 : BitVec 32
  bMulS1 : BitVec 32
  aBaseS1 : Addr
  bBaseS1 : Addr
  kS1 : Dim
  nS1 : Dim
  aAddrR : Addr
  bAddrR : Addr

namespace GemmAddrGen

def reset : GemmAddrGen := ⟨.idle, 0, 0, 0, 0, 0, 0, 0, 0⟩

variable (s : GemmAddrGen)

def inReady : Bool := s.state = .idle

def outValid : Bool := s.state = .out

def taking (inValid : Bool) : Bool := s.state = .idle && inValid

def step (inValid outReady : Bool) (aBase bBase : Addr) (nDim kDim m n k : Dim) :
    GemmAddrGen where
  state :=
    match s.state with
    | .idle => if inValid then .stage1 else .idle
    | .stage1 => .out
    | .out => if outReady then .idle else .out
  aMulS1 := if s.taking inValid then m.setWidth 32 * kDim.setWidth 32 else s.aMulS1
  bMulS1 := if s.taking inValid then k.setWidth 32 * nDim.setWidth 32 else s.bMulS1
  aBaseS1 := if s.taking inValid then aBase else s.aBaseS1
  bBaseS1 := if s.taking inValid then bBase else s.bBaseS1
  kS1 := if s.taking inValid then k else s.kS1
  nS1 := if s.taking inValid then n else s.nS1
  aAddrR :=
    if s.state = .stage1 then s.aBaseS1 + (s.aMulS1 + s.kS1.setWidth 32).setWidth 16
    else s.aAddrR
  bAddrR :=
    if s.state = .stage1 then s.bBaseS1 + (s.bMulS1 + s.nS1.setWidth 32).setWidth 16
    else s.bAddrR

end GemmAddrGen

/-! ## The front end of `gemm_backend` -/

structure GemmFront where
  ctrl : GemmCtrl
  addrGen : GemmAddrGen
  lastInnerIterR : Bool
  accClrIterR : Bool
  wrAddrIterR : Addr
  biasAddrIterR : Addr

namespace GemmFront

def reset : GemmFront := ⟨.reset, .reset, false, false, 0, 0⟩

variable (s : GemmFront)

def iterAccept : Bool := s.ctrl.iterValid && s.addrGen.inReady

def step (cmd : GemmCmd) (cmdValid loadReqReady : Bool) : GemmFront where
  ctrl := s.ctrl.step cmd cmdValid s.addrGen.inReady
  addrGen := s.addrGen.step s.ctrl.iterValid loadReqReady s.ctrl.cmdR.aAddr s.ctrl.cmdR.bAddr
    s.ctrl.cmdR.nDim s.ctrl.cmdR.kDim s.ctrl.mR s.ctrl.nR s.ctrl.kR
  lastInnerIterR := if s.iterAccept then s.ctrl.innerLast else s.lastInnerIterR
  accClrIterR := if s.iterAccept then s.ctrl.accClr else s.accClrIterR
  wrAddrIterR :=
    if s.iterAccept && s.ctrl.innerLast then
      s.ctrl.cmdR.cAddr + (s.ctrl.mR * s.ctrl.cmdR.nDim + s.ctrl.nR)
    else s.wrAddrIterR
  biasAddrIterR :=
    if s.iterAccept && s.ctrl.innerLast then s.ctrl.cmdR.biasAddr + s.ctrl.nR
    else s.biasAddrIterR

end GemmFront

/-- GEMM has no padding. -/
def gemmFront : MacFront GemmFront GemmCmd where
  out s :=
    { addrGenValid := s.addrGen.outValid
      actAddr := s.addrGen.aAddrR
      wtAddr := s.addrGen.bAddrR
      zeroPad := false
      lastInnerIterR := s.lastInnerIterR
      accClrIterR := s.accClrIterR
      wrAddrIterR := s.wrAddrIterR
      biasAddrIterR := s.biasAddrIterR
      quantShift := s.ctrl.cmdR.quantShift
      actMode := s.ctrl.cmdR.actMode
      ctrlDone := s.ctrl.state = .done
      ctrlBusy := s.ctrl.state ≠ .idle }
  cmdReady s := s.ctrl.state = .idle
  step := GemmFront.step

def gemmBackend : Backend (Mac GemmFront) GemmCmd := macBackend gemmFront

/-! ## The job of a command -/

namespace GemmCmd

variable (cmd : GemmCmd)

/-- Iteration `i` is `(m, n, k)` with `k` innermost. -/
def mAt (i : ℕ) : ℕ := i / cmd.kDim.toNat / cmd.nDim.toNat

def nAt (i : ℕ) : ℕ := i / cmd.kDim.toNat % cmd.nDim.toNat

def kAt (i : ℕ) : ℕ := i % cmd.kDim.toNat

def job : MacJob where
  outs := cmd.mDim.toNat * cmd.nDim.toNat
  its := cmd.kDim.toNat
  actAddr i := cmd.aAddr + (.ofNat 16 (cmd.mAt i) * cmd.kDim + .ofNat 16 (cmd.kAt i))
  wtAddr i := cmd.bAddr + (.ofNat 16 (cmd.kAt i) * cmd.nDim + .ofNat 16 (cmd.nAt i))
  zeroPad _ := false
  wrAddr e := cmd.cAddr + (.ofNat 16 (e / cmd.nDim.toNat) * cmd.nDim +
    .ofNat 16 (e % cmd.nDim.toNat))
  biasAddr e := cmd.biasAddr + .ofNat 16 (e % cmd.nDim.toNat)
  quantShift := cmd.quantShift
  actMode := cmd.actMode

structure Positive (cmd : GemmCmd) : Prop where
  m : 0 < cmd.mDim.toNat
  n : 0 < cmd.nDim.toNat
  k : 0 < cmd.kDim.toNat

theorem Positive.job {cmd : GemmCmd} (h : cmd.Positive) : cmd.job.Positive :=
  ⟨Nat.mul_pos h.m h.n, h.k⟩

end GemmCmd

end LgNpu
