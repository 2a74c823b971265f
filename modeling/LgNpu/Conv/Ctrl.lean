import LgNpu.Mac.Front

/-!
# The convolution front end

`conv_ctrl` walks `(oh, ow, k, r, s, c)`, `conv_addr_gen` turns the indices into
operand addresses in four stages, and `conv_backend` keeps the metadata of the
iteration at hand, with a write address that only ever counts up.
-/

namespace LgNpu

/-! ## Controller -/

structure ConvCtrl where
  state : LoopState
  cmdR : ConvCmd
  ohR : Dim
  owR : Dim
  kR : Dim
  rR : Dim
  sR : Dim
  cR : Dim

namespace ConvCtrl

def reset : ConvCtrl :=
  ⟨.idle, ⟨0, 0, 0, 0, 0, 0, 0, 0, 0, 0, 0, 0, 0, 0, 0, 0, 0, 0, 0⟩, 0, 0, 0, 0, 0, 0⟩

variable (s : ConvCtrl)

/-! The output limits are 16-bit registers, so a zero output side counts as
`2 ^ 16`; the other limits are compared at 32 bits. -/

def ohMax : Dim := s.cmdR.outH - 1

def owMax : Dim := s.cmdR.outW - 1

def lastC : Bool := eqLast s.cR s.cmdR.inC

def lastS : Bool := eqLast s.sR s.cmdR.filtS

def lastR : Bool := eqLast s.rR s.cmdR.filtR

def lastK : Bool := eqLast s.kR s.cmdR.outK

def lastOw : Bool := s.owR == s.owMax

def innerLast : Bool := s.lastR && s.lastS && s.lastC

def outerLast : Bool := s.ohR == s.ohMax && s.lastOw && s.lastK

def iterValid : Bool := s.state = .compute

def accClr : Bool := s.state = .compute && s.rR = 0 && s.sR = 0 && s.cR = 0

def advance (iterReady : Bool) : Bool := s.state = .compute && iterReady

/-! The carries of the loop nest, from the inside out. -/

def stepC (iterReady : Bool) : Bool := s.advance iterReady

def stepS (iterReady : Bool) : Bool := s.stepC iterReady && s.lastC

def stepR (iterReady : Bool) : Bool := s.stepS iterReady && s.lastS

def stepK (iterReady : Bool) : Bool := s.stepR iterReady && s.lastR

def stepOw (iterReady : Bool) : Bool := s.stepK iterReady && s.lastK

def stepOh (iterReady : Bool) : Bool := s.stepOw iterReady && s.lastOw

def step (cmd : ConvCmd) (cmdValid iterReady : Bool) : ConvCtrl where
  state := s.state.next cmdValid iterReady (s.innerLast && s.outerLast)
  cmdR := if s.state = .idle && cmdValid then cmd else s.cmdR
  cR :=
    if s.state = .loadCfg then 0
    else if s.stepC iterReady then (if s.lastC then 0 else s.cR + 1) else s.cR
  sR :=
    if s.state = .loadCfg then 0
    else if s.stepS iterReady then (if s.lastS then 0 else s.sR + 1) else s.sR
  rR :=
    if s.state = .loadCfg then 0
    else if s.stepR iterReady then (if s.lastR then 0 else s.rR + 1) else s.rR
  kR :=
    if s.state = .loadCfg then 0
    else if s.stepK iterReady then (if s.lastK then 0 else s.kR + 1) else s.kR
  owR :=
    if s.state = .loadCfg then 0
    else if s.stepOw iterReady then (if s.lastOw then 0 else s.owR + 1) else s.owR
  ohR :=
    if s.state = .loadCfg then 0
    else if s.stepOh iterReady && s.ohR.ult s.ohMax then s.ohR + 1 else s.ohR

end ConvCtrl

/-! ## Address generator -/

/-- An input coordinate: signed, one bit wider than a dimension. -/
def inCoord (o stride f pad : Dim) : BitVec 17 :=
  o.setWidth 17 * stride.setWidth 17 + f.setWidth 17 - pad.setWidth 17

/-- The coordinate is not one of the map's. -/
def outside (coord : BitVec 17) (d : Dim) : Bool :=
  coord.slt 0 || !coord.slt (d.setWidth 17)

inductive ConvAddrState
  | idle | stage1 | stage2 | stage3 | out
  deriving DecidableEq

structure ConvAddrGen where
  state : ConvAddrState
  zeroPadS1 : Bool
  actBaseS1 : Addr
  wtBaseS1 : Addr
  inCS1 : Dim
  filtSS1 : Dim
  iwUS1 : Dim
  cS1 : Dim
  rS1 : Dim
  sS1 : Dim
  actM1S1 : BitVec 32
  wtM1S1 : BitVec 32
  actM2S2 : BitVec 32
  wtM2S2 : BitVec 32
  zeroPadS2 : Bool
  actBaseS2 : Addr
  wtBaseS2 : Addr
  inCS2 : Dim
  cS2 : Dim
  sS2 : Dim
  actIdxS3 : Addr
  wtIdxS3 : Addr
  zeroPadS3 : Bool
  actBaseS3 : Addr
  wtBaseS3 : Addr
  actAddrR : Addr
  wtAddrR : Addr
  zeroPadR : Bool

/-- The inputs of the address generator but for the handshake. -/
structure ConvAddrIn where
  actBase : Addr
  wtBase : Addr
  inH : Dim
  inW : Dim
  inC : Dim
  filtR : Dim
  filtS : Dim
  oh : Dim
  ow : Dim
  k : Dim
  r : Dim
  s : Dim
  c : Dim
  strideH : Dim
  strideW : Dim
  padH : Dim
  padW : Dim

namespace ConvAddrIn

variable (i : ConvAddrIn)

def ihCalcW : BitVec 17 := inCoord i.oh i.strideH i.r i.padH

def iwCalcW : BitVec 17 := inCoord i.ow i.strideW i.s i.padW

end ConvAddrIn

namespace ConvAddrGen

def reset : ConvAddrGen :=
  ⟨.idle, false, 0, 0, 0, 0, 0, 0, 0, 0, 0, 0, 0, 0, false, 0, 0, 0, 0, 0, 0, 0, false, 0, 0, 0, 0,
    false⟩

variable (s : ConvAddrGen)

def inReady : Bool := s.state = .idle

def outValid : Bool := s.state = .out

def taking (inValid : Bool) : Bool := s.state = .idle && inValid

def step (inValid outReady : Bool) (i : ConvAddrIn) : ConvAddrGen where
  state :=
    match s.state with
    | .idle => if inValid then .stage1 else .idle
    | .stage1 => .stage2
    | .stage2 => .stage3
    | .stage3 => .out
    | .out => if outReady then .idle else .out
  zeroPadS1 :=
    if s.taking inValid then outside i.ihCalcW i.inH || outside i.iwCalcW i.inW else s.zeroPadS1
  actBaseS1 := if s.taking inValid then i.actBase else s.actBaseS1
  wtBaseS1 := if s.taking inValid then i.wtBase else s.wtBaseS1
  inCS1 := if s.taking inValid then i.inC else s.inCS1
  filtSS1 := if s.taking inValid then i.filtS else s.filtSS1
  iwUS1 := if s.taking inValid then i.iwCalcW.setWidth 16 else s.iwUS1
  cS1 := if s.taking inValid then i.c else s.cS1
  rS1 := if s.taking inValid then i.r else s.rS1
  sS1 := if s.taking inValid then i.s else s.sS1
  actM1S1 :=
    if s.taking inValid then (i.ihCalcW.setWidth 16).setWidth 32 * i.inW.setWidth 32
    else s.actM1S1
  wtM1S1 := if s.taking inValid then i.k.setWidth 32 * i.filtR.setWidth 32 else s.wtM1S1
  actM2S2 :=
    if s.state = .stage1 then (s.actM1S1 + s.iwUS1.setWidth 32) * s.inCS1.setWidth 32
    else s.actM2S2
  wtM2S2 :=
    if s.state = .stage1 then (s.wtM1S1 + s.rS1.setWidth 32) * s.filtSS1.setWidth 32
    else s.wtM2S2
  zeroPadS2 := if s.state = .stage1 then s.zeroPadS1 else s.zeroPadS2
  actBaseS2 := if s.state = .stage1 then s.actBaseS1 else s.actBaseS2
  wtBaseS2 := if s.state = .stage1 then s.wtBaseS1 else s.wtBaseS2
  inCS2 := if s.state = .stage1 then s.inCS1 else s.inCS2
  cS2 := if s.state = .stage1 then s.cS1 else s.cS2
  sS2 := if s.state = .stage1 then s.sS1 else s.sS2
  actIdxS3 :=
    if s.state = .stage2 then (s.actM2S2 + s.cS2.setWidth 32).setWidth 16 else s.actIdxS3
  wtIdxS3 :=
    if s.state = .stage2 then
      ((s.wtM2S2 + s.sS2.setWidth 32) * s.inCS2.setWidth 32 + s.cS2.setWidth 32).setWidth 16
    else s.wtIdxS3
  zeroPadS3 := if s.state = .stage2 then s.zeroPadS2 else s.zeroPadS3
  actBaseS3 := if s.state = .stage2 then s.actBaseS2 else s.actBaseS3
  wtBaseS3 := if s.state = .stage2 then s.wtBaseS2 else s.wtBaseS3
  actAddrR := if s.state = .stage3 then s.actBaseS3 + s.actIdxS3 else s.actAddrR
  wtAddrR := if s.state = .stage3 then s.wtBaseS3 + s.wtIdxS3 else s.wtAddrR
  zeroPadR := if s.state = .stage3 then s.zeroPadS3 else s.zeroPadR

end ConvAddrGen

/-! ## The front end of `conv_backend` -/

structure ConvFront where
  ctrl : ConvCtrl
  addrGen : ConvAddrGen
  lastInnerIterR : Bool
  accClrIterR : Bool
  wrAddrIterR : Addr
  biasAddrIterR : Addr
  firstLastInnerSeenR : Bool

namespace ConvFront

def reset : ConvFront := ⟨.reset, .reset, false, false, 0, 0, false⟩

variable (s : ConvFront)

def iterAccept : Bool := s.ctrl.iterValid && s.addrGen.inReady

def addrIn : ConvAddrIn where
  actBase := s.ctrl.cmdR.actInAddr
  wtBase := s.ctrl.cmdR.weightAddr
  inH := s.ctrl.cmdR.inH
  inW := s.ctrl.cmdR.inW
  inC := s.ctrl.cmdR.inC
  filtR := s.ctrl.cmdR.filtR
  filtS := s.ctrl.cmdR.filtS
  oh := s.ctrl.ohR
  ow := s.ctrl.owR
  k := s.ctrl.kR
  r := s.ctrl.rR
  s := s.ctrl.sR
  c := s.ctrl.cR
  strideH := s.ctrl.cmdR.strideH
  strideW := s.ctrl.cmdR.strideW
  padH := s.ctrl.cmdR.padH
  padW := s.ctrl.cmdR.padW

def step (cmd : ConvCmd) (cmdValid loadReqReady : Bool) : ConvFront where
  ctrl := s.ctrl.step cmd cmdValid s.addrGen.inReady
  addrGen := s.addrGen.step s.ctrl.iterValid loadReqReady s.addrIn
  lastInnerIterR := if s.iterAccept then s.ctrl.innerLast else s.lastInnerIterR
  accClrIterR := if s.iterAccept then s.ctrl.accClr else s.accClrIterR
  wrAddrIterR :=
    if s.iterAccept && s.ctrl.innerLast then
      (if s.firstLastInnerSeenR then s.wrAddrIterR + 1 else s.ctrl.cmdR.actOutAddr)
    else s.wrAddrIterR
  biasAddrIterR :=
    if s.iterAccept && s.ctrl.innerLast then s.ctrl.cmdR.biasAddr + s.ctrl.kR
    else s.biasAddrIterR
  firstLastInnerSeenR :=
    if s.iterAccept && s.ctrl.innerLast then true
    else if cmdValid && s.ctrl.state = .idle then false
    else s.firstLastInnerSeenR

end ConvFront

def convFront : MacFront ConvFront ConvCmd where
  out s :=
    { addrGenValid := s.addrGen.outValid
      actAddr := s.addrGen.actAddrR
      wtAddr := s.addrGen.wtAddrR
      zeroPad := s.addrGen.zeroPadR
      lastInnerIterR := s.lastInnerIterR
      accClrIterR := s.accClrIterR
      wrAddrIterR := s.wrAddrIterR
      biasAddrIterR := s.biasAddrIterR
      quantShift := s.ctrl.cmdR.quantShift
      actMode := s.ctrl.cmdR.actMode
      ctrlDone := s.ctrl.state = .done
      ctrlBusy := s.ctrl.state ≠ .idle }
  cmdReady s := s.ctrl.state = .idle
  step := ConvFront.step

def convBackend : Backend (Mac ConvFront) ConvCmd := macBackend convFront

/-! ## The job of a command -/

/-- A side whose limit is a 16-bit register. -/
def limitDim (d : Dim) : ℕ := if d = 0 then 2 ^ 16 else d.toNat

theorem limitDim_pos (d : Dim) : 0 < limitDim d := by
  rw [limitDim]
  split
  · decide
  · next h => exact Nat.pos_of_ne_zero fun h0 ↦ h (BitVec.eq_of_toNat_eq h0)

theorem limitDim_le (d : Dim) : limitDim d ≤ 2 ^ 16 := by
  rw [limitDim]
  split
  · exact le_rfl
  · exact d.isLt.le

theorem limitDim_of_pos {d : Dim} (h : 0 < d.toNat) : limitDim d = d.toNat :=
  if_neg fun h0 ↦ by simp [h0] at h

theorem toNat_pred (d : Dim) : (d - 1).toNat + 1 = limitDim d := by
  rw [limitDim]
  split
  · next h =>
      subst h
      rfl
  · next h =>
      have hne : d.toNat ≠ 0 := fun h0 ↦ h (BitVec.eq_of_toNat_eq h0)
      bv_omega

namespace ConvCmd

variable (cmd : ConvCmd)

/-! Iteration `i` is `(oh, ow, k, r, s, c)` with `c` innermost. -/

def cAt (i : ℕ) : ℕ := i % cmd.inC.toNat

def sAt (i : ℕ) : ℕ := i / cmd.inC.toNat % cmd.filtS.toNat

def rAt (i : ℕ) : ℕ := i / cmd.inC.toNat / cmd.filtS.toNat % cmd.filtR.toNat

/-- The output element of iteration `i`. -/
def elemAt (i : ℕ) : ℕ := i / cmd.inC.toNat / cmd.filtS.toNat / cmd.filtR.toNat

def kOf (e : ℕ) : ℕ := e % cmd.outK.toNat

def owOf (e : ℕ) : ℕ := e / cmd.outK.toNat % limitDim cmd.outW

def ohOf (e : ℕ) : ℕ := e / cmd.outK.toNat / limitDim cmd.outW

def ihAt (i : ℕ) : BitVec 17 :=
  inCoord (.ofNat 16 (cmd.ohOf (cmd.elemAt i))) cmd.strideH (.ofNat 16 (cmd.rAt i)) cmd.padH

def iwAt (i : ℕ) : BitVec 17 :=
  inCoord (.ofNat 16 (cmd.owOf (cmd.elemAt i))) cmd.strideW (.ofNat 16 (cmd.sAt i)) cmd.padW

def job : MacJob where
  outs := limitDim cmd.outH * limitDim cmd.outW * cmd.outK.toNat
  its := cmd.filtR.toNat * cmd.filtS.toNat * cmd.inC.toNat
  actAddr i := cmd.actInAddr + (((cmd.ihAt i).setWidth 16 * cmd.inW + (cmd.iwAt i).setWidth 16) *
    cmd.inC + .ofNat 16 (cmd.cAt i))
  wtAddr i := cmd.weightAddr + (((.ofNat 16 (cmd.kOf (cmd.elemAt i)) * cmd.filtR +
    .ofNat 16 (cmd.rAt i)) * cmd.filtS + .ofNat 16 (cmd.sAt i)) * cmd.inC + .ofNat 16 (cmd.cAt i))
  zeroPad i := outside (cmd.ihAt i) cmd.inH || outside (cmd.iwAt i) cmd.inW
  wrAddr e := cmd.actOutAddr + .ofNat 16 e
  biasAddr e := cmd.biasAddr + .ofNat 16 (cmd.kOf e)
  quantShift := cmd.quantShift
  actMode := cmd.actMode

/-- The sides that must not be zero for the nest to end. -/
structure Looping (cmd : ConvCmd) : Prop where
  c : 0 < cmd.inC.toNat
  s : 0 < cmd.filtS.toNat
  r : 0 < cmd.filtR.toNat
  k : 0 < cmd.outK.toNat

theorem Looping.job {cmd : ConvCmd} (h : cmd.Looping) : cmd.job.Positive :=
  ⟨Nat.mul_pos (Nat.mul_pos (limitDim_pos _) (limitDim_pos _)) h.k,
    Nat.mul_pos (Nat.mul_pos h.r h.s) h.c⟩

end ConvCmd

end LgNpu
