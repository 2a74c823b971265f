import LgNpu.Pkg

/-!
# The units of the multiply-accumulate path

The stages that `conv_backend` and `gemm_backend` share: the operand loader,
the processing element with its accumulator, the post-processing pipeline, the
queue of write addresses and the writer.
-/

namespace LgNpu

/-! ## Handshake registers -/

structure PipelineReg (w : ℕ) where
  data : BitVec w
  valid : Bool

namespace PipelineReg

variable {w : ℕ} (s : PipelineReg w)

def inReady (outReady : Bool) : Bool := !s.valid || outReady

def step (inData : BitVec w) (inValid outReady : Bool) : PipelineReg w where
  data := if inValid && s.inReady outReady then inData else s.data
  valid :=
    if inValid && s.inReady outReady then true
    else if s.valid && outReady then false
    else s.valid

end PipelineReg

/-- `skid_buffer`: an output register and one spare. -/
structure SkidBuffer (w : ℕ) where
  outData : BitVec w
  skidData : BitVec w
  outValid : Bool
  skidValid : Bool

namespace SkidBuffer

variable {w : ℕ} (s : SkidBuffer w)

def inReady : Bool := !s.skidValid

def step (inData : BitVec w) (inValid outReady : Bool) : SkidBuffer w :=
  let popOut := s.outValid && outReady
  let pushIn := inValid && s.inReady
  let refillFromSkid := (popOut || !s.outValid) && s.skidValid
  let bypassToOut := (popOut || !s.outValid) && !s.skidValid && pushIn
  let spillToSkid := s.outValid && !outReady && pushIn
  { outData := if refillFromSkid then s.skidData else if bypassToOut then inData else s.outData
    skidData := if spillToSkid then inData else s.skidData
    outValid :=
      if refillFromSkid then true else if bypassToOut then true
      else if popOut then false else s.outValid
    skidValid := if spillToSkid then true else if refillFromSkid then false else s.skidValid }

end SkidBuffer

/-! ## Loader -/

inductive LoaderState
  | idle | req | wait | done
  deriving DecidableEq

structure ConvLoader where
  state : LoaderState
  actAddrR : Addr
  wtAddrR : Addr
  actR : Byte
  wtR : Byte
  actLatched : Bool
  wtLatched : Bool
  isZeroPadR : Bool

namespace ConvLoader

def reset : ConvLoader := ⟨.idle, 0, 0, 0, 0, false, false, false⟩

variable (s : ConvLoader)

def loadReady : Bool := s.state = .idle

def actMemReq : Bool := s.state = .req && !s.isZeroPadR && !s.actLatched

def wtMemReq : Bool := s.state = .req && !s.isZeroPadR && !s.wtLatched

def pairValid : Bool := s.state = .done

def stateNext (loadValid actGnt wtGnt pairReady : Bool) : LoaderState :=
  match s.state with
  | .idle => if loadValid then .req else .idle
  | .req =>
      if s.isZeroPadR then .done
      else if (s.actLatched || actGnt) && (s.wtLatched || wtGnt) then .wait
      else .req
  | .wait => if s.actLatched && s.wtLatched then .done else .wait
  | .done => if pairReady then .idle else .done

/-- The states in which read data is latched. -/
def receiving : Bool :=
  match s.state with
  | .req => true
  | .wait => true
  | _ => false

/-- A new pair of addresses is taken. -/
def taking (loadValid : Bool) : Bool := s.state = .idle && loadValid

def step (actAddr wtAddr : Addr) (zeroPad loadValid actGnt : Bool) (actRdata : Byte)
    (actRvalid wtGnt : Bool) (wtRdata : Byte) (wtRvalid pairReady : Bool) : ConvLoader where
  state := s.stateNext loadValid actGnt wtGnt pairReady
  actAddrR := if s.taking loadValid then actAddr else s.actAddrR
  wtAddrR := if s.taking loadValid then wtAddr else s.wtAddrR
  actR :=
    if s.taking loadValid && zeroPad then 0
    else if s.receiving && actRvalid && !s.actLatched then actRdata else s.actR
  wtR :=
    if s.taking loadValid && zeroPad then 0
    else if s.receiving && wtRvalid && !s.wtLatched then wtRdata else s.wtR
  actLatched :=
    if s.taking loadValid then zeroPad
    else if s.receiving && actRvalid && !s.actLatched then true else s.actLatched
  wtLatched :=
    if s.taking loadValid then zeroPad
    else if s.receiving && wtRvalid && !s.wtLatched then true else s.wtLatched
  isZeroPadR := if s.taking loadValid then zeroPad else s.isZeroPadR

end ConvLoader

/-! ## Processing element and accumulator -/

structure ConvPe where
  resultR : Acc
  validR : Bool

/-- `acc_in + ACC_W'(act_in * wt_in)`. -/
def macProduct (act wt : Byte) : Acc :=
  (act.signExtend 16 * wt.signExtend 16).signExtend 32

namespace ConvPe

variable (s : ConvPe)

def readyOut (readyIn : Bool) : Bool := !s.validR || readyIn

def step (act wt : Byte) (accIn : Acc) (validIn readyIn : Bool) : ConvPe where
  resultR := if validIn && s.readyOut readyIn then accIn + macProduct act wt else s.resultR
  validR :=
    if validIn && s.readyOut readyIn then true
    else if s.validR && readyIn then false
    else s.validR

end ConvPe

/-- `conv_accum`: clearing wins over accumulating. -/
structure ConvAccum where
  accR : Acc

namespace ConvAccum

variable (s : ConvAccum)

def accFeedback (clr : Bool) : Acc := if clr then 0 else s.accR

def step (clr accEn : Bool) (macResult : Acc) : ConvAccum where
  accR := if clr then 0 else if accEn then macResult else s.accR

end ConvAccum

/-! ## Post-processing -/

def biasAdd (biasVal : Byte) (x : Acc) : Acc := x + biasVal.signExtend 32

/-- `activation`; the encoding outside the enumeration falls to the default. -/
def activate (mode : ActMode) (x : Acc) : Acc :=
  if mode = ActMode.actNone then x
  else if mode = ActMode.actLeakyRelu then (if x.slt 0 then x.sshiftRight leakyShift else x)
  else if x.slt 0 then 0 else x

def quantize (shift : BitVec 5) (x : Acc) : Byte :=
  if (127 : BitVec 32).slt (x.sshiftRight shift.toNat) then 127
  else if (x.sshiftRight shift.toNat).slt (-128) then 0x80
  else (x.sshiftRight shift.toNat).setWidth 8

/-- `postproc`: three registered stages. -/
structure Postproc where
  bias : PipelineReg 32
  relu : PipelineReg 32
  quant : PipelineReg 8

namespace Postproc

def reset : Postproc := ⟨⟨0, false⟩, ⟨0, false⟩, ⟨0, false⟩⟩

variable (s : Postproc)

def quantReady (outReady : Bool) : Bool := s.quant.inReady outReady

def reluReady (outReady : Bool) : Bool := s.relu.inReady (s.quantReady outReady)

def inReady (outReady : Bool) : Bool := s.bias.inReady (s.reluReady outReady)

def step (biasVal : Byte) (quantShift : BitVec 5) (actMode : ActMode) (inData : Acc)
    (inValid outReady : Bool) : Postproc where
  bias := s.bias.step (biasAdd biasVal inData) inValid (s.reluReady outReady)
  relu := s.relu.step (activate actMode s.bias.data) s.bias.valid (s.quantReady outReady)
  quant := s.quant.step (quantize quantShift s.relu.data) s.relu.valid outReady

end Postproc

/-! ## Writer -/

inductive WriterState
  | idle | write | ack
  deriving DecidableEq

structure ConvWriter where
  state : WriterState
  addrR : Addr
  dataR : Byte

namespace ConvWriter

variable (s : ConvWriter)

def inReady : Bool := s.state = .idle

def memReq : Bool := s.state = .write

def step (outAddr : Addr) (addrValid : Bool) (inData : Byte) (inValid memGnt : Bool) :
    ConvWriter where
  state :=
    match s.state with
    | .idle => if inValid && addrValid then .write else .idle
    | .write => if memGnt then .ack else .write
    | .ack => .idle
  addrR := if s.state = .idle ∧ inValid ∧ addrValid then outAddr else s.addrR
  dataR := if s.state = .idle ∧ inValid ∧ addrValid then inData else s.dataR

end ConvWriter

end LgNpu
