import LgNpu.Mac.Units
import LgNpu.System

/-!
# The multiply-accumulate backends

`conv_backend` and `gemm_backend` are one datapath behind different front ends.
A `MacFront` is the front end (controller, address generator and the metadata
registers `*_iter_r`), `MacPath` everything from the loader to the writer, and
`macBackend` joins the two as both sources do.
-/

namespace LgNpu

/-- What the datapath sees of the front end in one cycle. -/
structure FrontOut where
  addrGenValid : Bool
  actAddr : Addr
  wtAddr : Addr
  zeroPad : Bool
  lastInnerIterR : Bool
  accClrIterR : Bool
  wrAddrIterR : Addr
  biasAddrIterR : Addr
  quantShift : BitVec 5
  actMode : ActMode
  ctrlDone : Bool
  ctrlBusy : Bool

structure MacFront (F Cmd : Type) where
  out : F → FrontOut
  cmdReady : F → Bool
  /-- One edge, given the command port and `load_req_ready`. -/
  step : F → Cmd → Bool → Bool → F

structure MacPath where
  loader : ConvLoader
  lastInnerLoadR : Bool
  accClrLoadR : Bool
  wrAddrLoadR : Addr
  biasAddrLoadR : Addr
  lastInnerD : Bool
  wrAddrD : Addr
  accum : ConvAccum
  pe : ConvPe
  ppTriggerR : Bool
  biasVal : Byte
  postproc : Postproc
  wrAddrQ : SkidBuffer 16
  writer : ConvWriter
  ctrlFinished : Bool

namespace MacPath

def reset : MacPath where
  loader := .reset
  lastInnerLoadR := false
  accClrLoadR := false
  wrAddrLoadR := 0
  biasAddrLoadR := 0
  lastInnerD := false
  wrAddrD := 0
  accum := ⟨0⟩
  pe := ⟨0, false⟩
  ppTriggerR := false
  biasVal := 0
  postproc := .reset
  wrAddrQ := ⟨0, 0, false, false⟩
  writer := ⟨.idle, 0, 0⟩
  ctrlFinished := false

variable (s : MacPath)

/-! ## Wires -/

def ppOutReady : Bool := s.writer.inReady

def ppInReady : Bool := s.postproc.inReady s.ppOutReady

def peReadyOut : Bool := if s.lastInnerD then s.ppInReady && s.wrAddrQ.inReady else true

def loadPairReady : Bool := s.pe.readyOut s.peReadyOut

def peAccept : Bool := s.loader.pairValid && s.loadPairReady

def clr : Bool := s.accClrLoadR && s.peAccept

def accEn : Bool := s.pe.validR && s.peReadyOut

def ppTrigger : Bool := s.lastInnerD && s.pe.validR && s.peReadyOut

def pipeEmpty : Bool :=
  !s.ppTriggerR && !s.postproc.quant.valid && !s.wrAddrQ.outValid && s.ppOutReady

def done (o : FrontOut) : Bool := (o.ctrlDone || s.ctrlFinished) && s.pipeEmpty

def busy (o : FrontOut) : Bool := o.ctrlBusy || !s.pipeEmpty || s.ctrlFinished

def req : BeReq where
  actRdAddr := s.loader.actAddrR
  actRdReq := s.loader.actMemReq
  wtRdAddr := s.loader.wtAddrR
  wtRdReq := s.loader.wtMemReq
  outWrAddr := s.writer.addrR
  outWrData := s.writer.dataR
  outWrReq := s.writer.memReq
  biasRdAddr := s.biasAddrLoadR
  biasRdReq := s.lastInnerLoadR && s.peAccept

/-! ## Clock edge -/

def loadAccept (o : FrontOut) : Bool := o.addrGenValid && s.loader.loadReady

def step (o : FrontOut) (rsp : BeRsp) : MacPath where
  loader := s.loader.step o.actAddr o.wtAddr o.zeroPad o.addrGenValid rsp.actRdGnt rsp.actRdRdata
    rsp.actRdRvalid rsp.wtRdGnt rsp.wtRdRdata rsp.wtRdRvalid s.loadPairReady
  lastInnerLoadR := if s.loadAccept o then o.lastInnerIterR else s.lastInnerLoadR
  accClrLoadR := if s.loadAccept o then o.accClrIterR else s.accClrLoadR
  wrAddrLoadR := if s.loadAccept o then o.wrAddrIterR else s.wrAddrLoadR
  biasAddrLoadR := if s.loadAccept o then o.biasAddrIterR else s.biasAddrLoadR
  lastInnerD := if s.peAccept then s.lastInnerLoadR else s.lastInnerD
  wrAddrD := if s.peAccept then s.wrAddrLoadR else s.wrAddrD
  accum := s.accum.step s.clr s.accEn s.pe.resultR
  pe := s.pe.step s.loader.actR s.loader.wtR (s.accum.accFeedback s.clr) s.loader.pairValid
    s.peReadyOut
  ppTriggerR := s.ppTrigger
  biasVal := if rsp.biasRdRvalid then rsp.biasRdRdata else s.biasVal
  postproc := s.postproc.step s.biasVal o.quantShift o.actMode s.accum.accR s.ppTriggerR
    s.ppOutReady
  wrAddrQ := s.wrAddrQ.step s.wrAddrD s.ppTrigger (s.postproc.quant.valid && s.ppOutReady)
  writer := s.writer.step s.wrAddrQ.outData s.wrAddrQ.outValid s.postproc.quant.data
    s.postproc.quant.valid rsp.outWrGnt
  ctrlFinished := if s.done o then false else if o.ctrlDone then true else s.ctrlFinished

end MacPath

/-- A front end and the datapath behind it. -/
structure Mac (F : Type) where
  front : F
  path : MacPath

/-- The wiring of `conv_backend` and `gemm_backend`. -/
def macBackend {F Cmd : Type} (fe : MacFront F Cmd) : Backend (Mac F) Cmd where
  req s := s.path.req
  cmdReady s := fe.cmdReady s.front
  done s := s.path.done (fe.out s.front)
  busy s := s.path.busy (fe.out s.front)
  step s cmd cmdValid rsp :=
    ⟨fe.step s.front cmd cmdValid s.path.loader.loadReady, s.path.step (fe.out s.front) rsp⟩

end LgNpu
