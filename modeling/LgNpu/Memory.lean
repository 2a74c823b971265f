import LgNpu.Pkg
import Mathlib.Logic.Function.Basic

/-!
# The memory subsystem

`npu_mem_top` from the SRAM wrappers up to the buffer router.  Every module is
a record of its registers with one `step` per clock edge; its outputs are
functions of the registers and of the inputs of the same cycle.
-/

namespace LgNpu

/-! ## SRAM wrappers -/

/-- `mem_macro_1rw1r_wrap`: port A reads and writes, port B only reads. -/
structure MemMacro1rw1r (aw dw : ℕ) where
  mem : BitVec aw → BitVec dw
  aRdata : BitVec dw
  bRdata : BitVec dw

def MemMacro1rw1r.step {aw dw : ℕ} (s : MemMacro1rw1r aw dw) (aAddr : BitVec aw)
    (aWdata : BitVec dw) (aWe aEn : Bool) (bAddr : BitVec aw) (bEn : Bool) :
    MemMacro1rw1r aw dw where
  mem := if aEn && aWe then Function.update s.mem aAddr aWdata else s.mem
  aRdata := if aEn && !aWe then s.mem aAddr else s.aRdata
  bRdata := if bEn then s.mem bAddr else s.bRdata

/-- `mem_macro_wrap`: a single read/write port. -/
structure MemMacro (aw dw : ℕ) where
  mem : BitVec aw → BitVec dw
  rdata : BitVec dw

def MemMacro.step {aw dw : ℕ} (s : MemMacro aw dw) (addr : BitVec aw) (wdata : BitVec dw)
    (we en : Bool) : MemMacro aw dw where
  mem := if en && we then Function.update s.mem addr wdata else s.mem
  rdata := if en && !we then s.mem addr else s.rdata

/-! ## Buffer banks -/

structure NpuWeightBuffer where
  sram : MemMacro1rw1r 12 8
  hostRdR : Bool
  beRdR : Bool

def NpuWeightBuffer.step (s : NpuWeightBuffer) (hostAddr : BitVec 12) (hostWdata : Byte)
    (hostWe hostReq : Bool) (beAddr : BitVec 12) (beReq : Bool) : NpuWeightBuffer where
  sram := s.sram.step hostAddr hostWdata hostWe hostReq beAddr beReq
  hostRdR := hostReq && !hostWe
  beRdR := beReq

/-- Port A serves the backend write first and the host otherwise; port B is
the backend's own read path. -/
structure NpuActBuffer where
  sram : MemMacro1rw1r 13 8
  hostRdAcceptR : Bool
  beRdAcceptR : Bool

def NpuActBuffer.step (s : NpuActBuffer) (hostAddr : BitVec 13) (hostWdata : Byte)
    (hostWe hostReq : Bool) (beRdAddr : BitVec 13) (beRdReq : Bool) (beWrAddr : BitVec 13)
    (beWrData : Byte) (beWrReq : Bool) : NpuActBuffer where
  sram := s.sram.step
    (if beWrReq then beWrAddr else hostAddr)
    (if beWrReq then beWrData else hostWdata)
    (if beWrReq then true else hostReq && hostWe && !beWrReq)
    (beWrReq || hostReq) beRdAddr beRdReq
  hostRdAcceptR := hostReq && !hostWe && !beWrReq
  beRdAcceptR := beRdReq

/-- `npu_psum_buffer`, through `npu_local_mem_wrap`. -/
structure NpuPsumBuffer where
  sram : MemMacro 12 32
  rvalid : Bool

def NpuPsumBuffer.step (s : NpuPsumBuffer) (hostAddr : BitVec 12) (hostWdata : MmioData)
    (hostWe hostReq : Bool) : NpuPsumBuffer where
  sram := s.sram.step hostAddr hostWdata hostWe hostReq
  rvalid := hostReq && !hostWe

/-! ## Ports of the router -/

structure HostReq where
  addr : MmioAddr
  wdata : MmioData
  wr : Bool
  req : Bool

def HostReq.idle : HostReq := ⟨0, 0, false, false⟩

structure HostRsp where
  gnt : Bool
  rdata : MmioData
  rvalid : Bool

/-- The memory requests of a backend in one cycle. -/
structure BeReq where
  actRdAddr : Addr
  actRdReq : Bool
  wtRdAddr : Addr
  wtRdReq : Bool
  outWrAddr : Addr
  outWrData : Byte
  outWrReq : Bool
  biasRdAddr : Addr
  biasRdReq : Bool

/-- What a backend sees of the memory in one cycle. -/
structure BeRsp where
  actRdGnt : Bool
  actRdRdata : Byte
  actRdRvalid : Bool
  wtRdGnt : Bool
  wtRdRdata : Byte
  wtRdRvalid : Bool
  outWrGnt : Bool
  biasRdGnt : Bool
  biasRdRdata : Byte
  biasRdRvalid : Bool

/-! ## The router -/

structure NpuMemTop where
  wtBuf : NpuWeightBuffer
  actBuf : NpuActBuffer
  psumBuf : NpuPsumBuffer
  biasPendingR : Bool
  biasAddrPendingR : BitVec 12
  biasWasSel : Bool

namespace NpuMemTop

def hostSelWt (addr : MmioAddr) : Bool :=
  !addr.ult weightBufBase && addr.ult actBufBase

def hostSelAct (addr : MmioAddr) : Bool :=
  !addr.ult actBufBase && addr.ult psumBufBase

def hostSelPsum (addr : MmioAddr) : Bool := !addr.ult psumBufBase

/-- Weight reads have priority; a colliding bias request is deferred. -/
def wtIssueBias (s : NpuMemTop) (q : BeReq) : Bool :=
  s.biasPendingR || (q.biasRdReq && !q.wtRdReq)

def wtBeAddr (s : NpuMemTop) (q : BeReq) : BitVec 12 :=
  if s.wtIssueBias q then
    if s.biasPendingR then s.biasAddrPendingR else q.biasRdAddr.setWidth 12
  else q.wtRdAddr.setWidth 12

def wtBeReq (s : NpuMemTop) (q : BeReq) : Bool := q.wtRdReq || s.wtIssueBias q

def hostGnt (h : HostReq) (q : BeReq) : Bool :=
  (hostSelWt h.addr && h.req) || (hostSelAct h.addr && (h.req && !q.outWrReq)) ||
    (hostSelPsum h.addr && h.req)

def hostRsp (s : NpuMemTop) (h : HostReq) (q : BeReq) : HostRsp where
  gnt := hostGnt h q
  rvalid := s.wtBuf.hostRdR || s.actBuf.hostRdAcceptR || s.psumBuf.rvalid
  rdata :=
    if s.wtBuf.hostRdR then s.wtBuf.sram.aRdata.setWidth 32
    else if s.actBuf.hostRdAcceptR then s.actBuf.sram.aRdata.setWidth 32
    else if s.psumBuf.rvalid then s.psumBuf.sram.rdata else 0

def beRsp (s : NpuMemTop) (q : BeReq) : BeRsp where
  actRdGnt := q.actRdReq
  actRdRdata := s.actBuf.sram.bRdata
  actRdRvalid := s.actBuf.beRdAcceptR
  wtRdGnt := s.wtBeReq q && !s.wtIssueBias q
  wtRdRdata := s.wtBuf.sram.bRdata
  wtRdRvalid := s.wtBuf.beRdR && !s.biasWasSel
  outWrGnt := q.outWrReq
  biasRdGnt := s.wtBeReq q && s.wtIssueBias q
  biasRdRdata := s.wtBuf.sram.bRdata
  biasRdRvalid := s.wtBuf.beRdR && s.biasWasSel

def step (s : NpuMemTop) (h : HostReq) (q : BeReq) : NpuMemTop where
  wtBuf := s.wtBuf.step (h.addr.setWidth 12) (h.wdata.setWidth 8) h.wr
    (h.req && hostSelWt h.addr) (s.wtBeAddr q) (s.wtBeReq q)
  actBuf := s.actBuf.step (h.addr.setWidth 13) (h.wdata.setWidth 8) h.wr
    (h.req && hostSelAct h.addr) (q.actRdAddr.setWidth 13) q.actRdReq
    (q.outWrAddr.setWidth 13) q.outWrData q.outWrReq
  psumBuf := s.psumBuf.step (h.addr.setWidth 12) h.wdata h.wr (h.req && hostSelPsum h.addr)
  biasPendingR :=
    if s.wtBeReq q && s.wtIssueBias q then false
    else if q.biasRdReq && q.wtRdReq && !s.biasPendingR then true else s.biasPendingR
  biasAddrPendingR :=
    if q.biasRdReq && q.wtRdReq && !s.biasPendingR then q.biasRdAddr.setWidth 12
    else s.biasAddrPendingR
  biasWasSel := if s.wtBeReq q then s.wtIssueBias q else s.biasWasSel

/-- Out of reset, with the given buffer contents; no access is in flight. -/
def reset (act : BitVec 13 → Byte) (wt : BitVec 12 → Byte) : NpuMemTop where
  wtBuf := ⟨⟨wt, 0, 0⟩, false, false⟩
  actBuf := ⟨⟨act, 0, 0⟩, false, false⟩
  psumBuf := ⟨⟨fun _ ↦ 0, 0⟩, false⟩
  biasPendingR := false
  biasAddrPendingR := 0
  biasWasSel := false

def act (s : NpuMemTop) : BitVec 13 → Byte := s.actBuf.sram.mem

def wt (s : NpuMemTop) : BitVec 12 → Byte := s.wtBuf.sram.mem

/-! ## One cycle without host traffic -/

variable (s : NpuMemTop) (q : BeReq)

theorem act_step : (s.step .idle q).act =
    if q.outWrReq then Function.update s.act (q.outWrAddr.setWidth 13) q.outWrData else s.act := by
  cases h : q.outWrReq <;>
    simp [step, act, NpuActBuffer.step, MemMacro1rw1r.step, HostReq.idle, h]

@[simp] theorem wt_step : (s.step .idle q).wt = s.wt := by
  simp [step, wt, NpuWeightBuffer.step, MemMacro1rw1r.step, HostReq.idle]

@[simp] theorem actRdRvalid_step (h : HostReq) : (s.step h q).actBuf.beRdAcceptR = q.actRdReq := rfl

theorem actRdRdata_step (h : HostReq) : (s.step h q).actBuf.sram.bRdata =
    if q.actRdReq then s.act (q.actRdAddr.setWidth 13) else s.actBuf.sram.bRdata := rfl

/-- The response of the weight port is for the weight reader. -/
def wtRvalid : Bool := s.wtBuf.beRdR && !s.biasWasSel

/-- The response of the weight port is for the bias reader. -/
def biasRvalid : Bool := s.wtBuf.beRdR && s.biasWasSel

/-! A backend that never asks for a weight and a bias in one cycle has its
requests answered in the next. -/

variable {s q} {h : HostReq} (hn : s.biasPendingR = false)
include hn

theorem wtRdGnt_eq : (s.beRsp q).wtRdGnt = q.wtRdReq := by
  cases hb : q.biasRdReq <;> cases hw : q.wtRdReq <;>
    simp [beRsp, wtBeReq, wtIssueBias, hn, hb, hw]

variable (hone : (q.biasRdReq && q.wtRdReq) = false)
include hone

theorem biasRdGnt_eq : (s.beRsp q).biasRdGnt = q.biasRdReq := by
  cases hb : q.biasRdReq <;> cases hw : q.wtRdReq <;>
    simp_all [beRsp, wtBeReq, wtIssueBias]

theorem biasPendingR_step : (s.step h q).biasPendingR = false := by
  cases hb : q.biasRdReq <;> cases hw : q.wtRdReq <;>
    simp_all [step, wtBeReq, wtIssueBias]

theorem wtRvalid_step : (s.step h q).wtRvalid = q.wtRdReq := by
  cases hb : q.biasRdReq <;> cases hw : q.wtRdReq <;>
    simp_all [step, wtRvalid, wtBeReq, wtIssueBias, NpuWeightBuffer.step]

theorem biasRvalid_step : (s.step h q).biasRvalid = q.biasRdReq := by
  cases hb : q.biasRdReq <;> cases hw : q.wtRdReq <;>
    simp_all [step, biasRvalid, wtBeReq, wtIssueBias, NpuWeightBuffer.step]

theorem wtRdata_step (hreq : q.wtRdReq = true) :
    (s.step h q).wtBuf.sram.bRdata = s.wt (q.wtRdAddr.setWidth 12) := by
  simp_all [step, wt, wtBeReq, wtBeAddr, wtIssueBias, NpuWeightBuffer.step, MemMacro1rw1r.step]

theorem biasRdata_step (hreq : q.biasRdReq = true) :
    (s.step h q).wtBuf.sram.bRdata = s.wt (q.biasRdAddr.setWidth 12) := by
  simp_all [step, wt, wtBeReq, wtBeAddr, wtIssueBias, NpuWeightBuffer.step, MemMacro1rw1r.step]

end NpuMemTop

end LgNpu
