import LgNpu.Host.Queue

/-!
# From the doorbell to the queue

The part of `npu_reg_block` that serves submissions (doorbell pulse and command
window), `npu_cmd_fetch`, `npu_cmd_decode` and `npu_queue` as `npu_shell` wires
them.  The inputs are the host's bus and the pop side of the queue.
-/

namespace LgNpu

/-- One cycle of the host bus. -/
structure Mmio where
  addr : MmioAddr
  wdata : MmioData
  wr : Bool
  valid : Bool

def Mmio.idle : Mmio := ⟨0, 0, false, false⟩

def regCtrl : MmioAddr := 0x0000
def regStatus : MmioAddr := 0x0004
def regDoorbell : MmioAddr := 0x0008
def cmdQueueBase : MmioAddr := 0x1000

namespace Mmio

variable (m : Mmio)

def isReg : Bool := m.addr.ult cmdQueueBase

def isCmdQueue : Bool := !m.addr.ult cmdQueueBase && m.addr.ult weightBufBase

def writes : Bool := m.valid && m.wr

/-- A write of the doorbell register. -/
def rings : Bool := m.writes && m.isReg && m.addr == regDoorbell

end Mmio

/-! ## Register block -/

structure NpuRegBlock where
  doorbellR : Bool
  cmdMem : BitVec 4 → MmioData
  fetchRvalidR : Bool
  fetchRdataR : MmioData

/-- The word of the window an address selects. -/
def windowIdx (addr : MmioAddr) : BitVec 4 := ((addr - cmdQueueBase) >>> 2).setWidth 4

def NpuRegBlock.step (s : NpuRegBlock) (m : Mmio) (fetchAddr : MmioAddr) (fetchReq : Bool) :
    NpuRegBlock where
  doorbellR := m.rings
  cmdMem :=
    if m.writes && m.isCmdQueue then Function.update s.cmdMem (windowIdx m.addr) m.wdata
    else s.cmdMem
  fetchRvalidR := fetchReq
  fetchRdataR := if fetchReq then s.cmdMem (windowIdx fetchAddr) else s.fetchRdataR

/-! ## Fetch -/

inductive FetchState
  | idle | read | wait
  deriving DecidableEq

structure NpuCmdFetch where
  state : FetchState
  wordCnt : BitVec 4

namespace NpuCmdFetch

variable (s : NpuCmdFetch)

def cmdRdAddr : MmioAddr := cmdQueueBase + (s.wordCnt ++ 0#2).setWidth 20

def cmdRdReq : Bool := s.state = .read

def descWordValid (cmdRdValid : Bool) : Bool := s.state = .wait && cmdRdValid

def descDone (cmdRdValid : Bool) : Bool := s.descWordValid cmdRdValid && s.wordCnt == 15

def step (doorbell cmdRdValid : Bool) : NpuCmdFetch where
  state :=
    match s.state with
    | .idle => if doorbell then .read else .idle
    | .read => .wait
    | .wait => if cmdRdValid then (if s.wordCnt = 15 then .idle else .read) else .wait
  wordCnt :=
    if s.state = .idle ∧ doorbell then 0
    else if s.state = .wait ∧ cmdRdValid then s.wordCnt + 1
    else s.wordCnt

end NpuCmdFetch

/-! ## Decode -/

inductive DecodeState
  | idle | check | valid
  deriving DecidableEq

structure NpuCmdDecode where
  descRegs : BitVec 4 → MmioData
  state : DecodeState
  cmdR : ConvCmd
  errR : Bool

/-- None of the six opcodes. -/
def badOpcode (d : BitVec 4 → MmioData) : Bool :=
  (d 0).setWidth 4 != Opcode.opConv && (d 0).setWidth 4 != Opcode.opGemm &&
    (d 0).setWidth 4 != Opcode.opSoftmax && (d 0).setWidth 4 != Opcode.opVec &&
    (d 0).setWidth 4 != Opcode.opLnorm && (d 0).setWidth 4 != Opcode.opPool

/-- The command a descriptor encodes. -/
def packCmd (d : BitVec 4 → MmioData) : ConvCmd where
  opcode := (d 0).setWidth 4
  actInAddr := (d 1).setWidth 16
  actOutAddr := (d 2).setWidth 16
  weightAddr := (d 3).setWidth 16
  biasAddr := (d 4).setWidth 16
  inH := (d 5).setWidth 16
  inW := (d 6).setWidth 16
  inC := (d 7).setWidth 16
  outK := (d 8).setWidth 16
  filtR := (d 9).setWidth 16
  filtS := (d 10).setWidth 16
  strideH := (d 11).setWidth 16
  strideW := (d 12).setWidth 16
  padH := (d 13).setWidth 16
  padW := (d 14).setWidth 16
  outH := (d 13).extractLsb' 16 16
  outW := (d 14).extractLsb' 16 16
  quantShift := (d 15).setWidth 5
  actMode := (d 15).extractLsb' 5 2

namespace NpuCmdDecode

variable (s : NpuCmdDecode)

def cmdValid : Bool := s.state = .valid && !s.errR

def decodeErr : Bool := s.state = .valid && s.errR

def step (descWord : MmioData) (descWordIdx : BitVec 4) (descWordValid descDone cmdReady : Bool) :
    NpuCmdDecode where
  descRegs := if descWordValid then Function.update s.descRegs descWordIdx descWord else s.descRegs
  state :=
    match s.state with
    | .idle => if descDone then .check else .idle
    | .check => .valid
    | .valid => if cmdReady || s.errR then .idle else .valid
  cmdR := if s.state = .check then packCmd s.descRegs else s.cmdR
  errR := if s.state = .check then badOpcode s.descRegs else s.errR

end NpuCmdDecode

/-! ## The front end -/

structure FrontEnd where
  regs : NpuRegBlock
  fetch : NpuCmdFetch
  decode : NpuCmdDecode
  queue : NpuQueue

/-- What becomes of a doorbell: a command pushed, or an error pulse. -/
inductive Outcome
  | push (cmd : ConvCmd)
  | decodeErr
  deriving DecidableEq

namespace FrontEnd

/-- Out of reset; the window and the queue's storage are not reset. -/
def reset (cmdMem : BitVec 4 → MmioData) (mem : BitVec 2 → ConvCmd) : FrontEnd where
  regs := ⟨false, cmdMem, false, 0⟩
  fetch := ⟨.idle, 0⟩
  decode := ⟨fun _ ↦ 0, .idle, 0, false⟩
  queue := .reset mem

variable (s : FrontEnd)

/-- The last word of a descriptor is handed to the decoder. -/
def descDone : Bool := s.fetch.descDone s.regs.fetchRvalidR

/-- The `QUEUE_FULL` bit of `STATUS`. -/
def queueFull : Bool := s.queue.full

/-- The push or error pulse of this cycle. -/
def outcome : List Outcome :=
  if s.decode.cmdValid && s.queue.wrReady then [.push s.decode.cmdR]
  else if s.decode.decodeErr then [.decodeErr]
  else []

def step (m : Mmio) (rdReady : Bool) : FrontEnd where
  regs := s.regs.step m s.fetch.cmdRdAddr s.fetch.cmdRdReq
  fetch := s.fetch.step s.regs.doorbellR s.regs.fetchRvalidR
  decode := s.decode.step s.regs.fetchRdataR s.fetch.wordCnt
    (s.fetch.descWordValid s.regs.fetchRvalidR) s.descDone s.queue.wrReady
  queue := s.queue.step s.decode.cmdR s.decode.cmdValid rdReady

end FrontEnd

/-! ## Spec lemmas -/

theorem windowIdx_cmdRdAddr (f : NpuCmdFetch) : windowIdx f.cmdRdAddr = f.wordCnt := by
  have h : ∀ c : BitVec 4, windowIdx (cmdQueueBase + (c ++ 0#2).setWidth 20) = c := by decide
  exact h f.wordCnt

namespace FrontEnd

variable {s : FrontEnd} (m : Mmio) (rdReady : Bool)

theorem fetch_step_idle (h : s.fetch.state = .idle) (hd : s.regs.doorbellR = false) :
    (s.step m rdReady).fetch = ⟨.idle, s.fetch.wordCnt⟩ := by
  simp [step, NpuCmdFetch.step, h, hd]

theorem fetch_step_rung (h : s.fetch.state = .idle) (hd : s.regs.doorbellR = true) :
    (s.step m rdReady).fetch = ⟨.read, 0⟩ := by
  simp [step, NpuCmdFetch.step, h, hd]

theorem fetch_step_read (h : s.fetch.state = .read) :
    (s.step m rdReady).fetch = ⟨.wait, s.fetch.wordCnt⟩ ∧
      (s.step m rdReady).regs.fetchRvalidR = true ∧
      (s.step m rdReady).regs.fetchRdataR = s.regs.cmdMem s.fetch.wordCnt := by
  simp [step, NpuCmdFetch.step, NpuRegBlock.step, NpuCmdFetch.cmdRdReq, h, windowIdx_cmdRdAddr]

theorem fetch_step_wait (h : s.fetch.state = .wait) (hv : s.regs.fetchRvalidR = true) :
    (s.step m rdReady).fetch =
      ⟨if s.fetch.wordCnt = 15 then .idle else .read, s.fetch.wordCnt + 1⟩ := by
  simp [step, NpuCmdFetch.step, h, hv]

/-- The decoder takes a word only from a waiting fetch. -/
theorem descRegs_step (h : s.fetch.state ≠ .wait) :
    (s.step m rdReady).decode.descRegs = s.decode.descRegs := by
  simp [step, NpuCmdDecode.step, NpuCmdFetch.descWordValid, h]

theorem descRegs_step_wait (h : s.fetch.state = .wait) (hv : s.regs.fetchRvalidR = true) :
    (s.step m rdReady).decode.descRegs =
      Function.update s.decode.descRegs s.fetch.wordCnt s.regs.fetchRdataR := by
  simp [step, NpuCmdDecode.step, NpuCmdFetch.descWordValid, h, hv]

theorem descDone_eq_false (h : s.fetch.state ≠ .wait) : s.descDone = false := by
  simp [descDone, NpuCmdFetch.descDone, NpuCmdFetch.descWordValid, h]

theorem descDone_wait (h : s.fetch.state = .wait) (hv : s.regs.fetchRvalidR = true) :
    s.descDone = decide (s.fetch.wordCnt = 15) := by
  simp [descDone, NpuCmdFetch.descDone, NpuCmdFetch.descWordValid, h, hv, ← Bool.beq_eq_decide_eq]

end FrontEnd

end LgNpu
