import LgNpu.Memory

/-!
# The DMA engines

`npu_dma_reader` and `npu_dma_writer` are one copy loop between two ports, with
the roles of the ports exchanged; `npu_dma_frontend` holds both.
-/

namespace LgNpu

inductive DmaState
  | idle | rd | wait | wr | done
  deriving DecidableEq

/-- The copy loop, from a port with `a` address bits to one with `b`. -/
structure DmaEngine (a b : ℕ) where
  state : DmaState
  srcAddrR : BitVec a
  dstAddrR : BitVec b
  lenR : BitVec 16
  cntR : BitVec 16
  dataR : MmioData

namespace DmaEngine

variable {a b : ℕ} (s : DmaEngine a b)

def reset : DmaEngine a b := ⟨.idle, 0, 0, 0, 0, 0⟩

def busy : Bool :=
  match s.state with
  | .rd => true
  | .wait => true
  | .wr => true
  | _ => false

def done : Bool := s.state = .done

def rdReq : Bool := s.state = .rd

def rdAddr : BitVec a := if s.state = .rd then s.srcAddrR else 0

def wrReq : Bool := s.state = .wr

def wrAddr : BitVec b := if s.state = .wr then s.dstAddrR else 0

def wrData : MmioData := if s.state = .wr then s.dataR else 0

/-- The byte being written is the last one; the sum is 16 bits wide. -/
def lastByte : Bool := !(s.cntR + 1).ult s.lenR

def step (start : Bool) (src : BitVec a) (dst : BitVec b) (len : BitVec 16) (rdGnt : Bool)
    (rdata : MmioData) (rvalid wrGnt : Bool) : DmaEngine a b :=
  match s.state with
  | .idle =>
      if start then { s with state := .rd, srcAddrR := src, dstAddrR := dst, lenR := len, cntR := 0 }
      else s
  | .rd => if rdGnt then { s with state := .wait } else s
  | .wait => if rvalid then { s with state := .wr, dataR := rdata } else s
  | .wr =>
      if wrGnt then
        { s with
          state := if s.lastByte then .done else .rd
          cntR := s.cntR + 1
          srcAddrR := s.srcAddrR + 1
          dstAddrR := s.dstAddrR + 1 }
      else s
  | .done => { s with state := .idle }

variable {s}

theorem busy_of_idle (h : s.state = .idle) : s.busy = false := by rw [busy, h]

theorem done_of_idle (h : s.state = .idle) : s.done = false := by simp [done, h]

end DmaEngine

/-- External memory to a local buffer. -/
abbrev NpuDmaReader := DmaEngine 32 20

/-- A local buffer to external memory. -/
abbrev NpuDmaWriter := DmaEngine 20 32

/-! ## Ports -/

/-- `ext_mem_*`, driven by the device. -/
structure ExtReq where
  addr : BitVec 32
  wdata : MmioData
  wr : Bool
  req : Bool

/-- `ext_mem_*`, driven by the memory. -/
structure ExtRsp where
  gnt : Bool
  rdata : MmioData
  rvalid : Bool

/-- The programmed transfer and its start pulse. -/
structure DmaCfg where
  extAddr : BitVec 32
  locAddr : MmioAddr
  len : BitVec 16
  start : Bool
  dir : Bool

/-! ## Front end -/

structure NpuDmaFrontend where
  reader : NpuDmaReader
  writer : NpuDmaWriter

namespace NpuDmaFrontend

def reset : NpuDmaFrontend := ⟨.reset, .reset⟩

variable (s : NpuDmaFrontend)

def dmaBusy : Bool := s.reader.busy || s.writer.busy

def dmaDone : Bool := s.reader.done || s.writer.done

def extReq : ExtReq where
  addr := if s.reader.busy then s.reader.rdAddr else s.writer.wrAddr
  wdata := if s.writer.busy then s.writer.wrData else 0
  wr := if s.writer.busy then s.writer.wrReq else false
  req := if s.reader.busy then s.reader.rdReq else s.writer.wrReq

def bufReq : HostReq where
  addr := if s.reader.busy then s.reader.wrAddr else s.writer.rdAddr
  wdata := s.reader.wrData
  wr := s.reader.wrReq
  req := s.reader.wrReq || s.writer.rdReq

def step (c : DmaCfg) (ext : ExtRsp) (buf : HostRsp) : NpuDmaFrontend where
  reader := s.reader.step (c.start && !c.dir) c.extAddr c.locAddr c.len ext.gnt ext.rdata ext.rvalid
    buf.gnt
  writer := s.writer.step (c.start && c.dir) c.locAddr c.extAddr c.len buf.gnt buf.rdata buf.rvalid
    ext.gnt

end NpuDmaFrontend

/-! ## Memories behind the ports -/

/-- An access that was granted. -/
inductive Access (a : ℕ)
  | read (addr : BitVec a)
  | write (addr : BitVec a) (data : MmioData)
  deriving DecidableEq

def Access.addr {a : ℕ} : Access a → BitVec a
  | read addr => addr
  | write addr _ => addr

/-- A memory with the response it owes and the accesses it has granted. -/
structure MemPort (a : ℕ) where
  mem : BitVec a → MmioData
  pending : Option MmioData
  log : List (Access a)

/-- What the memory chooses in one cycle: whether to grant a request, whether
to deliver a response, and what is on the data lines otherwise. -/
structure PortDelay where
  gnt : Bool
  rsp : Bool
  noise : MmioData

namespace MemPort

variable {a : ℕ} (p : MemPort a) (d : PortDelay)

def rvalid : Bool := p.pending.isSome && d.rsp

def rdata : MmioData := if p.rvalid d then p.pending.getD 0 else d.noise

/-- A read granted now is answered in a later cycle, once. -/
def step (addr : BitVec a) (wdata : MmioData) (wr req : Bool) : MemPort a where
  mem := if req && d.gnt && wr then Function.update p.mem addr wdata else p.mem
  pending :=
    if req && d.gnt && !wr then some (p.mem addr) else if p.rvalid d then none else p.pending
  log := p.log ++
    if req && d.gnt then [if wr then .write addr wdata else .read addr] else []

end MemPort

end LgNpu
