import LgNpu.Core.Dispatch
import LgNpu.Conv.Ctrl
import LgNpu.Gemm.Ctrl
import LgNpu.Softmax.Ctrl
import LgNpu.Vec.Ctrl
import LgNpu.Lnorm.Ctrl
import LgNpu.Pool.Ctrl

/-!
# The core

`npu_core`: scheduler, dispatch, the six backends and the buffers.  The memory
ports follow the registered selector `be_sel_r`, both ways.  The backends are a
family over `BackendId`; each keeps its own registers and command.
-/

namespace LgNpu

def BeState : BackendId → Type
  | .conv => Mac ConvFront
  | .gemm => Mac GemmFront
  | .softmax => SoftmaxCtrl
  | .vec => VecCtrl
  | .lnorm => LnormCtrl
  | .pool => PoolCtrl

def BeCmd : BackendId → Type
  | .conv => ConvCmd
  | .gemm => GemmCmd
  | .softmax => SoftmaxCmd
  | .vec => VecCmd
  | .lnorm => LnormCmd
  | .pool => PoolCmd

def backend : (b : BackendId) → Backend (BeState b) (BeCmd b)
  | .conv => convBackend
  | .gemm => gemmBackend
  | .softmax => softmaxBackend
  | .vec => vecBackend
  | .lnorm => lnormBackend
  | .pool => poolBackend

def beCmd (schedCmd : ConvCmd) : (b : BackendId) → BeCmd b
  | .conv => schedCmd
  | .gemm => convToGemmCmd schedCmd
  | .softmax => convToSoftmaxCmd schedCmd
  | .vec => convToVecCmd schedCmd
  | .lnorm => convToLnormCmd schedCmd
  | .pool => convToPoolCmd schedCmd

def beReset : (b : BackendId) → BeState b
  | .conv => ⟨.reset, .reset⟩
  | .gemm => ⟨.reset, .reset⟩
  | .softmax => .reset
  | .vec => .reset
  | .lnorm => .reset
  | .pool => .reset

/-- The reset reaches every register of a backend but `norm_sign_r`. -/
def beClear : (b : BackendId) → BeState b → BeState b
  | .conv, _ => beReset .conv
  | .gemm, _ => beReset .gemm
  | .softmax, _ => beReset .softmax
  | .vec, _ => beReset .vec
  | .lnorm, s => { LnormCtrl.reset with normSignR := LnormCtrl.normSignR s }
  | .pool, _ => beReset .pool

/-! ## The selector -/

/-- The value of `be_sel_r` under which a backend gets responses. -/
def selCode : BackendId → BitVec 3
  | .conv => 0
  | .gemm => 1
  | .softmax => 2
  | .vec => 3
  | .lnorm => 4
  | .pool => 5

/-- The backend whose requests are forwarded. -/
def selected (sel : BitVec 3) : BackendId :=
  if sel = 1 then .gemm
  else if sel = 2 then .softmax
  else if sel = 3 then .vec
  else if sel = 4 then .lnorm
  else if sel = 5 then .pool
  else .conv

@[simp] theorem selected_selCode (b : BackendId) : selected (selCode b) = b := by
  cases b <;> decide

def BeRsp.none : BeRsp := ⟨false, 0, false, false, 0, false, false, false, 0, false⟩

/-! ## The core -/

structure CoreIn where
  queueCmd : ConvCmd
  queueValid : Bool
  host : HostReq

structure NpuCore where
  sched : NpuScheduler
  be : (b : BackendId) → BeState b
  beSelR : BitVec 3
  mem : NpuMemTop

namespace NpuCore

def reset (act : BitVec 13 → Byte) (wt : BitVec 12 → Byte) : NpuCore :=
  ⟨.reset, beReset, 0, .reset act wt⟩

variable (x : NpuCore)

def beReq (b : BackendId) : BeReq := (backend b).req (x.be b)

def cmdReady (b : BackendId) : Bool := (backend b).cmdReady (x.be b)

def done (b : BackendId) : Bool := (backend b).done (x.be b)

def busy (b : BackendId) : Bool := (backend b).busy (x.be b)

def cmdValid (b : BackendId) : Bool := beCmdValid x.sched.cmdR x.sched.dispatchValid b

def accepts (b : BackendId) : Bool := x.cmdValid b && x.cmdReady b

def dispReady : Bool := schedReady x.sched.cmdR x.cmdReady

/-- What the mux puts through to the buffers. -/
def memReq : BeReq := x.beReq (selected x.beSelR)

def rsp (b : BackendId) : BeRsp :=
  if x.beSelR = selCode b then x.mem.beRsp x.memReq else .none

def beDone : Bool :=
  x.done .gemm || x.done .softmax || x.done .conv || x.done .vec || x.done .lnorm || x.done .pool

def beBusy : Bool :=
  x.busy .gemm || x.busy .softmax || x.busy .conv || x.busy .vec || x.busy .lnorm || x.busy .pool

def selNext : BitVec 3 :=
  if x.accepts .gemm then selCode .gemm
  else if x.accepts .softmax then selCode .softmax
  else if x.accepts .vec then selCode .vec
  else if x.accepts .lnorm then selCode .lnorm
  else if x.accepts .pool then selCode .pool
  else if x.accepts .conv then selCode .conv
  else x.beSelR

def step (i : CoreIn) : NpuCore where
  sched := x.sched.step i.queueCmd i.queueValid x.dispReady x.beDone
  be b := (backend b).step (x.be b) (beCmd x.sched.cmdR b) (x.cmdValid b) (x.rsp b)
  beSelR := x.selNext
  mem := x.mem.step i.host x.memReq

def run (ins : ℕ → CoreIn) : ℕ → NpuCore := Clocked.run (fun t x ↦ step x (ins t)) x

theorem run_succ (ins : ℕ → CoreIn) (t : ℕ) : x.run ins (t + 1) = (x.run ins t).step (ins t) := rfl

/-- At most the backend of the opcode sees the command. -/
theorem cmdValid_eq (b : BackendId) : x.cmdValid b =
    decide (x.sched.state = .issue ∧ dispatchTo x.sched.cmdR.opcode = b) := by
  by_cases hb : dispatchTo x.sched.cmdR.opcode = b
  · simp [cmdValid, beCmdValid, NpuScheduler.dispatchValid, hb]
  · simp [cmdValid, beCmdValid, hb]

theorem beDone_iff : x.beDone = true ↔ ∃ b, x.done b = true := by
  constructor
  · intro h
    simp only [beDone, Bool.or_eq_true] at h
    rcases h with ((((h | h) | h) | h) | h) | h <;> exact ⟨_, h⟩
  · rintro ⟨b, h⟩
    cases b <;> simp [beDone, h]

/-- The selector goes with the command. -/
theorem selNext_of_accepts {b : BackendId} (h : x.accepts b = true) : x.selNext = selCode b := by
  have hvalid : x.cmdValid b = true := (Bool.and_eq_true_iff.mp h).1
  rw [cmdValid_eq, decide_eq_true_eq] at hvalid
  have hother : ∀ c, c ≠ b → x.accepts c = false := fun c hc ↦ by
    rw [accepts, cmdValid_eq, hvalid.2, decide_eq_false (fun hcb ↦ hc hcb.2.symm), Bool.false_and]
  cases b <;> simp [selNext, h, hother]

theorem selNext_of_silent (h : ∀ b, x.accepts b = false) : x.selNext = x.beSelR := by
  simp [selNext, h]

end NpuCore

end LgNpu
