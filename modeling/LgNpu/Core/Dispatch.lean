import LgNpu.Host.Queue
import LgNpu.Lib.Clocked
import Mathlib.Data.List.Infix
import Mathlib.Tactic.IntervalCases

/-!
# Scheduling and dispatch

`npu_scheduler` and `npu_dispatch` behind the command queue.  The backends are
the environment: each may be ready and signal done at any time, as long as its
done pulses answer the commands it has accepted.
-/

namespace LgNpu

/-! ## Scheduler -/

inductive SchedState
  | idle | issue | wait
  deriving DecidableEq

structure NpuScheduler where
  state : SchedState
  cmdR : ConvCmd

namespace NpuScheduler

def reset : NpuScheduler := ⟨.idle, 0⟩

variable (s : NpuScheduler)

def queueReady : Bool := s.state = .idle

def dispatchValid : Bool := s.state = .issue

def step (queueCmd : ConvCmd) (queueValid dispatchReady backendDone : Bool) : NpuScheduler where
  state :=
    match s.state with
    | .idle => if queueValid then .issue else .idle
    | .issue => if dispatchReady then .wait else .issue
    | .wait => if backendDone then .idle else .wait
  cmdR := if s.state = .idle ∧ queueValid then queueCmd else s.cmdR

end NpuScheduler

/-! ## Dispatch -/

inductive BackendId
  | conv | gemm | softmax | vec | lnorm | pool
  deriving DecidableEq

namespace BackendId

def all : List BackendId := [.conv, .gemm, .softmax, .vec, .lnorm, .pool]

theorem mem_all (i : BackendId) : i ∈ all := by cases i <;> decide

def opcode : BackendId → Opcode
  | conv => Opcode.opConv
  | gemm => Opcode.opGemm
  | softmax => Opcode.opSoftmax
  | vec => Opcode.opVec
  | lnorm => Opcode.opLnorm
  | pool => Opcode.opPool

end BackendId

/-- A command as a backend sees it. -/
inductive BackendCmd
  | conv (cmd : ConvCmd)
  | gemm (cmd : GemmCmd)
  | softmax (cmd : SoftmaxCmd)
  | vec (cmd : VecCmd)
  | lnorm (cmd : LnormCmd)
  | pool (cmd : PoolCmd)

/-- The command ports of `npu_dispatch`. -/
def BackendId.view (schedCmd : ConvCmd) : BackendId → BackendCmd
  | conv => .conv schedCmd
  | gemm => .gemm (convToGemmCmd schedCmd)
  | softmax => .softmax (convToSoftmaxCmd schedCmd)
  | vec => .vec (convToVecCmd schedCmd)
  | lnorm => .lnorm (convToLnormCmd schedCmd)
  | pool => .pool (convToPoolCmd schedCmd)

/-- The priority network; what is not recognised goes to `conv`. -/
def dispatchTo (opcode : Opcode) : BackendId :=
  if opcode = Opcode.opGemm then .gemm
  else if opcode = Opcode.opSoftmax then .softmax
  else if opcode = Opcode.opVec then .vec
  else if opcode = Opcode.opLnorm then .lnorm
  else if opcode = Opcode.opPool then .pool
  else .conv

@[simp] theorem dispatchTo_opcode (i : BackendId) : dispatchTo i.opcode = i := by
  cases i <;> decide

def beCmdValid (schedCmd : ConvCmd) (schedValid : Bool) (i : BackendId) : Bool :=
  if dispatchTo schedCmd.opcode = i then schedValid else false

def schedReady (schedCmd : ConvCmd) (cmdReady : BackendId → Bool) : Bool :=
  cmdReady (dispatchTo schedCmd.opcode)

/-! ## Queue, scheduler and dispatch -/

/-- One cycle of the environment: the push side of the queue, and the ready
and done wires of the backends. -/
structure DispatchIn where
  wrCmd : ConvCmd
  wrValid : Bool
  cmdReady : BackendId → Bool
  done : BackendId → Bool

structure Dispatcher where
  queue : NpuQueue
  sched : NpuScheduler

namespace Dispatcher

def reset (mem : BitVec 2 → ConvCmd) : Dispatcher := ⟨.reset mem, .reset⟩

variable (s : Dispatcher) (i : DispatchIn)

/-- The handshake on the command port of a backend. -/
def accepts (b : BackendId) : Bool :=
  beCmdValid s.sched.cmdR s.sched.dispatchValid b && i.cmdReady b

def beDone (i : DispatchIn) : Bool :=
  i.done .gemm || i.done .softmax || i.done .conv || i.done .vec || i.done .lnorm || i.done .pool

def step : Dispatcher where
  queue := s.queue.step i.wrCmd i.wrValid s.sched.queueReady
  sched := s.sched.step s.queue.rdData s.queue.rdValid (schedReady s.sched.cmdR i.cmdReady) (beDone i)

end Dispatcher

/-! ## Runs -/

/-- The dispatcher with the commands pushed and accepted so far and, for each
backend, the commands it has accepted and not yet answered. -/
structure DispatchRun where
  core : Dispatcher
  pushed : List ConvCmd
  accepted : List (BackendId × ConvCmd)
  outstanding : BackendId → ℕ

namespace DispatchRun

def reset (mem : BitVec 2 → ConvCmd) : DispatchRun := ⟨.reset mem, [], [], fun _ ↦ 0⟩

variable (i : DispatchIn) (x : DispatchRun)

def accepting : List (BackendId × ConvCmd) :=
  (BackendId.all.filter (x.core.accepts i)).map fun b ↦ (b, x.core.sched.cmdR)

def step : DispatchRun where
  core := x.core.step i
  pushed := x.pushed ++ if i.wrValid && x.core.queue.wrReady then [i.wrCmd] else []
  accepted := x.accepted ++ x.accepting i
  outstanding b := x.outstanding b + (x.core.accepts i b).toNat - (i.done b).toNat

def run (ins : ℕ → DispatchIn) (x : DispatchRun) : ℕ → DispatchRun :=
  Clocked.run (fun t ↦ step (ins t)) x

theorem run_succ (ins : ℕ → DispatchIn) (t : ℕ) : run ins x (t + 1) = (run ins x t).step (ins t) :=
  rfl

end DispatchRun

/-- Each accepted command is answered by one done pulse of its backend, in a
later cycle, and there are no other pulses. -/
structure BackendsAnswer (ins : ℕ → DispatchIn) (x : DispatchRun) : Prop where
  noOther : ∀ t b, (ins t).done b = true → 0 < (DispatchRun.run ins x t).outstanding b
  answered : ∀ t b, 0 < (DispatchRun.run ins x t).outstanding b → ∃ u, t ≤ u ∧ (ins u).done b = true

/-- A backend with nothing to do becomes ready. -/
def BackendsReady (ins : ℕ → DispatchIn) (x : DispatchRun) : Prop :=
  ∀ t b, ∃ u, t ≤ u ∧ ((ins u).cmdReady b = true ∨ 0 < (DispatchRun.run ins x u).outstanding b)

/-! ## What the scheduler holds -/

namespace DispatchRun

/-- The command taken from the queue and not yet accepted. -/
def inFlight (s : NpuScheduler) : List ConvCmd := if s.state = .issue then [s.cmdR] else []

/-- Every command pushed is in the queue, in the scheduler or accepted, and at
most the last one accepted is unanswered. -/
structure Inv (x : DispatchRun) : Prop where
  queue : ∃ xs, x.core.queue.Holds xs ∧
    x.pushed = x.accepted.map Prod.snd ++ inFlight x.core.sched ++ xs
  target : ∀ a ∈ x.accepted, a.1 = dispatchTo a.2.opcode
  waiting : x.core.sched.state = .wait →
    ∀ b, x.outstanding b = if b = dispatchTo x.core.sched.cmdR.opcode then 1 else 0
  free : x.core.sched.state ≠ .wait → ∀ b, x.outstanding b = 0

/-- The scheduler hands on what it has popped, one command at a time. -/
theorem inFlight_step (s : NpuScheduler) (c : ConvCmd) (valid ready done : Bool) :
    (if s.state = .issue ∧ ready = true then [s.cmdR] else []) ++
        inFlight (s.step c valid ready done) =
      inFlight s ++ if valid && s.queueReady then [c] else [] := by
  rw [inFlight, inFlight, NpuScheduler.step, NpuScheduler.queueReady]
  cases hs : s.state with
  | idle => cases valid <;> simp
  | issue => cases ready <;> simp
  | wait => cases done <;> simp

variable {i : DispatchIn} {x : DispatchRun}

theorem Inv.reset (mem : BitVec 2 → ConvCmd) : Inv (reset mem) where
  queue := ⟨[], Fifo.holds_nil, rfl⟩
  target _ ha := absurd ha List.not_mem_nil
  waiting h := absurd h SchedState.noConfusion
  free _ _ := rfl

/-- At most the backend of the opcode accepts. -/
theorem accepts_eq (b : BackendId) : x.core.accepts i b =
    (decide (x.core.sched.state = .issue ∧ b = dispatchTo x.core.sched.cmdR.opcode) &&
      schedReady x.core.sched.cmdR i.cmdReady) := by
  rw [Dispatcher.accepts, beCmdValid, NpuScheduler.dispatchValid, schedReady]
  by_cases hb : b = dispatchTo x.core.sched.cmdR.opcode
  · subst hb
    simp
  · simp [hb, Ne.symm hb]

theorem accepting_eq : x.accepting i =
    if x.core.sched.state = .issue ∧ schedReady x.core.sched.cmdR i.cmdReady = true then
      [(dispatchTo x.core.sched.cmdR.opcode, x.core.sched.cmdR)] else [] := by
  have hfilter : ∀ b, BackendId.all.filter (fun c ↦ decide (c = b)) = [b] := by
    intro b
    cases b <;> decide
  by_cases h : x.core.sched.state = .issue ∧ schedReady x.core.sched.cmdR i.cmdReady = true
  · rw [if_pos h, accepting]
    have hacc : x.core.accepts i = fun c ↦ decide (c = dispatchTo x.core.sched.cmdR.opcode) := by
      funext b
      rw [accepts_eq, h.2, Bool.and_true]
      simp [h.1]
    rw [hacc, hfilter]
    rfl
  · rw [if_neg h, accepting]
    have hacc : x.core.accepts i = fun _ ↦ false := by
      funext b
      rw [accepts_eq]
      simp only [Bool.and_eq_false_iff, decide_eq_false_iff_not]
      by_contra hne
      push Not at hne
      exact h ⟨hne.1.1, Bool.eq_true_of_not_eq_false hne.2⟩
    rw [hacc]
    rfl

theorem beDone_iff : Dispatcher.beDone i = true ↔ ∃ b, i.done b = true := by
  constructor
  · intro h
    simp only [Dispatcher.beDone, Bool.or_eq_true] at h
    rcases h with ((((h | h) | h) | h) | h) | h <;> exact ⟨_, h⟩
  · rintro ⟨b, h⟩
    cases b <;> simp [Dispatcher.beDone, h]

theorem beDone_eq_false (h : ∀ b, i.done b = true → 0 < x.outstanding b)
    (hfree : ∀ b, x.outstanding b = 0) : Dispatcher.beDone i = false ∧ ∀ b, i.done b = false := by
  have hnone : ∀ b, i.done b = false := fun b ↦ Bool.eq_false_iff.mpr fun hd ↦ by
    have := h b hd
    rw [hfree] at this
    exact lt_irrefl 0 this
  refine ⟨Bool.eq_false_iff.mpr fun hd ↦ ?_, hnone⟩
  obtain ⟨b, hb⟩ := beDone_iff.mp hd
  exact Bool.false_ne_true ((hnone b).symm.trans hb)

theorem accepts_eq_false (h : x.core.sched.state ≠ .issue) (b : BackendId) :
    x.core.accepts i b = false := by
  rw [accepts_eq]
  simp [h]

theorem outstanding_step (b : BackendId) : (x.step i).outstanding b =
    x.outstanding b + (x.core.accepts i b).toNat - (i.done b).toNat := rfl

/-- Queue and scheduler move the oldest command one place on. -/
theorem exists_holds_step {q : NpuQueue} {s : NpuScheduler} {pushed accepted xs : List ConvCmd}
    (h : q.Holds xs) (hpushed : pushed = accepted ++ inFlight s ++ xs) (wrCmd : ConvCmd)
    (wrValid ready done : Bool) : ∃ ys, (q.step wrCmd wrValid s.queueReady).Holds ys ∧
      pushed ++ (if wrValid && q.wrReady then [wrCmd] else []) =
        accepted ++ (if s.state = .issue ∧ ready = true then [s.cmdR] else []) ++
          inFlight (s.step q.rdData q.rdValid ready done) ++ ys := by
  refine ⟨_, h.step wrCmd wrValid s.queueReady, ?_⟩
  rw [List.append_assoc accepted, inFlight_step, hpushed]
  refine (congrArg (accepted ++ inFlight s ++ · ++ _) (h.popped_append s.queueReady).symm).trans ?_
  simp only [List.append_assoc]
  rfl

theorem Inv.queue_step (h : Inv x) : ∃ xs, (x.step i).core.queue.Holds xs ∧
    (x.step i).pushed =
      (x.step i).accepted.map Prod.snd ++ inFlight (x.step i).core.sched ++ xs := by
  obtain ⟨xs, hxs, hpushed⟩ := h.queue
  have haccepted : (x.step i).accepted.map Prod.snd = x.accepted.map Prod.snd ++
      if x.core.sched.state = .issue ∧ schedReady x.core.sched.cmdR i.cmdReady = true then
        [x.core.sched.cmdR] else [] := by
    rw [DispatchRun.step, List.map_append, accepting_eq]
    split <;> rfl
  rw [haccepted]
  exact exists_holds_step hxs hpushed i.wrCmd i.wrValid _ _

theorem Inv.target_step (h : Inv x) : ∀ a ∈ (x.step i).accepted, a.1 = dispatchTo a.2.opcode := by
  intro a ha
  rcases List.mem_append.mp ha with ha | ha
  · exact h.target a ha
  · rw [accepting_eq] at ha
    split at ha
    · rw [List.mem_singleton.mp ha]
    · exact absurd ha List.not_mem_nil

/-- After a cycle only the command waited for is unanswered. -/
theorem Inv.outstanding_eq (h : Inv x) (hdone : ∀ b, i.done b = true → 0 < x.outstanding b)
    (b : BackendId) : (x.step i).outstanding b =
      if (x.step i).core.sched.state = .wait ∧
        b = dispatchTo (x.step i).core.sched.cmdR.opcode then 1 else 0 := by
  cases hs : x.core.sched.state with
  | idle =>
      have hfree := h.free (by simp [hs])
      have hst : (x.step i).core.sched.state ≠ .wait := by
        simp only [DispatchRun.step, Dispatcher.step, NpuScheduler.step, hs]
        split <;> simp
      rw [outstanding_step, hfree, accepts_eq_false (by simp [hs]),
        (beDone_eq_false hdone hfree).2, if_neg fun hw ↦ hst hw.1]
      rfl
  | issue =>
      have hfree := h.free (by simp [hs])
      rw [outstanding_step, hfree, (beDone_eq_false hdone hfree).2, accepts_eq]
      cases hr : schedReady x.core.sched.cmdR i.cmdReady <;>
        by_cases hb : b = dispatchTo x.core.sched.cmdR.opcode <;>
          simp [DispatchRun.step, Dispatcher.step, NpuScheduler.step, hs, hr, hb]
  | wait =>
      have hwait := h.waiting hs
      have hcmd : (x.step i).core.sched.cmdR = x.core.sched.cmdR := by
        simp [DispatchRun.step, Dispatcher.step, NpuScheduler.step, hs]
      have hst : (x.step i).core.sched.state = if Dispatcher.beDone i then .idle else .wait := by
        simp [DispatchRun.step, Dispatcher.step, NpuScheduler.step, hs]
      -- Only the backend at work may signal done.
      have honly : ∀ b, i.done b = true → b = dispatchTo x.core.sched.cmdR.opcode := by
        intro b hb
        have hpos := hdone b hb
        rw [hwait] at hpos
        by_contra hne
        rw [if_neg hne] at hpos
        exact lt_irrefl 0 hpos
      rw [outstanding_step, accepts_eq_false (by simp [hs]), hwait, hst, hcmd]
      cases hbe : Dispatcher.beDone i with
      | false =>
          have hno : i.done b = false := Bool.eq_false_iff.mpr fun hb ↦
            Bool.false_ne_true (hbe.symm.trans (beDone_iff.mpr ⟨b, hb⟩))
          simp [hno]
      | true =>
          obtain ⟨d, hd⟩ := beDone_iff.mp hbe
          obtain rfl := honly d hd
          by_cases hb : b = dispatchTo x.core.sched.cmdR.opcode <;> simp [hb, hd]

theorem Inv.step (h : Inv x) (hdone : ∀ b, i.done b = true → 0 < x.outstanding b) :
    Inv (x.step i) where
  queue := h.queue_step
  target := h.target_step
  waiting hw b := by simp [h.outstanding_eq hdone, hw]
  free hne b := by simp [h.outstanding_eq hdone, hne]

/-! ## Whole runs -/

section Run

variable {ins : ℕ → DispatchIn} {mem : BitVec 2 → ConvCmd}

theorem inv_run (hans : BackendsAnswer ins (.reset mem)) (t : ℕ) :
    Inv (run ins (.reset mem) t) := by
  induction t with
  | zero => exact .reset mem
  | succ t ih => exact ih.step (hans.noOther t)

theorem accepted_isPrefix (ins : ℕ → DispatchIn) {x : DispatchRun} {t u : ℕ} (h : t ≤ u) :
    (run ins x t).accepted <+: (run ins x u).accepted := by
  induction u, h using Nat.le_induction with
  | base => exact List.prefix_refl _
  | succ u _ ih => exact ih.trans ⟨_, rfl⟩

theorem pushed_isPrefix (ins : ℕ → DispatchIn) {x : DispatchRun} {t u : ℕ} (h : t ≤ u) :
    (run ins x t).pushed <+: (run ins x u).pushed := by
  induction u, h using Nat.le_induction with
  | base => exact List.prefix_refl _
  | succ u _ ih => exact ih.trans ⟨_, rfl⟩

/-- An accepted command is answered and the scheduler comes back. -/
theorem exists_idle (hans : BackendsAnswer ins (.reset mem)) {t : ℕ}
    (hw : (run ins (.reset mem) t).core.sched.state = .wait) :
    ∃ u, t ≤ u ∧ (run ins (.reset mem) u).core.sched.state = .idle := by
  have hstay : ∀ u, t ≤ u → (run ins (.reset mem) u).core.sched.state = .wait →
      ¬Dispatcher.beDone (ins u) = true →
        (run ins (.reset mem) (u + 1)).core.sched.state = .wait := by
    intro u _ hs hno
    rw [run_succ]
    simp [DispatchRun.step, Dispatcher.step, NpuScheduler.step, hs, hno]
  obtain ⟨v, hv, hd⟩ := hans.answered t (dispatchTo (run ins (.reset mem) t).core.sched.cmdR.opcode)
    (by rw [(inv_run hans t).waiting hw, if_pos rfl]; exact Nat.one_pos)
  obtain ⟨u, hu, hs, hbe⟩ := Clocked.exists_until (x := run ins (.reset mem))
    (A := fun x ↦ x.core.sched.state = .wait) hw hstay ⟨v, hv, beDone_iff.mpr ⟨_, hd⟩⟩
  refine ⟨u + 1, by omega, ?_⟩
  rw [run_succ]
  simp [DispatchRun.step, Dispatcher.step, NpuScheduler.step, hs, hbe]

theorem exists_accept (hans : BackendsAnswer ins (.reset mem))
    (hready : BackendsReady ins (.reset mem)) {t : ℕ}
    (hi : (run ins (.reset mem) t).core.sched.state = .issue) :
    ∃ u, t ≤ u ∧ (run ins (.reset mem) t).accepted.length <
      (run ins (.reset mem) u).accepted.length := by
  have hkeep : ∀ u, (run ins (.reset mem) u).core.sched.state = .issue →
      (run ins (.reset mem) (u + 1)).core.sched.cmdR = (run ins (.reset mem) u).core.sched.cmdR := by
    intro u hs
    rw [run_succ]
    simp [DispatchRun.step, Dispatcher.step, NpuScheduler.step, hs]
  set cmd := (run ins (.reset mem) t).core.sched.cmdR with hcmd
  obtain ⟨u, hu, ⟨hs, hc⟩, hr⟩ := Clocked.exists_until (x := run ins (.reset mem))
    (A := fun x ↦ x.core.sched.state = .issue ∧ x.core.sched.cmdR = cmd)
    (P := fun u ↦ (ins u).cmdReady (dispatchTo cmd.opcode) = true ∨
      0 < (run ins (.reset mem) u).outstanding (dispatchTo cmd.opcode)) ⟨hi, hcmd.symm⟩
    (fun u _ hA hP ↦ by
      refine ⟨?_, (hkeep u hA.1).trans hA.2⟩
      have hno : schedReady (run ins (.reset mem) u).core.sched.cmdR (ins u).cmdReady = false := by
        rw [hA.2]
        exact Bool.eq_false_iff.mpr fun h ↦ hP (.inl h)
      rw [run_succ]
      simp [DispatchRun.step, Dispatcher.step, NpuScheduler.step, hA.1, hno])
    (hready t _)
  rcases hr with hr | hpos
  · refine ⟨u + 1, by omega, ?_⟩
    have hle := (accepted_isPrefix ins (x := .reset mem) hu).length_le
    have hacc : (run ins (.reset mem) (u + 1)).accepted =
        (run ins (.reset mem) u).accepted ++ accepting (ins u) (run ins (.reset mem) u) := rfl
    rw [hacc, accepting_eq, if_pos ⟨hs, by rw [hc]; exact hr⟩, List.length_append,
      List.length_singleton]
    omega
  · rw [(inv_run hans u).free (by simp [hs])] at hpos
    exact absurd hpos (lt_irrefl 0)

/-- While a command pushed has not been accepted, another one will be. -/
theorem exists_progress (hans : BackendsAnswer ins (.reset mem))
    (hready : BackendsReady ins (.reset mem)) {t : ℕ}
    (hlt : (run ins (.reset mem) t).accepted.length < (run ins (.reset mem) t).pushed.length) :
    ∃ u, t ≤ u ∧ (run ins (.reset mem) t).accepted.length <
      (run ins (.reset mem) u).accepted.length := by
  have hidle : ∀ v, t ≤ v → (run ins (.reset mem) v).core.sched.state = .idle →
      ∃ u, t ≤ u ∧ (run ins (.reset mem) t).accepted.length <
        (run ins (.reset mem) u).accepted.length := by
    intro v hv hs
    by_cases hmore : (run ins (.reset mem) t).accepted.length <
        (run ins (.reset mem) v).accepted.length
    · exact ⟨v, hv, hmore⟩
    obtain ⟨xs, hxs, hpushed⟩ := (inv_run hans v).queue
    have hlen := congrArg List.length hpushed
    have hpre := (pushed_isPrefix ins (x := .reset mem) hv).length_le
    rw [inFlight, hs, if_neg (by simp), List.append_nil, List.length_append, List.length_map]
      at hlen
    have hne : xs ≠ [] := fun h0 ↦ by
      rw [h0, List.length_nil] at hlen
      omega
    have hvalid : (run ins (.reset mem) v).core.queue.rdValid = true := by
      rw [Fifo.rdValid, Bool.not_eq_true', Bool.eq_false_iff]
      exact fun he ↦ hne (hxs.empty_iff.mp he)
    have hissue : (run ins (.reset mem) (v + 1)).core.sched.state = .issue := by
      rw [run_succ]
      simp [DispatchRun.step, Dispatcher.step, NpuScheduler.step, hs, hvalid]
    obtain ⟨u, hu, hacc⟩ := exists_accept hans hready hissue
    have hle := (accepted_isPrefix ins (x := .reset mem)
      (show t ≤ v + 1 by omega)).length_le
    exact ⟨u, by omega, by omega⟩
  cases hs : (run ins (.reset mem) t).core.sched.state with
  | idle => exact hidle t le_rfl hs
  | issue => exact exists_accept hans hready hs
  | wait =>
      obtain ⟨v, hv, hs'⟩ := exists_idle hans hs
      exact hidle v hv hs'

end Run

end DispatchRun

/-! ## In-order single dispatch -/

/-- Commands reach the backends in the order pushed, one at a time. -/
structure InOrder (ins : ℕ → DispatchIn) (x : DispatchRun) : Prop where
  /-- Nothing is lost, invented, duplicated or reordered, -/
  accounted : ∀ t, ∃ xs, (DispatchRun.run ins x t).core.queue.Holds xs ∧
    (DispatchRun.run ins x t).pushed = (DispatchRun.run ins x t).accepted.map Prod.snd ++
      DispatchRun.inFlight (DispatchRun.run ins x t).core.sched ++ xs
  /-- and all is accepted in the end, if the backends do not refuse it. -/
  complete : BackendsReady ins x → ∀ t, ∃ u,
    (DispatchRun.run ins x t).pushed <+: (DispatchRun.run ins x u).accepted.map Prod.snd
  /-- Commands go to the backend of their opcode, -/
  target : ∀ t b, ∀ a ∈ (DispatchRun.run ins x t).accepted, a.2.opcode = b.opcode → a.1 = b
  /-- one in a cycle, -/
  single : ∀ t, ((DispatchRun.run ins x t).accepting (ins t)).length ≤ 1
  /-- and only when no command is unanswered. -/
  oneAtATime : ∀ t b c, (DispatchRun.run ins x t).core.accepts (ins t) b = true →
    (DispatchRun.run ins x t).outstanding c = 0
  /-- The command port keeps its value up to the done pulse. -/
  stable : ∀ t u b, (DispatchRun.run ins x t).core.accepts (ins t) b = true → t ≤ u →
    (∀ v, t < v → v < u → (ins v).done b = false) →
    b.view (DispatchRun.run ins x u).core.sched.cmdR =
      b.view (DispatchRun.run ins x t).core.sched.cmdR

namespace DispatchRun

variable {ins : ℕ → DispatchIn} {mem : BitVec 2 → ConvCmd}

/-- From its acceptance to its done pulse the scheduler holds the command. -/
theorem held_until_done (hans : BackendsAnswer ins (.reset mem)) {t : ℕ} {b : BackendId}
    (hacc : (run ins (.reset mem) t).core.accepts (ins t) b = true) {u : ℕ} (hu : t < u)
    (hno : ∀ v, t < v → v < u → (ins v).done b = false) :
    (run ins (.reset mem) u).core.sched =
      ⟨.wait, (run ins (.reset mem) t).core.sched.cmdR⟩ := by
  rw [accepts_eq, Bool.and_eq_true, decide_eq_true_eq] at hacc
  obtain ⟨⟨hs, hb⟩, hr⟩ := hacc
  induction u, hu using Nat.le_induction with
  | base =>
      rw [Nat.succ_eq_add_one, run_succ]
      simp [DispatchRun.step, Dispatcher.step, NpuScheduler.step, hs, hr]
  | succ u hu ih =>
      have hsched := ih fun v h1 h2 ↦ hno v h1 (Nat.lt_succ_of_lt h2)
      have hbe : Dispatcher.beDone (ins u) = false := by
        refine Bool.eq_false_iff.mpr fun hbe ↦ ?_
        obtain ⟨d, hd⟩ := beDone_iff.mp hbe
        have hpos := hans.noOther u d hd
        rw [(inv_run hans u).waiting (by rw [hsched]), hsched, ← hb] at hpos
        by_cases hdb : d = b
        · rw [hdb, hno u (Nat.lt_of_succ_le hu) (Nat.lt_succ_self u)] at hd
          exact Bool.false_ne_true hd
        · rw [if_neg hdb] at hpos
          exact lt_irrefl 0 hpos
      rw [run_succ]
      simp [DispatchRun.step, Dispatcher.step, NpuScheduler.step, hsched, hbe]

/-- For every stream of pushes and all backends that answer their commands. -/
theorem in_order (hans : BackendsAnswer ins (.reset mem)) : InOrder ins (.reset mem) := by
  have hsound : ∀ t, (run ins (.reset mem) t).accepted.map Prod.snd <+:
      (run ins (.reset mem) t).pushed := by
    intro t
    obtain ⟨xs, -, hpushed⟩ := (inv_run hans t).queue
    rw [hpushed, List.append_assoc]
    exact List.prefix_append _ _
  refine ⟨fun t ↦ (inv_run hans t).queue, fun hready t ↦ ?_, fun t b a ha hop ↦ ?_, fun t ↦ ?_,
    fun t b c hacc ↦ ?_, fun t u b hacc hu hno ↦ ?_⟩
  · -- Each command more is accepted in turn.
    have hcount : ∀ n ≤ (run ins (.reset mem) t).pushed.length, ∃ u, t ≤ u ∧
        n ≤ (run ins (.reset mem) u).accepted.length := by
      intro n
      induction n with
      | zero => exact fun _ ↦ ⟨t, le_rfl, Nat.zero_le _⟩
      | succ n ih =>
          intro hn
          obtain ⟨u, hu, hle⟩ := ih (by omega)
          by_cases hmore : n < (run ins (.reset mem) u).accepted.length
          · exact ⟨u, hu, hmore⟩
          have hpre := (pushed_isPrefix ins (x := .reset mem) hu).length_le
          obtain ⟨v, hv, hlt⟩ := exists_progress hans hready (t := u) (by omega)
          exact ⟨v, hu.trans hv, by omega⟩
    obtain ⟨u, hu, hle⟩ := hcount _ le_rfl
    refine ⟨u, List.prefix_of_prefix_length_le (pushed_isPrefix ins hu) (hsound u) ?_⟩
    rwa [List.length_map]
  · have := (inv_run hans t).target a ha
    rwa [hop, dispatchTo_opcode] at this
  · rw [accepting_eq]
    split <;> simp
  · rw [accepts_eq, Bool.and_eq_true, decide_eq_true_eq] at hacc
    exact (inv_run hans t).free (by simp [hacc.1.1]) c
  · rcases Nat.eq_or_lt_of_le hu with rfl | hlt
    · rfl
    · rw [held_until_done hans hacc hlt hno]

/-! ## A concrete run -/

/-- No push, all backends ready. -/
def silent : DispatchIn := ⟨0, false, fun _ ↦ true, fun _ ↦ false⟩

/-- A GEMM is pushed, accepted two cycles later and answered after three
more. -/
def oneGemm (t : ℕ) : DispatchIn :=
  if t = 0 then
    { silent with wrCmd := { (0 : ConvCmd) with opcode := Opcode.opGemm }, wrValid := true }
  else if t = 5 then { silent with done := fun b ↦ decide (b = .gemm) }
  else silent

theorem oneGemm_quiet (t : ℕ) : (run oneGemm (.reset fun _ ↦ 0) (t + 6)).core.queue.rdValid = false ∧
    (run oneGemm (.reset fun _ ↦ 0) (t + 6)).core.sched.state = .idle ∧
    ∀ b, (run oneGemm (.reset fun _ ↦ 0) (t + 6)).outstanding b = 0 := by
  induction t with
  | zero => exact ⟨by decide, by decide, fun b ↦ by cases b <;> decide⟩
  | succ t ih =>
      obtain ⟨hq, hs, hout⟩ := ih
      have hin : oneGemm (t + 6) = silent := by simp [oneGemm]
      rw [show t + 1 + 6 = t + 6 + 1 by omega, run_succ, hin]
      refine ⟨?_, ?_, fun b ↦ ?_⟩
      · have hq' : ((run oneGemm (.reset fun _ ↦ 0) (t + 6)).step silent).core.queue =
            (run oneGemm (.reset fun _ ↦ 0) (t + 6)).core.queue := by
          simp [DispatchRun.step, Dispatcher.step, Fifo.step, silent, hq]
        rw [hq', hq]
      · simp [DispatchRun.step, Dispatcher.step, NpuScheduler.step, hs, hq]
      · rw [outstanding_step, hout, accepts_eq_false (by simp [hs])]
        rfl

theorem in_order_oneGemm : InOrder oneGemm (.reset fun _ ↦ 0) := by
  refine in_order ⟨fun t b hd ↦ ?_, fun t b hpos ↦ ?_⟩
  · rcases Nat.lt_or_ge t 6 with ht | ht
    · revert hd
      interval_cases t <;> cases b <;> decide
    · simp [oneGemm, show t ≠ 0 by omega, show t ≠ 5 by omega, silent] at hd
  · rcases Nat.lt_or_ge t 6 with ht | ht
    · refine ⟨5, by omega, ?_⟩
      revert hpos
      interval_cases t <;> cases b <;> decide
    · have hzero := (oneGemm_quiet (t - 6)).2.2 b
      rw [Nat.sub_add_cancel ht] at hzero
      omega

end DispatchRun

end LgNpu
