import LgNpu.Core.Course
import LgNpu.Core.Dispatch
import LgNpu.Host.Queue

/-!
# Commands one after another

The queue feeds the scheduler and the scheduler the backends.  A command is
taken once the one before it has pulsed done, which for `conv` and `gemm` can be
before its last element is written; the two then share registers.  In a run in
which every command finds the datapaths empty the memory goes through the
reference operations of the commands in the order they were pushed.
-/

namespace LgNpu

open NpuCore

/-- Every command taken finds the ports done with all earlier ones, and a
divisor that serves its windows. -/
def NpuCore.InTurn (x : NpuCore) : Prop := ∀ b, x.accepts b = true →
  (∀ c, Drained c (x.be c)) ∧ Served b (beCmd x.sched.cmdR b) x.mem.act

theorem NpuCore.InTurn.handover {x : NpuCore} (h : x.InTurn) : x.Handover :=
  fun b hb c _ ↦ (h b hb).1 c

/-- The push side of `npu_queue` in one cycle. -/
structure Push where
  cmd : ConvCmd
  valid : Bool

/-- The core behind its queue, with the commands pushed and taken so far. -/
structure Sequencer where
  queue : NpuQueue
  core : NpuCore
  pushed : List ConvCmd
  accepted : List ConvCmd

/-- The memory after the reference operations, one after another. -/
def reference (act : BitVec 13 → Byte) (wt : BitVec 12 → Byte) (cs : List ConvCmd) :
    BitVec 13 → Byte :=
  cs.foldl (fun m c ↦ store m (refWrites (dispatchTo c.opcode) (beCmd c _) m wt)) act

theorem reference_concat (act : BitVec 13 → Byte) (wt : BitVec 12 → Byte) (cs : List ConvCmd)
    (c : ConvCmd) : reference act wt (cs ++ [c]) = store (reference act wt cs)
      (refWrites (dispatchTo c.opcode) (beCmd c _) (reference act wt cs) wt) :=
  List.foldl_concat ..

namespace Sequencer

def reset (mem : BitVec 2 → ConvCmd) (act : BitVec 13 → Byte) (wt : BitVec 12 → Byte) :
    Sequencer :=
  ⟨.reset mem, .reset act wt, [], []⟩

section Run

variable (x : Sequencer)

/-- The core sees the head of the queue, and no host. -/
def coreIn : CoreIn := ⟨x.queue.rdData, x.queue.rdValid, .idle⟩

def step (p : Push) : Sequencer where
  queue := x.queue.step p.cmd p.valid x.core.sched.queueReady
  core := x.core.step x.coreIn
  pushed := x.pushed ++ if p.valid && x.queue.wrReady then [p.cmd] else []
  accepted := x.accepted ++
    if x.core.accepts (dispatchTo x.core.sched.cmdR.opcode) then [x.core.sched.cmdR] else []

def run (ps : ℕ → Push) : ℕ → Sequencer := Clocked.run (fun t x ↦ step x (ps t)) x

theorem run_succ (ps : ℕ → Push) (t : ℕ) : x.run ps (t + 1) = (x.run ps t).step (ps t) := rfl

/-- Nothing is queued, scheduled, busy or under way. -/
structure Quiescent : Prop where
  queue : x.queue.empty = true
  sched : x.core.sched.state = .idle
  busy : ∀ b, x.core.busy b = false
  drained : ∀ b, Drained b (x.core.be b)

/-- The commands pushed are ones the backends can do. -/
def AllProper : Prop := ∀ c ∈ x.pushed, Proper (dispatchTo c.opcode) (beCmd c _)

/-- Up to cycle `t` commands are taken in the order pushed, each finds the
complete output of all before it, and at rest all are done. -/
structure InSequence (ps : ℕ → Push) (t : ℕ) : Prop where
  order : (x.run ps t).accepted <+: (x.run ps t).pushed
  complete : ∀ u < t, ∀ b, (x.run ps u).core.accepts b = true → (x.run ps u).core.mem.act =
    reference x.core.mem.act x.core.mem.wt (x.run ps u).accepted
  atRest : (x.run ps t).Quiescent → (x.run ps t).core.mem.act =
    reference x.core.mem.act x.core.mem.wt (x.run ps t).pushed

end Run

/-! ## The course of the commands -/

variable {act : BitVec 13 → Byte} {wt : BitVec 12 → Byte}

/-- The last command runs on its backend as it does there alone, from what the
ones before it left. -/
inductive Course (act : BitVec 13 → Byte) (wt : BitVec 12 → Byte) : List ConvCmd → NpuCore → Prop
  | fresh {x} (hs : ∀ b, Silent b (x.be b)) (ha : x.mem.act = act) (hw : x.mem.wt = wt) :
      Course act wt [] x
  | running {x cs c t} {y : Sys (BeState (dispatchTo c.opcode))}
      (hp : Proper (dispatchTo c.opcode) (beCmd c _)) (hs : Silent _ y.be)
      (hn : y.mem.biasPendingR = false) (hlog : y.log = [])
      (hserved : Served (dispatchTo c.opcode) (beCmd c _) y.mem.act)
      (ha : y.mem.act = reference act wt cs) (hw : y.mem.wt = wt)
      (howns : Owns _ ((backend _).run (beCmd c _) (fun _ ↦ .all) y (t + 1)) x)
      (hport : x.sched.state = .wait → x.sched.cmdR = c) : Course act wt (cs ++ [c]) x

variable {x : NpuCore} {cs : List ConvCmd} {c : ConvCmd}

/-- Between commands with the ports done all of it is written. -/
theorem Course.settled (h : Course act wt cs x) (hf : ∀ b, Free b (x.be b))
    (hd : ∀ b, Drained b (x.be b)) : x.mem.act = reference act wt cs ∧ x.mem.wt = wt := by
  cases h with
  | fresh _ ha hw => exact ⟨ha, hw⟩
  | running hp hs hn hlog hserved ha hw howns _ =>
      have hrest := log_of_rest hp hs hn hlog hserved (howns.be ▸ hf _) (howns.be ▸ hd _)
      rw [howns.mem, wt_run, act_eq_store _ _ _ hlog, hrest, reference_concat, ha, hw]
      exact ⟨rfl, rfl⟩

theorem Course.step_quiet (h : Course act wt cs x) (hinv : NpuCore.Inv x)
    (hs : x.sched.state ≠ .issue) {i : CoreIn} (hi : i.host = .idle) :
    Course act wt cs (x.step i) := by
  have hmem : (x.step i).mem = x.mem.step .idle x.memReq := congrArg (x.mem.step · _) hi
  cases h with
  | fresh hsilent ha hw =>
      have hreq := BeReq.raises_eq_false.mp (hsilent (selected x.beSelR)).not_raises
      refine .fresh (fun b ↦ ?_) ?_ ?_
      · rw [be_step, cmdValid_eq, decide_eq_false (fun hv ↦ hs hv.1)]
        exact (shares b).silent_step _ _ _ (hsilent b)
      · have hwrite : x.memReq.write = [] := by
          rw [BeReq.write, show x.memReq.outWrReq = false from hreq.2.2.1]
          rfl
        rw [hmem, act_step_eq_store, hwrite, store_nil, ha]
      · rw [hmem, NpuMemTop.wt_step, hw]
  | @running _ _ c t y hp hs' hn hlog hserved ha hw howns hport =>
      have hcmd : x.sched.cmdR = c ∨
          Free _ ((backend _).run (beCmd c _) (fun _ ↦ .all) y (t + 1)).be := by
        by_cases hst : x.sched.state = .wait
        · exact .inl (hport hst)
        · exact .inr (howns.be ▸ hinv.free_of_issue hst _)
      refine .running hp hs' hn hlog hserved ha hw (t := t + 1) (howns.step hi hs hcmd) fun hw' ↦ ?_
      cases hst : x.sched.state with
      | idle => simp [NpuCore.step, NpuScheduler.step, hst] at hw'; split at hw' <;> simp at hw'
      | issue => exact absurd hst hs
      | wait =>
          rw [← hport hst]
          simp [NpuCore.step, NpuScheduler.step, hst]

/-- A command is taken when all before it are written. -/
theorem Course.step_issue (h : Course act wt cs x) (hv : Vacant x) (hs : x.sched = ⟨.issue, c⟩)
    (hp : Proper (dispatchTo c.opcode) (beCmd c _))
    (hserved : Served (dispatchTo c.opcode) (beCmd c _) x.mem.act) {i : CoreIn}
    (hi : i.host = .idle) : Course act wt (cs ++ [c]) (x.step i) := by
  obtain ⟨ha, hw⟩ := h.settled hv.free hv.drained
  have hfollows := hv.follows hs hi
  exact .running (t := 0) hp (silent_rested (hv.free _) (hv.drained _)) hv.calm rfl hserved ha hw
    hfollows.owns fun _ ↦ congrArg NpuScheduler.cmdR hfollows.sched

/-! ## The invariant -/

/-- No answer is on the wires. -/
structure NoAnswer (m : NpuMemTop) : Prop where
  act : m.actBuf.beRdAcceptR = false
  wt : m.wtRvalid = false
  bias : m.biasRvalid = false

/-- Every command pushed is queued, in the scheduler or taken, and those taken
have run their course. -/
structure Inv (act : BitVec 13 → Byte) (wt : BitVec 12 → Byte) (s : Sequencer) : Prop where
  core : NpuCore.Inv s.core
  queue : ∃ xs, s.queue.Holds xs ∧
    s.pushed = s.accepted ++ DispatchRun.inFlight s.core.sched ++ xs
  course : Course act wt s.accepted s.core
  noAnswer : (∀ b, Free b (s.core.be b)) → (∀ b, Drained b (s.core.be b)) → NoAnswer s.core.mem

theorem Inv.reset (mem : BitVec 2 → ConvCmd) : Inv act wt (reset mem act wt) where
  core := .reset act wt
  queue := ⟨[], Fifo.holds_nil, rfl⟩
  course := .fresh silent_reset rfl rfl
  noAnswer _ _ := ⟨rfl, rfl, rfl⟩

variable {s : Sequencer}

/-- The backend of the command in the scheduler takes it at once. -/
theorem Inv.accepts (h : Inv act wt s) (hs : s.core.sched.state = .issue) :
    s.core.accepts (dispatchTo s.core.sched.cmdR.opcode) = true := by
  have hfree := h.core.free_of_issue (by simp [hs])
  rw [NpuCore.accepts, cmdValid_eq, decide_eq_true ⟨hs, rfl⟩,
    show s.core.cmdReady _ = true from (shares _).free_ready _ (hfree _)]
  rfl

theorem Inv.vacant (h : Inv act wt s) (hs : s.core.sched.state = .issue)
    (hd : ∀ b, Drained b (s.core.be b)) : Vacant s.core := by
  have hfree := h.core.free_of_issue (by simp [hs])
  have hnone := h.noAnswer hfree hd
  exact ⟨hfree, hd, hnone.act, hnone.wt, hnone.bias, h.core.calm⟩

/-- A backend between commands with the ports done was not answered. -/
theorem Inv.noAnswer_step (h : Inv act wt s) (i : CoreIn)
    (hf : ∀ b, Free b ((s.core.step i).be b)) (hd : ∀ b, Drained b ((s.core.step i).be b)) :
    NoAnswer (s.core.step i).mem := by
  obtain ⟨hact, hwt, hbias⟩ := h.core.rvalid_step i
  by_cases hs : s.core.sched.state = .issue
  · -- The command just taken is not over.
    obtain ⟨b, hacc⟩ : ∃ b, s.core.accepts b = true := ⟨_, h.accepts hs⟩
    refine absurd (hf b) ((engages b).not_free _ ?_)
    rw [be_step, (Bool.and_eq_true_iff.mp hacc).1]
    exact (engages b).accept _ _ _ (h.core.free_of_issue (by simp [hs]) b)
  · have hstep : ∀ b, (s.core.step i).be b =
        (backend b).step (s.core.be b) (beCmd s.core.sched.cmdR b) false (s.core.rsp b) := fun b ↦ by
      rw [be_step, cmdValid_eq, decide_eq_false (fun hv ↦ hs hv.1)]
    obtain ⟨hreqA, hreqW, hreqB⟩ := rests (selected s.core.beSelR) _ _ _
      (hstep _ ▸ hf _) (hstep _ ▸ hd _)
    exact ⟨hact.trans hreqA, hwt.trans hreqW, hbias.trans hreqB⟩

theorem Inv.queue_step (h : Inv act wt s) (p : Push) : ∃ xs, (s.step p).queue.Holds xs ∧
    (s.step p).pushed =
      (s.step p).accepted ++ DispatchRun.inFlight (s.step p).core.sched ++ xs := by
  obtain ⟨xs, hxs, hpushed⟩ := h.queue
  have hiff : s.core.accepts (dispatchTo s.core.sched.cmdR.opcode) = true ↔
      s.core.sched.state = .issue ∧ s.core.dispReady = true := by
    simp [NpuCore.accepts, cmdValid_eq, NpuCore.dispReady, schedReady]
  have haccepted : (s.step p).accepted = s.accepted ++
      if s.core.sched.state = .issue ∧ s.core.dispReady = true then [s.core.sched.cmdR] else [] :=
    congrArg (s.accepted ++ ·) (if_congr hiff rfl rfl)
  rw [haccepted]
  exact DispatchRun.exists_holds_step hxs hpushed p.cmd p.valid s.core.dispReady s.core.beDone

theorem Inv.step (h : Inv act wt s) (hturn : s.core.InTurn) (hp : s.AllProper) (p : Push) :
    Inv act wt (s.step p) where
  core := h.core.step hturn.handover _
  queue := h.queue_step p
  noAnswer := h.noAnswer_step _
  course := by
    change Course act wt (s.accepted ++
      if s.core.accepts (dispatchTo s.core.sched.cmdR.opcode) then [s.core.sched.cmdR] else []) _
    by_cases hs : s.core.sched.state = .issue
    · have hacc := h.accepts hs
      obtain ⟨hd, hserved⟩ := hturn _ hacc
      have hproper : Proper (dispatchTo s.core.sched.cmdR.opcode) (beCmd s.core.sched.cmdR _) := by
        obtain ⟨xs, -, hpushed⟩ := h.queue
        refine hp _ ?_
        rw [hpushed, DispatchRun.inFlight, if_pos hs]
        simp
      rw [if_pos hacc]
      exact h.course.step_issue (h.vacant hs hd) (by rw [← hs]) hproper hserved rfl
    · rw [accepts_eq_false hs, if_neg Bool.false_ne_true, List.append_nil]
      exact h.course.step_quiet h.core hs rfl

/-! ## Runs -/

variable {mem : BitVec 2 → ConvCmd} {ps : ℕ → Push}

theorem pushed_isPrefix (s : Sequencer) {t u : ℕ} (h : t ≤ u) :
    (s.run ps t).pushed <+: (s.run ps u).pushed := by
  induction u, h using Nat.le_induction with
  | base => exact List.prefix_refl _
  | succ u _ ih => exact ih.trans (List.prefix_append _ _)

theorem inv_run {t : ℕ} (hp : ((reset mem act wt).run ps t).AllProper)
    (hturn : ∀ u < t, ((reset mem act wt).run ps u).core.InTurn) :
    Inv act wt ((reset mem act wt).run ps t) := by
  induction t with
  | zero => exact Inv.reset mem
  | succ t ih =>
      have hp' : ((reset mem act wt).run ps t).AllProper :=
        fun c hc ↦ hp c ((pushed_isPrefix _ (Nat.le_succ t)).subset hc)
      exact (ih hp' fun u hu ↦ hturn u (Nat.lt_succ_of_lt hu)).step (hturn t (Nat.lt_succ_self t))
        hp' _

/-- Whatever is pushed when: as long as every command finds the datapaths
empty, the commands execute one after another. -/
theorem back_to_back {t : ℕ} (hp : ((reset mem act wt).run ps t).AllProper)
    (hturn : ∀ u < t, ((reset mem act wt).run ps u).core.InTurn) :
    (reset mem act wt).InSequence ps t := by
  have hinv : ∀ u ≤ t, Inv act wt ((reset mem act wt).run ps u) := fun u hu ↦
    inv_run (fun c hc ↦ hp c ((pushed_isPrefix _ hu).subset hc))
      fun v hv ↦ hturn v (hv.trans_le hu)
  refine ⟨?_, fun u hu b hacc ↦ ?_, fun hq ↦ ?_⟩
  · obtain ⟨xs, -, hpushed⟩ := (hinv t le_rfl).queue
    rw [hpushed, List.append_assoc]
    exact List.prefix_append _ _
  · have hs : ((reset mem act wt).run ps u).core.sched.state = .issue := by
      by_contra hs
      exact Bool.false_ne_true ((accepts_eq_false hs b).symm.trans hacc)
    exact ((hinv u hu.le).course.settled ((hinv u hu.le).core.free_of_issue (by simp [hs]))
      (hturn u hu b hacc).1).1
  · obtain ⟨xs, hxs, hpushed⟩ := (hinv t le_rfl).queue
    have hempty : xs = [] := hxs.empty_iff.mp hq.queue
    have hfree := (hinv t le_rfl).core.free_of_issue (by simp [hq.sched])
    rw [hempty, DispatchRun.inFlight, if_neg (by simp [hq.sched]), List.append_nil,
      List.append_nil] at hpushed
    rw [hpushed]
    exact ((hinv t le_rfl).course.settled hfree hq.drained).1

/-! ## Two commands -/

def poolServed (cmd : PoolCmd) (m : BitVec 13 → Byte) :
    Decidable (cmd.poolMode = true → PoolCtrl.AreaServes cmd m) :=
  inferInstance

instance : (b : BackendId) → (cmd : BeCmd b) → (m : BitVec 13 → Byte) → Decidable (Served b cmd m)
  | .pool, cmd, m => poolServed cmd m
  | .conv, _, _ => .isTrue trivial
  | .gemm, _, _ => .isTrue trivial
  | .softmax, _, _ => .isTrue trivial
  | .vec, _, _ => .isTrue trivial
  | .lnorm, _, _ => .isTrue trivial

instance (x : NpuCore) : Decidable x.InTurn :=
  decidable_of_iff (∀ b ∈ BackendId.all, x.accepts b = true →
      (∀ c ∈ BackendId.all, Drained c (x.be c)) ∧ Served b (beCmd x.sched.cmdR b) x.mem.act)
    ⟨fun h b hb ↦ (h b b.mem_all hb).imp_left fun hd c ↦ hd c c.mem_all,
      fun h b _ hb ↦ (h b hb).imp_left fun hd c _ ↦ hd c⟩

instance (s : Sequencer) : Decidable s.Quiescent :=
  decidable_of_iff (s.queue.empty = true ∧ s.core.sched.state = .idle ∧
      (∀ b ∈ BackendId.all, s.core.busy b = false) ∧ ∀ b ∈ BackendId.all, Drained b (s.core.be b))
    ⟨fun h ↦ ⟨h.1, h.2.1, fun b ↦ h.2.2.1 b b.mem_all, fun b ↦ h.2.2.2 b b.mem_all⟩,
      fun h ↦ ⟨h.queue, h.sched, fun b _ ↦ h.busy b, fun b _ ↦ h.drained b⟩⟩

/-- The product of one element with a row of `n`. -/
def rowCmd (src dst : Addr) (n : Dim) (shift : BitVec 5) : ConvCmd :=
  { (0 : ConvCmd) with
    opcode := Opcode.opGemm
    actInAddr := src
    actOutAddr := dst
    inH := 1
    inW := n
    inC := 1
    quantShift := shift }

def sumCmd : ConvCmd :=
  { (0 : ConvCmd) with
    opcode := Opcode.opVec
    actInAddr := 64
    actOutAddr := 96
    inH := 2 }

def pushTwo (c d : ConvCmd) (t : ℕ) : Push := if t = 0 then ⟨c, true⟩ else ⟨d, t = 1⟩

/-- Two products of a single element; the second scales down, and the only
element of the first is still under way when it is taken. -/
theorem not_inSequence_products :
    ((reset (fun _ ↦ 0) (fun _ ↦ 20) fun _ ↦ 2).run
        (pushTwo (rowCmd 0 64 1 0) (rowCmd 1 65 1 3)) 26).AllProper ∧
      ¬(reset (fun _ ↦ 0) (fun _ ↦ 20) fun _ ↦ 2).InSequence
        (pushTwo (rowCmd 0 64 1 0) (rowCmd 1 65 1 3)) 26 := by
  have hpushed : ((reset (fun _ ↦ 0) (fun _ ↦ 20) fun _ ↦ 2).run
      (pushTwo (rowCmd 0 64 1 0) (rowCmd 1 65 1 3)) 26).pushed =
        [rowCmd 0 64 1 0, rowCmd 1 65 1 3] := by decide +kernel
  refine ⟨fun c hc ↦ ?_, fun h ↦ ?_⟩
  · rw [hpushed] at hc
    simp only [List.mem_cons, List.not_mem_nil, or_false] at hc
    rcases hc with rfl | rfl
    · exact (⟨⟨by decide, by decide, by decide⟩, by decide, by decide, by decide, by decide,
        by decide⟩ : GemmCmd.Valid (convToGemmCmd (rowCmd 0 64 1 0)))
    · exact (⟨⟨by decide, by decide, by decide⟩, by decide, by decide, by decide, by decide,
        by decide⟩ : GemmCmd.Valid (convToGemmCmd (rowCmd 1 65 1 3)))
  · have hact := congrFun (h.atRest (by decide +kernel)) 64
    rw [hpushed] at hact
    exact absurd hact (by decide +kernel)

/-- With two elements the product is written when the sum is taken. -/
theorem back_to_back_rowThenSum :
    (reset (fun _ ↦ 0) (fun a ↦ a.setWidth 8) fun _ ↦ 2).InSequence
        (pushTwo (rowCmd 3 64 2 0) sumCmd) 34 ∧
      ((reset (fun _ ↦ 0) (fun a ↦ a.setWidth 8) fun _ ↦ 2).run
        (pushTwo (rowCmd 3 64 2 0) sumCmd) 34).Quiescent := by
  have hpushed : ((reset (fun _ ↦ 0) (fun a ↦ a.setWidth 8) fun _ ↦ 2).run
      (pushTwo (rowCmd 3 64 2 0) sumCmd) 34).pushed = [rowCmd 3 64 2 0, sumCmd] := by
    decide +kernel
  refine ⟨back_to_back (fun c hc ↦ ?_) (by decide +kernel), by decide +kernel⟩
  rw [hpushed] at hc
  simp only [List.mem_cons, List.not_mem_nil, or_false] at hc
  rcases hc with rfl | rfl
  · exact (⟨⟨by decide, by decide, by decide⟩, by decide, by decide, by decide, by decide,
      by decide⟩ : GemmCmd.Valid (convToGemmCmd (rowCmd 3 64 2 0)))
  · exact (by decide : 0 < (convToVecCmd sumCmd).length.toNat)

end Sequencer

end LgNpu
