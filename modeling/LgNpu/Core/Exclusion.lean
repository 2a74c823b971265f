import LgNpu.Core.NpuCore
import LgNpu.Conv.Feed
import LgNpu.Gemm.Feed
import LgNpu.Mac.Run

/-!
# One backend at a time

Between commands the composites are back in their idle state, while `conv` and
`gemm` may have signalled done with an element still under way.  As long as no
other backend takes a command over such an element, the backends share the
ports without interference.
-/

namespace LgNpu

def BeReq.raises (q : BeReq) : Bool := q.actRdReq || q.wtRdReq || q.outWrReq || q.biasRdReq

theorem BeReq.raises_eq_false {q : BeReq} : q.raises = false ↔
    q.actRdReq = false ∧ q.wtRdReq = false ∧ q.outWrReq = false ∧ q.biasRdReq = false := by
  simp only [raises, Bool.or_eq_false_iff, and_assoc]

/-- What sharing the ports takes: a backend is `Free` between commands,
`Working` on one, `Drained` when the ports are done with the last one, and
`Silent` when nothing at all is left of it. -/
structure Backend.Shares {S Cmd : Type} (b : Backend S Cmd) (Free Working Drained Silent : S → Prop) :
    Prop where
  free_of_silent : ∀ s, Silent s → Free s
  drained_of_silent : ∀ s, Silent s → Drained s
  silent_busy : ∀ s, Silent s → b.busy s = false
  silent_done : ∀ s, Silent s → b.done s = false
  silent_step : ∀ s cmd rsp, Silent s → Silent (b.step s cmd false rsp)
  drained_req : ∀ s, Free s → Drained s → (b.req s).raises = false
  drained_step : ∀ s cmd rsp, Free s → Drained s → Silent (b.step s cmd false rsp)
  free_ready : ∀ s, Free s → b.cmdReady s = true
  free_step : ∀ s cmd rsp, Free s → Free (b.step s cmd false rsp)
  accept : ∀ s cmd rsp, Free s → Working (b.step s cmd true rsp)
  working_step : ∀ s cmd rsp, Working s → b.done s = false → Working (b.step s cmd false rsp)
  working_done : ∀ s cmd rsp, Working s → b.done s = true → Free (b.step s cmd false rsp)
  one_reader : ∀ s, ((b.req s).biasRdReq && (b.req s).wtRdReq) = false

/-! ## The composites -/

/-- A backend whose done state leads straight back to idle. -/
theorem Backend.Shares.of_idle {S Cmd : Type} {b : Backend S Cmd} {Idle : S → Prop}
    (hready : ∀ s, Idle s → b.cmdReady s = true) (hbusy : ∀ s, Idle s → b.busy s = false)
    (hdone : ∀ s, Idle s → b.done s = false) (hreq : ∀ s, Idle s → (b.req s).raises = false)
    (hstep : ∀ s cmd rsp, Idle s → Idle (b.step s cmd false rsp))
    (hend : ∀ s cmd rsp, b.done s = true → Idle (b.step s cmd false rsp))
    (hone : ∀ s, ((b.req s).biasRdReq && (b.req s).wtRdReq) = false) :
    b.Shares Idle (fun _ ↦ True) (fun _ ↦ True) Idle where
  free_of_silent _ h := h
  drained_of_silent _ _ := trivial
  silent_busy := hbusy
  silent_done := hdone
  silent_step := hstep
  drained_req s h _ := hreq s h
  drained_step s cmd rsp h _ := hstep s cmd rsp h
  free_ready := hready
  free_step := hstep
  accept _ _ _ _ := trivial
  working_step _ _ _ _ _ := trivial
  working_done s cmd rsp _ h := hend s cmd rsp h
  one_reader := hone

theorem SoftmaxCtrl.shares : softmaxBackend.Shares (fun s ↦ s.state = .idle) (fun _ ↦ True)
    (fun _ ↦ True) (fun s ↦ s.state = .idle) := by
  apply Backend.Shares.of_idle
  · exact fun s h ↦ decide_eq_true h
  · exact fun s h ↦ decide_eq_false (not_not.mpr h)
  · exact fun s h ↦ decide_eq_false (by simp [h])
  · exact fun s h ↦ by simp [softmaxBackend, BeReq.raises, req, actRdReq, h]
  · exact fun s cmd rsp h ↦ step_idle_state h
  · exact fun s cmd rsp h ↦ step_done_state (of_decide_eq_true h)
  · exact fun s ↦ rfl

theorem VecCtrl.shares : vecBackend.Shares (fun s ↦ s.state = .idle) (fun _ ↦ True)
    (fun _ ↦ True) (fun s ↦ s.state = .idle) := by
  apply Backend.Shares.of_idle
  · exact fun s h ↦ decide_eq_true h
  · exact fun s h ↦ decide_eq_false (not_not.mpr h)
  · exact fun s h ↦ decide_eq_false (by simp [h])
  · exact fun s h ↦ by simp [vecBackend, BeReq.raises, req, h]
  · exact fun s cmd rsp h ↦ by simp [vecBackend, step, stateNext, h]
  · exact fun s cmd rsp h ↦ by simp [vecBackend, step, stateNext, of_decide_eq_true h]
  · exact fun s ↦ rfl

theorem LnormCtrl.shares : lnormBackend.Shares (fun s ↦ s.state = .idle) (fun _ ↦ True)
    (fun _ ↦ True) (fun s ↦ s.state = .idle) := by
  apply Backend.Shares.of_idle
  · exact fun s h ↦ decide_eq_true h
  · exact fun s h ↦ decide_eq_false (not_not.mpr h)
  · exact fun s h ↦ decide_eq_false (by simp [h])
  · exact fun s h ↦ by simp [lnormBackend, BeReq.raises, req, reading, h]
  · exact fun s cmd rsp h ↦ step_idle_state h
  · exact fun s cmd rsp h ↦ step_done_state (of_decide_eq_true h)
  · exact fun s ↦ rfl

theorem PoolCtrl.shares : poolBackend.Shares (fun s ↦ s.state = .idle) (fun _ ↦ True)
    (fun _ ↦ True) (fun s ↦ s.state = .idle) := by
  apply Backend.Shares.of_idle
  · exact fun s h ↦ decide_eq_true h
  · exact fun s h ↦ decide_eq_false (not_not.mpr h)
  · exact fun s h ↦ decide_eq_false (by simp [h])
  · exact fun s h ↦ by simp [poolBackend, BeReq.raises, req, h]
  · exact fun s cmd rsp h ↦ by simp [poolBackend, step, stateNext, h]
  · exact fun s cmd rsp h ↦ by simp [poolBackend, step, stateNext, of_decide_eq_true h]
  · exact fun s ↦ rfl

/-! ## The multiply-accumulate backends -/

/-- A front end that ends its commands at rest; `Ok` are the states it can be
in. -/
structure MacFront.Ends {F Cmd : Type} (fe : MacFront F Cmd) (Ok Rest : F → Prop) : Prop where
  ok_of_rest : ∀ f, Rest f → Ok f
  rest_ready : ∀ f, Rest f → fe.cmdReady f = true
  rest_valid : ∀ f, Rest f → (fe.out f).addrGenValid = false
  rest_done : ∀ f, Rest f → (fe.out f).ctrlDone = false
  rest_busy : ∀ f, Rest f → (fe.out f).ctrlBusy = false
  rest_step : ∀ f cmd ready, Rest f → Rest (fe.step f cmd false ready)
  ok_step : ∀ f cmd v ready, Ok f → Ok (fe.step f cmd v ready)
  done_step : ∀ f cmd ready, Ok f → (fe.out f).ctrlDone = true → Rest (fe.step f cmd false ready)

namespace Mac

variable {F Cmd : Type} {fe : MacFront F Cmd} {Ok Rest : F → Prop}

/-- Past the controller's done state, but for elements under way. -/
structure Free (Rest : F → Prop) (s : Mac F) : Prop where
  front : Rest s.front
  finished : s.path.ctrlFinished = false

structure Working (Ok Rest : F → Prop) (s : Mac F) : Prop where
  front : Ok s.front
  finished : s.path.ctrlFinished = true → Rest s.front

structure Silent (Rest : F → Prop) (s : Mac F) : Prop where
  front : Rest s.front
  path : s.path.Quiet

theorem req_of_drained {s : MacPath} (h : s.drained = true) : s.req.raises = false := by
  simp only [MacPath.drained, Bool.and_eq_true, decide_eq_true_eq, Bool.not_eq_true'] at h
  obtain ⟨⟨⟨⟨⟨⟨⟨⟨hload, -⟩, -⟩, -⟩, -⟩, -⟩, -⟩, -⟩, hwr⟩ := h
  simp [BeReq.raises, MacPath.req, ConvLoader.actMemReq, ConvLoader.wtMemReq, ConvWriter.memReq,
    MacPath.peAccept, ConvLoader.pairValid, hload, hwr]

theorem shares (hE : fe.Ends Ok Rest) : (macBackend fe).Shares (Free Rest) (Working Ok Rest)
    (fun s ↦ s.path.drained = true) (Silent Rest) where
  free_of_silent s h := ⟨h.front, h.path.finished⟩
  drained_of_silent s h := h.path.drained
  silent_busy s h := by
    simp [macBackend, MacPath.busy, MacPath.pipeEmpty, MacPath.ppOutReady, ConvWriter.inReady,
      hE.rest_busy _ h.front, h.path.trigger, h.path.quant, h.path.addr, h.path.writer,
      h.path.finished]
  silent_done s h := by
    simp [macBackend, MacPath.done, hE.rest_done _ h.front, h.path.finished]
  silent_step s cmd rsp h := ⟨hE.rest_step _ _ _ h.front,
    h.path.step (hE.rest_valid _ h.front) (hE.rest_done _ h.front) rsp⟩
  drained_req s _ h := req_of_drained h
  drained_step s cmd rsp h hd := ⟨hE.rest_step _ _ _ h.front, MacPath.quiet_of_drained hd h.finished
    (hE.rest_valid _ h.front) (hE.rest_done _ h.front) rsp⟩
  free_ready s h := hE.rest_ready _ h.front
  free_step s cmd rsp h := by
    refine ⟨hE.rest_step _ _ _ h.front, ?_⟩
    simp [macBackend, MacPath.step, hE.rest_done _ h.front, h.finished]
  accept s cmd rsp h := by
    refine ⟨hE.ok_step _ _ _ _ (hE.ok_of_rest _ h.front), fun hf ↦ ?_⟩
    simp [macBackend, MacPath.step, hE.rest_done _ h.front, h.finished] at hf
  working_step s cmd rsp h hd := by
    refine ⟨hE.ok_step _ _ _ _ h.front, fun hf ↦ ?_⟩
    change (if s.path.done (fe.out s.front) then false else if (fe.out s.front).ctrlDone then true
      else s.path.ctrlFinished) = true at hf
    rw [if_neg (by simpa [macBackend] using hd)] at hf
    cases hc : (fe.out s.front).ctrlDone with
    | true => exact hE.done_step _ _ _ h.front hc
    | false => exact hE.rest_step _ _ _ (h.finished (by simpa [hc] using hf))
  working_done s cmd rsp h hd := by
    have hdone : s.path.done (fe.out s.front) = true := hd
    refine ⟨?_, if_pos hdone⟩
    rcases Bool.or_eq_true_iff.mp (Bool.and_eq_true_iff.mp hdone).1 with hc | hf
    · exact hE.done_step _ _ _ h.front hc
    · exact hE.rest_step _ _ _ (h.finished hf)
  one_reader s := by
    cases hs : s.path.loader.state <;>
      simp [macBackend, MacPath.req, MacPath.peAccept, ConvLoader.pairValid, ConvLoader.wtMemReq,
        hs]

end Mac

/-- The address generator works while the controller computes or drains. -/
def ConvFront.Ok (f : ConvFront) : Prop :=
  f.ctrl.state = .compute ∨ f.ctrl.state = .drain ∨ f.addrGen.state = .idle

theorem ConvFront.ends : convFront.Ends ConvFront.Ok ConvFront.Rest where
  ok_of_rest f h := .inr (.inr h.addrGen)
  rest_ready f h := by simp [convFront, h.ctrl]
  rest_valid f h := by simp [convFront, ConvAddrGen.outValid, h.addrGen]
  rest_done f h := by simp [convFront, h.ctrl]
  rest_busy f h := by simp [convFront, h.ctrl]
  rest_step f cmd ready h := by
    constructor
    · simp [convFront, step, ConvCtrl.step, LoopState.next, h.ctrl]
    · simp [convFront, step, ConvAddrGen.step, ConvCtrl.iterValid, h.ctrl, h.addrGen]
  ok_step f cmd v ready h := by
    by_cases ha : f.addrGen.state = .idle
    · by_cases hs : f.ctrl.state = .compute
      · cases hl : f.ctrl.innerLast && f.ctrl.outerLast <;>
          simp [Ok, convFront, step, ConvCtrl.step, LoopState.next, ConvAddrGen.inReady, hs, ha, hl]
      · simp [Ok, convFront, step, ConvAddrGen.step, ConvCtrl.iterValid, hs, ha]
    · have hs : f.ctrl.state = .compute ∨ f.ctrl.state = .drain :=
        (or_assoc.mpr h).resolve_right ha
      have hstay : (f.step cmd v ready).ctrl = f.ctrl := by
        simp only [step, ConvAddrGen.inReady, ha, decide_false]
        exact ConvCtrl.step_of_stalled hs
      exact or_assoc.mp (.inl (hstay ▸ hs))
  done_step f cmd ready h hd := by
    have hs : f.ctrl.state = .done := of_decide_eq_true hd
    have ha : f.addrGen.state = .idle := by simpa [Ok, hs] using h
    constructor
    · simp [convFront, step, ConvCtrl.step, LoopState.next, hs]
    · simp [convFront, step, ConvAddrGen.step, ConvCtrl.iterValid, hs, ha]

def GemmFront.Ok (f : GemmFront) : Prop :=
  f.ctrl.state = .compute ∨ f.ctrl.state = .drain ∨ f.addrGen.state = .idle

theorem GemmFront.ends : gemmFront.Ends GemmFront.Ok GemmFront.Rest where
  ok_of_rest f h := .inr (.inr h.addrGen)
  rest_ready f h := by simp [gemmFront, h.ctrl]
  rest_valid f h := by simp [gemmFront, GemmAddrGen.outValid, h.addrGen]
  rest_done f h := by simp [gemmFront, h.ctrl]
  rest_busy f h := by simp [gemmFront, h.ctrl]
  rest_step f cmd ready h := by
    constructor
    · simp [gemmFront, step, GemmCtrl.step, LoopState.next, h.ctrl]
    · simp [gemmFront, step, GemmAddrGen.step, GemmCtrl.iterValid, h.ctrl, h.addrGen]
  ok_step f cmd v ready h := by
    by_cases ha : f.addrGen.state = .idle
    · by_cases hs : f.ctrl.state = .compute
      · cases hl : f.ctrl.innerLast && f.ctrl.outerLast <;>
          simp [Ok, gemmFront, step, GemmCtrl.step, LoopState.next, GemmAddrGen.inReady, hs, ha, hl]
      · simp [Ok, gemmFront, step, GemmAddrGen.step, GemmCtrl.iterValid, hs, ha]
    · have hs : f.ctrl.state = .compute ∨ f.ctrl.state = .drain :=
        (or_assoc.mpr h).resolve_right ha
      have hstay : (f.step cmd v ready).ctrl = f.ctrl := by
        simp only [step, GemmAddrGen.inReady, ha, decide_false]
        exact GemmCtrl.step_of_stalled hs
      exact or_assoc.mp (.inl (hstay ▸ hs))
  done_step f cmd ready h hd := by
    have hs : f.ctrl.state = .done := of_decide_eq_true hd
    have ha : f.addrGen.state = .idle := by simpa [Ok, hs] using h
    constructor
    · simp [gemmFront, step, GemmCtrl.step, LoopState.next, hs]
    · simp [gemmFront, step, GemmAddrGen.step, GemmCtrl.iterValid, hs, ha]

/-! ## The family -/

namespace NpuCore

/-! The states of `Backend.Shares`, for each member of the family. -/

def Free : (b : BackendId) → BeState b → Prop
  | .conv => Mac.Free ConvFront.Rest
  | .gemm => Mac.Free GemmFront.Rest
  | .softmax => fun s ↦ s.state = .idle
  | .vec => fun s ↦ s.state = .idle
  | .lnorm => fun s ↦ s.state = .idle
  | .pool => fun s ↦ s.state = .idle

def Working : (b : BackendId) → BeState b → Prop
  | .conv => Mac.Working ConvFront.Ok ConvFront.Rest
  | .gemm => Mac.Working GemmFront.Ok GemmFront.Rest
  | _ => fun _ ↦ True

def Drained : (b : BackendId) → BeState b → Prop
  | .conv => fun s ↦ s.path.drained = true
  | .gemm => fun s ↦ s.path.drained = true
  | _ => fun _ ↦ True

def Silent : (b : BackendId) → BeState b → Prop
  | .conv => Mac.Silent ConvFront.Rest
  | .gemm => Mac.Silent GemmFront.Rest
  | .softmax => fun s ↦ s.state = .idle
  | .vec => fun s ↦ s.state = .idle
  | .lnorm => fun s ↦ s.state = .idle
  | .pool => fun s ↦ s.state = .idle

theorem shares : (b : BackendId) → (backend b).Shares (Free b) (Working b) (Drained b) (Silent b)
  | .conv => Mac.shares ConvFront.ends
  | .gemm => Mac.shares GemmFront.ends
  | .softmax => SoftmaxCtrl.shares
  | .vec => VecCtrl.shares
  | .lnorm => LnormCtrl.shares
  | .pool => PoolCtrl.shares

theorem silent_reset (b : BackendId) : Silent b (beReset b) := by
  cases b with
  | conv => exact ⟨⟨rfl, rfl⟩, MacPath.quiet_reset⟩
  | gemm => exact ⟨⟨rfl, rfl⟩, MacPath.quiet_reset⟩
  | softmax => rfl
  | vec => rfl
  | lnorm => rfl
  | pool => rfl

theorem silent_clear (b : BackendId) (s : BeState b) : Silent b (beClear b s) := by
  cases b with
  | lnorm => rfl
  | _ => exact silent_reset _

variable (x : NpuCore)

/-- No command is taken while the ports still owe another backend anything. -/
def Handover : Prop := ∀ b, x.accepts b = true → ∀ c ≠ b, Drained c (x.be c)

/-- The owner of the ports is the backend of the last command; the others are
silent. -/
structure Inv : Prop where
  code : x.beSelR = selCode (selected x.beSelR)
  silent : ∀ b ≠ selected x.beSelR, Silent b (x.be b)
  waiting : x.sched.state = .wait → Working (selected x.beSelR) (x.be (selected x.beSelR))
  free : x.sched.state ≠ .wait → Free (selected x.beSelR) (x.be (selected x.beSelR))
  calm : x.mem.biasPendingR = false

variable {x}

theorem Inv.reset (act : BitVec 13 → Byte) (wt : BitVec 12 → Byte) : Inv (reset act wt) where
  code := rfl
  silent b _ := silent_reset b
  waiting h := absurd h SchedState.noConfusion
  free _ := (shares _).free_of_silent _ (silent_reset _)
  calm := rfl

theorem Inv.one_reader : (x.memReq.biasRdReq && x.memReq.wtRdReq) = false :=
  (shares _).one_reader _

theorem Inv.free_of_issue (h : Inv x) (hs : x.sched.state ≠ .wait) (b : BackendId) :
    Free b (x.be b) := by
  by_cases hb : b = selected x.beSelR
  · subst hb
    exact h.free hs
  · exact (shares b).free_of_silent _ (h.silent b hb)

theorem accepts_eq_false (h : x.sched.state ≠ .issue) (b : BackendId) : x.accepts b = false := by
  rw [accepts, cmdValid_eq, decide_eq_false (fun hv ↦ h hv.1), Bool.false_and]

theorem be_step (i : CoreIn) (b : BackendId) : (x.step i).be b =
    (backend b).step (x.be b) (beCmd x.sched.cmdR b) (x.cmdValid b) (x.rsp b) := rfl

theorem be_step_of_quiet (hs : x.sched.state ≠ .issue) (i : CoreIn) (b : BackendId) :
    (x.step i).be b = (backend b).step (x.be b) (beCmd x.sched.cmdR b) false (x.rsp b) := by
  rw [be_step, cmdValid_eq, decide_eq_false fun hv ↦ hs hv.1]

theorem beSelR_step_of_quiet (hs : x.sched.state ≠ .issue) (i : CoreIn) :
    (x.step i).beSelR = x.beSelR := x.selNext_of_silent (accepts_eq_false hs)

theorem memReq_of_sel {b : BackendId} (h : x.beSelR = selCode b) : x.memReq = x.beReq b := by
  rw [memReq, h, selected_selCode]

theorem beDone_eq_done {b : BackendId} (h : ∀ c ≠ b, x.done c = false) : x.beDone = x.done b := by
  apply Bool.eq_iff_iff.mpr
  rw [beDone_iff]
  refine ⟨fun ⟨c, hc⟩ ↦ ?_, fun hd ↦ ⟨b, hd⟩⟩
  by_cases hcb : c = b
  · rwa [hcb] at hc
  · exact absurd ((h c hcb).symm.trans hc) Bool.false_ne_true

/-- The scheduler waits on until the done pulse. -/
theorem wait_step_iff (hs : x.sched.state ≠ .issue) (i : CoreIn) :
    (x.step i).sched.state = .wait ↔ x.sched.state = .wait ∧ x.beDone = false := by
  cases hst : x.sched.state with
  | idle => cases hq : i.queueValid <;> simp [NpuCore.step, NpuScheduler.step, hst, hq]
  | issue => exact absurd hst hs
  | wait => cases hd : x.beDone <;> simp [NpuCore.step, NpuScheduler.step, hst, hd]

/-- What the issue of a command does, if its backend is ready. -/
structure Issued (x : NpuCore) (i : CoreIn) (b : BackendId) : Prop where
  valid : ∀ c, x.cmdValid c = decide (b = c)
  accepts : x.accepts b = true
  sel : (x.step i).beSelR = selCode b
  wait : (x.step i).sched.state = .wait

theorem issued (hs : x.sched.state = .issue) (i : CoreIn)
    (hready : x.cmdReady (dispatchTo x.sched.cmdR.opcode) = true) :
    Issued x i (dispatchTo x.sched.cmdR.opcode) := by
  have hvalid : ∀ c, x.cmdValid c = decide (dispatchTo x.sched.cmdR.opcode = c) := fun c ↦ by
    rw [cmdValid_eq]
    simp [hs]
  have hacc : x.accepts (dispatchTo x.sched.cmdR.opcode) = true := by
    rw [NpuCore.accepts, hvalid, hready, decide_eq_true rfl]
    rfl
  refine ⟨hvalid, hacc, x.selNext_of_accepts hacc, ?_⟩
  simp [NpuCore.step, NpuScheduler.step, dispReady, schedReady, hs, hready]

/-- Without a command port active the owner keeps the ports. -/
theorem Inv.step_quiet (h : Inv x) (hs : x.sched.state ≠ .issue) (i : CoreIn) : Inv (x.step i) := by
  have hsel := beSelR_step_of_quiet hs i
  have hbe := be_step_of_quiet hs i
  have hdone : x.beDone = x.done (selected x.beSelR) :=
    beDone_eq_done fun b hb ↦ (shares b).silent_done _ (h.silent b hb)
  refine ⟨by rw [hsel]; exact h.code, fun b hb ↦ ?_, fun hw ↦ ?_, fun hw ↦ ?_,
    NpuMemTop.biasPendingR_step h.calm Inv.one_reader⟩
  · rw [hsel] at hb
    rw [hbe]
    exact (shares b).silent_step _ _ _ (h.silent b hb)
  · obtain ⟨hst, hd⟩ := (wait_step_iff hs i).mp hw
    rw [hsel, hbe]
    exact (shares _).working_step _ _ _ (h.waiting hst) (hdone.symm.trans hd)
  · rw [hsel, hbe]
    by_cases hst : x.sched.state = .wait
    · have hd : x.beDone = true := by
        by_contra hd
        exact hw ((wait_step_iff hs i).mpr ⟨hst, Bool.eq_false_iff.mpr hd⟩)
      exact (shares _).working_done _ _ _ (h.waiting hst) (hdone.symm.trans hd)
    · exact (shares _).free_step _ _ _ (h.free hst)

theorem Inv.step_issue (h : Inv x) (hh : x.Handover) (hs : x.sched.state = .issue) (i : CoreIn) :
    Inv (x.step i) := by
  have hfree := h.free_of_issue (by simp [hs])
  have hissued := issued hs i ((shares _).free_ready _ (hfree _))
  generalize dispatchTo x.sched.cmdR.opcode = b at hissued
  refine ⟨by rw [hissued.sel, selected_selCode], fun c hc ↦ ?_, fun _ ↦ ?_,
    fun hw ↦ absurd hissued.wait hw, NpuMemTop.biasPendingR_step h.calm Inv.one_reader⟩
  · rw [hissued.sel, selected_selCode] at hc
    rw [be_step, hissued.valid, decide_eq_false (Ne.symm hc)]
    exact (shares c).drained_step _ _ _ (hfree c) (hh b hissued.accepts c hc)
  · rw [hissued.sel, selected_selCode, be_step, hissued.valid, decide_eq_true rfl]
    exact (shares b).accept _ _ _ (hfree b)

theorem Inv.step (h : Inv x) (hh : x.Handover) (i : CoreIn) : Inv (x.step i) := by
  by_cases hs : x.sched.state = .issue
  · exact h.step_issue hh hs i
  · exact h.step_quiet hs i

theorem inv_run {act : BitVec 13 → Byte} {wt : BitVec 12 → Byte} {ins : ℕ → CoreIn} {t : ℕ}
    (hh : ∀ u < t, ((reset act wt).run ins u).Handover) : Inv ((reset act wt).run ins t) := by
  induction t with
  | zero => exact Inv.reset act wt
  | succ t ih =>
      rw [run_succ]
      exact (ih fun u hu ↦ hh u (Nat.lt_succ_of_lt hu)).step (hh t (Nat.lt_succ_self t)) _

/-! ## Exclusion -/

variable (x) in
/-- At most one backend is busy, and its requests are the ones put through. -/
structure Exclusive : Prop where
  oneBusy : ∀ b c, x.busy b = true → x.busy c = true → b = c
  forwarded : ∀ b, x.busy b = true → (x.beReq b).raises = true →
    x.memReq = x.beReq b ∧ x.rsp b = x.mem.beRsp x.memReq

/-- A backend gets a response on a read port exactly when its request there was
granted in the cycle before, and the byte is the one it asked for. -/
structure Delivered (x x' : NpuCore) (b : BackendId) : Prop where
  act : (x'.rsp b).actRdRvalid = ((x.beReq b).actRdReq && (x.rsp b).actRdGnt)
  wt : (x'.rsp b).wtRdRvalid = ((x.beReq b).wtRdReq && (x.rsp b).wtRdGnt)
  bias : (x'.rsp b).biasRdRvalid = ((x.beReq b).biasRdReq && (x.rsp b).biasRdGnt)
  actData : (x'.rsp b).actRdRvalid = true →
    (x'.rsp b).actRdRdata = x.mem.act ((x.beReq b).actRdAddr.setWidth 13)
  wtData : (x'.rsp b).wtRdRvalid = true →
    (x'.rsp b).wtRdRdata = x.mem.wt ((x.beReq b).wtRdAddr.setWidth 12)
  biasData : (x'.rsp b).biasRdRvalid = true →
    (x'.rsp b).biasRdRdata = x.mem.wt ((x.beReq b).biasRdAddr.setWidth 12)

theorem Delivered.none {x' : NpuCore} {b : BackendId}
    (hA : ((x.beReq b).actRdReq && (x.rsp b).actRdGnt) = false)
    (hW : ((x.beReq b).wtRdReq && (x.rsp b).wtRdGnt) = false)
    (hB : ((x.beReq b).biasRdReq && (x.rsp b).biasRdGnt) = false)
    (hA' : (x'.rsp b).actRdRvalid = false) (hW' : (x'.rsp b).wtRdRvalid = false)
    (hB' : (x'.rsp b).biasRdRvalid = false) : Delivered x x' b where
  act := hA'.trans hA.symm
  wt := hW'.trans hW.symm
  bias := hB'.trans hB.symm
  actData hv := absurd (hA'.symm.trans hv) Bool.false_ne_true
  wtData hv := absurd (hW'.symm.trans hv) Bool.false_ne_true
  biasData hv := absurd (hB'.symm.trans hv) Bool.false_ne_true

theorem Inv.silent_of_other (h : Inv x) {b : BackendId} (hb : b ≠ selected x.beSelR) :
    x.busy b = false ∧ (x.beReq b).raises = false := by
  have hs := h.silent b hb
  refine ⟨(shares b).silent_busy _ hs, (shares b).drained_req _ ((shares b).free_of_silent _ hs) ?_⟩
  exact (shares b).drained_of_silent _ hs

theorem Inv.exclusive (h : Inv x) : Exclusive x := by
  have howner : ∀ b, x.busy b = true → b = selected x.beSelR := fun b hb ↦ by
    by_contra ho
    exact Bool.false_ne_true ((h.silent_of_other ho).1.symm.trans hb)
  refine ⟨fun b c hb hc ↦ (howner b hb).trans (howner c hc).symm, fun b hb _ ↦ ?_⟩
  obtain rfl := howner b hb
  exact ⟨rfl, if_pos h.code⟩

/-- The owner after the edge, and that no request is lost when it changes. -/
theorem Inv.owner_step (h : Inv x) (hh : x.Handover) (i : CoreIn)
    (hne : selected (x.step i).beSelR ≠ selected x.beSelR) : x.memReq.raises = false := by
  have hs : x.sched.state = .issue := by
    by_contra hs
    exact hne (congrArg selected (beSelR_step_of_quiet hs i))
  have hfree := h.free_of_issue (by simp [hs])
  have hissued := issued hs i ((shares _).free_ready _ (hfree _))
  rw [hissued.sel, selected_selCode] at hne
  exact (shares _).drained_req _ (hfree _) (hh _ hissued.accepts _ (Ne.symm hne))

/-- The responses on the wires are those of the owner's requests. -/
theorem Inv.rvalid_step (h : Inv x) (i : CoreIn) :
    (x.step i).mem.actBuf.beRdAcceptR = x.memReq.actRdReq ∧
      (x.step i).mem.wtRvalid = x.memReq.wtRdReq ∧
      (x.step i).mem.biasRvalid = x.memReq.biasRdReq :=
  ⟨rfl, NpuMemTop.wtRvalid_step h.calm Inv.one_reader,
    NpuMemTop.biasRvalid_step h.calm Inv.one_reader⟩

theorem Inv.rsp_eq (h : Inv x) (b : BackendId) :
    x.rsp b = if b = selected x.beSelR then x.mem.beRsp x.memReq else .none := by
  rw [rsp]
  by_cases hb : b = selected x.beSelR
  · rw [if_pos hb, if_pos (by rw [hb]; exact h.code)]
  · rw [if_neg hb, if_neg fun hc ↦ hb (by rw [hc, selected_selCode])]

/-- While the owner stays, its responses come back to it. -/
theorem Inv.delivered_of_stay (h : Inv x) (hh : x.Handover) (i : CoreIn) (b : BackendId)
    (hstay : selected (x.step i).beSelR = selected x.beSelR) : Delivered x (x.step i) b := by
  obtain ⟨hact, hwt, hbias⟩ := h.rvalid_step i
  have hrsp' := (h.step hh i).rsp_eq b
  rw [hstay] at hrsp'
  have hrsp := h.rsp_eq b
  by_cases ho : b = selected x.beSelR
  · have hreq : x.beReq b = x.memReq := by rw [memReq, ← ho]
    rw [if_pos ho] at hrsp hrsp'
    refine ⟨?_, ?_, ?_, fun hv ↦ ?_, fun hv ↦ ?_, fun hv ↦ ?_⟩
    · rw [hrsp, hrsp', hreq]
      exact hact.trans (Bool.and_self _).symm
    · rw [hrsp, hrsp', hreq, NpuMemTop.wtRdGnt_eq h.calm, Bool.and_self]
      exact hwt
    · rw [hrsp, hrsp', hreq, NpuMemTop.biasRdGnt_eq h.calm Inv.one_reader, Bool.and_self]
      exact hbias
    · rw [hrsp'] at hv ⊢
      rw [hreq]
      exact (NpuMemTop.actRdRdata_step x.mem x.memReq i.host).trans (if_pos (hact.symm.trans hv))
    · rw [hrsp'] at hv ⊢
      rw [hreq]
      exact NpuMemTop.wtRdata_step (h := i.host) h.calm Inv.one_reader (hwt.symm.trans hv)
    · rw [hrsp'] at hv ⊢
      rw [hreq]
      exact NpuMemTop.biasRdata_step (h := i.host) h.calm Inv.one_reader (hbias.symm.trans hv)
  · rw [if_neg ho] at hrsp hrsp'
    apply Delivered.none <;> simp [hrsp, hrsp', BeRsp.none]

/-- Across a handover nothing is on the wires. -/
theorem Inv.delivered_of_change (h : Inv x) (hh : x.Handover) (i : CoreIn) (b : BackendId)
    (hne : selected (x.step i).beSelR ≠ selected x.beSelR) : Delivered x (x.step i) b := by
  obtain ⟨hact, hwt, hbias⟩ := h.rvalid_step i
  obtain ⟨hreqA, hreqW, -, hreqB⟩ := BeReq.raises_eq_false.mp (h.owner_step hh i hne)
  have hquiet : ((x.step i).rsp b).actRdRvalid = false ∧ ((x.step i).rsp b).wtRdRvalid = false ∧
      ((x.step i).rsp b).biasRdRvalid = false := by
    rw [(h.step hh i).rsp_eq]
    split
    · exact ⟨hact.trans hreqA, hwt.trans hreqW, hbias.trans hreqB⟩
    · exact ⟨rfl, rfl, rfl⟩
  by_cases ho : b = selected x.beSelR
  · have hreq : x.beReq b = x.memReq := by rw [memReq, ← ho]
    apply Delivered.none _ _ _ hquiet.1 hquiet.2.1 hquiet.2.2
    · rw [hreq, hreqA, Bool.false_and]
    · rw [hreq, hreqW, Bool.false_and]
    · rw [hreq, hreqB, Bool.false_and]
  · have hrsp : x.rsp b = .none := by rw [h.rsp_eq, if_neg ho]
    apply Delivered.none _ _ _ hquiet.1 hquiet.2.1 hquiet.2.2
    · rw [hrsp]
      exact Bool.and_false _
    · rw [hrsp]
      exact Bool.and_false _
    · rw [hrsp]
      exact Bool.and_false _

theorem Inv.delivered (h : Inv x) (hh : x.Handover) (i : CoreIn) (b : BackendId) :
    Delivered x (x.step i) b := by
  by_cases hstay : selected (x.step i).beSelR = selected x.beSelR
  · exact h.delivered_of_stay hh i b hstay
  · exact h.delivered_of_change hh i b hstay

/-- Whatever is queued and whatever the host does: as long as every command
finds the ports free, the backends exclude each other. -/
theorem exclusion {act : BitVec 13 → Byte} {wt : BitVec 12 → Byte} {ins : ℕ → CoreIn} {t : ℕ}
    (hh : ∀ u ≤ t, ((reset act wt).run ins u).Handover) :
    Exclusive ((reset act wt).run ins t) ∧
      ∀ b, Delivered ((reset act wt).run ins t) ((reset act wt).run ins (t + 1)) b := by
  have hinv := inv_run fun u hu ↦ hh u (Nat.le_of_lt hu)
  exact ⟨hinv.exclusive, fun b ↦ hinv.delivered (hh t le_rfl) (ins t) b⟩

/-! ## A command over an element under way -/

def gemmOne : ConvCmd := { (0 : ConvCmd) with opcode := Opcode.opGemm, inH := 1, inW := 1, inC := 1 }

def vecOne : ConvCmd := { (0 : ConvCmd) with opcode := Opcode.opVec, inH := 1 }

def gemmThenVec (t : ℕ) : CoreIn := ⟨if t = 0 then gemmOne else vecOne, true, .idle⟩

instance : (b : BackendId) → (s : BeState b) → Decidable (Drained b s)
  | .conv, s => inferInstanceAs (Decidable (s.path.drained = true))
  | .gemm, s => inferInstanceAs (Decidable (s.path.drained = true))
  | .softmax, _ => .isTrue trivial
  | .vec, _ => .isTrue trivial
  | .lnorm, _ => .isTrue trivial
  | .pool, _ => .isTrue trivial

instance (y : NpuCore) : Decidable y.Handover :=
  decidable_of_iff
    (∀ b ∈ BackendId.all, y.accepts b = true → ∀ c ∈ BackendId.all, c ≠ b → Drained c (y.be c))
    ⟨fun h b hb c hc ↦ h b b.mem_all hb c c.mem_all hc, fun h b _ hb c _ hc ↦ h b hb c hc⟩

/-- The product is still to be written when the vector command is taken. -/
theorem not_exclusive_overlap :
    ¬ Exclusive ((reset (fun _ ↦ 0) fun _ ↦ 0).run gemmThenVec 11) := by
  intro h
  have hg : ((reset (fun _ ↦ 0) fun _ ↦ 0).run gemmThenVec 11).busy .gemm = true := by
    decide +kernel
  have hv : ((reset (fun _ ↦ 0) fun _ ↦ 0).run gemmThenVec 11).busy .vec = true := by
    decide +kernel
  exact absurd (h.oneBusy .gemm .vec hg hv) BackendId.noConfusion

theorem exclusion_gemmThenVec :
    Exclusive ((reset (fun _ ↦ 0) fun _ ↦ 0).run gemmThenVec 8) ∧
      ∀ b, Delivered ((reset (fun _ ↦ 0) fun _ ↦ 0).run gemmThenVec 8)
        ((reset (fun _ ↦ 0) fun _ ↦ 0).run gemmThenVec 9) b :=
  exclusion (t := 8) (by decide +kernel)

end NpuCore

end LgNpu
