import LgNpu.Core.Exclusion

/-!
# A backend at work is busy

From the handshake to its done pulse a backend is `Engaged`, and busy.  After
the pulse it writes nothing more, provided that nothing is hidden from
`pipe_empty` in the datapath.
-/

namespace LgNpu

/-- A backend is engaged from the handshake to its done pulse. -/
structure Backend.Engages {S Cmd : Type} (b : Backend S Cmd) (Free Engaged : S → Prop) : Prop where
  accept : ∀ s cmd rsp, Free s → Engaged (b.step s cmd true rsp)
  step : ∀ s cmd rsp, Engaged s → b.done s = false → Engaged (b.step s cmd false rsp)
  busy : ∀ s, Engaged s → b.busy s = true
  not_free : ∀ s, Engaged s → ¬Free s
  done : ∀ s, b.done s = true → Engaged s

/-! ## The composites -/

theorem Backend.Engages.of_idle {S Cmd : Type} {b : Backend S Cmd} {Idle : S → Prop}
    (haccept : ∀ s cmd rsp, Idle s → ¬Idle (b.step s cmd true rsp))
    (hstep : ∀ s cmd rsp, ¬Idle s → b.done s = false → ¬Idle (b.step s cmd false rsp))
    (hbusy : ∀ s, ¬Idle s → b.busy s = true) (hdone : ∀ s, b.done s = true → ¬Idle s) :
    b.Engages Idle fun s ↦ ¬Idle s where
  accept := haccept
  step := hstep
  busy := hbusy
  not_free _ h := h
  done := hdone

theorem SoftmaxCtrl.engages :
    softmaxBackend.Engages (fun s ↦ s.state = .idle) (fun s ↦ ¬s.state = .idle) := by
  apply Backend.Engages.of_idle
  · intro s cmd rsp h
    rw [show softmaxBackend.step s cmd true rsp = _ from step_accept h]
    simp
  · intro s cmd rsp h hd
    have hne : s.state ≠ .done := of_decide_eq_false hd
    change ¬s.stateNext false rsp = .idle
    cases hs : s.state <;> simp only [stateNext, hs] <;> try simp_all
    all_goals repeat' split
    all_goals simp
  · exact fun s h ↦ decide_eq_true h
  · intro s h hs
    exact absurd (hs.symm.trans (of_decide_eq_true h)) (by simp)

theorem VecCtrl.engages :
    vecBackend.Engages (fun s ↦ s.state = .idle) (fun s ↦ ¬s.state = .idle) := by
  apply Backend.Engages.of_idle
  · intro s cmd rsp h
    rw [show vecBackend.step s cmd true rsp = _ from step_accept h]
    simp
  · intro s cmd rsp h hd
    have hne : s.state ≠ .done := of_decide_eq_false hd
    change ¬s.stateNext false rsp = .idle
    cases hs : s.state <;> simp only [stateNext, hs] <;> try simp_all
    all_goals repeat' split
    all_goals simp
  · exact fun s h ↦ decide_eq_true h
  · intro s h hs
    exact absurd (hs.symm.trans (of_decide_eq_true h)) (by simp)

theorem LnormCtrl.engages :
    lnormBackend.Engages (fun s ↦ s.state = .idle) (fun s ↦ ¬s.state = .idle) := by
  apply Backend.Engages.of_idle
  · intro s cmd rsp h
    rw [show lnormBackend.step s cmd true rsp = _ from step_accept h]
    simp
  · intro s cmd rsp h hd
    have hne : s.state ≠ .done := of_decide_eq_false hd
    change ¬s.stateNext false rsp = .idle
    cases hs : s.state <;> simp only [stateNext, hs] <;> try simp_all
    all_goals repeat' split
    all_goals simp
  · exact fun s h ↦ decide_eq_true h
  · intro s h hs
    exact absurd (hs.symm.trans (of_decide_eq_true h)) (by simp)

theorem PoolCtrl.engages :
    poolBackend.Engages (fun s ↦ s.state = .idle) (fun s ↦ ¬s.state = .idle) := by
  apply Backend.Engages.of_idle
  · intro s cmd rsp h
    rw [show poolBackend.step s cmd true rsp = _ from step_accept h]
    simp
  · intro s cmd rsp h hd
    have hne : s.state ≠ .done := of_decide_eq_false hd
    change ¬s.stateNext false rsp = .idle
    cases hs : s.state <;> simp only [stateNext, hs] <;> try simp_all
    all_goals repeat' split
    all_goals simp
  · exact fun s h ↦ decide_eq_true h
  · intro s h hs
    exact absurd (hs.symm.trans (of_decide_eq_true h)) (by simp)

/-! ## The multiply-accumulate backends -/

/-- A front end whose controller is busy while it has a command. -/
structure MacFront.Engages {F Cmd : Type} (fe : MacFront F Cmd) (Rest : F → Prop) : Prop where
  accept : ∀ f cmd ready, Rest f → (fe.out (fe.step f cmd true ready)).ctrlBusy = true
  step : ∀ f cmd ready, (fe.out f).ctrlBusy = true → (fe.out f).ctrlDone = false →
    (fe.out (fe.step f cmd false ready)).ctrlBusy = true
  done : ∀ f, (fe.out f).ctrlDone = true → (fe.out f).ctrlBusy = true

theorem ConvFront.engages : convFront.Engages ConvFront.Rest where
  accept f cmd ready h := by
    simp [convFront, ConvFront.step, ConvCtrl.step, LoopState.next, h.ctrl]
  step f cmd ready h hd := by
    have hne : f.ctrl.state ≠ .idle := of_decide_eq_true h
    have hnd : f.ctrl.state ≠ .done := of_decide_eq_false hd
    apply decide_eq_true
    change f.ctrl.state.next _ _ _ ≠ .idle
    cases hs : f.ctrl.state <;> simp only [LoopState.next] <;> try simp_all
    all_goals split
    all_goals simp
  done f h := by
    have hs : f.ctrl.state = .done := of_decide_eq_true h
    simp [convFront, hs]

theorem GemmFront.engages : gemmFront.Engages GemmFront.Rest where
  accept f cmd ready h := by
    simp [gemmFront, GemmFront.step, GemmCtrl.step, LoopState.next, h.ctrl]
  step f cmd ready h hd := by
    have hne : f.ctrl.state ≠ .idle := of_decide_eq_true h
    have hnd : f.ctrl.state ≠ .done := of_decide_eq_false hd
    apply decide_eq_true
    change f.ctrl.state.next _ _ _ ≠ .idle
    cases hs : f.ctrl.state <;> simp only [LoopState.next] <;> try simp_all
    all_goals split
    all_goals simp
  done f h := by
    have hs : f.ctrl.state = .done := of_decide_eq_true h
    simp [gemmFront, hs]

/-- The controller works, or the done pulse is still to come. -/
def Mac.Engaged {F Cmd : Type} (fe : MacFront F Cmd) (s : Mac F) : Prop :=
  (fe.out s.front).ctrlBusy = true ∨ s.path.ctrlFinished = true

theorem Mac.engages {F Cmd : Type} {fe : MacFront F Cmd} {Ok Rest : F → Prop}
    (hE : fe.Ends Ok Rest) (hG : fe.Engages Rest) :
    (macBackend fe).Engages (Free Rest) (Engaged fe) where
  accept s cmd rsp h := .inl (hG.accept _ _ _ h.front)
  step s cmd rsp h hd := by
    have hdone : s.path.done (fe.out s.front) = false := hd
    have hfin : ((macBackend fe).step s cmd false rsp).path.ctrlFinished =
        if (fe.out s.front).ctrlDone then true else s.path.ctrlFinished :=
      if_neg (Bool.eq_false_iff.mp hdone)
    rcases h with hb | hf
    · cases hc : (fe.out s.front).ctrlDone with
      | true => exact .inr (hfin.trans (by rw [hc]; rfl))
      | false => exact .inl (hG.step _ _ _ hb hc)
    · refine .inr (hfin.trans ?_)
      split
      · rfl
      · exact hf
  busy s h := by
    change (_ || _ || _) = true
    rcases h with hb | hf
    · rw [hb]
      rfl
    · rw [hf, Bool.or_true]
  not_free s h hfree := by
    rcases h with hb | hf
    · exact Bool.false_ne_true ((hE.rest_busy _ hfree.front).symm.trans hb)
    · exact Bool.false_ne_true (hfree.finished.symm.trans hf)
  done s h := by
    rcases Bool.or_eq_true_iff.mp (Bool.and_eq_true_iff.mp h).1 with hc | hf
    · exact .inl (hG.done _ hc)
    · exact .inr hf

/-! ## The family -/

namespace NpuCore

def Engaged : (b : BackendId) → BeState b → Prop
  | .conv => Mac.Engaged convFront
  | .gemm => Mac.Engaged gemmFront
  | .softmax => fun s ↦ ¬s.state = .idle
  | .vec => fun s ↦ ¬s.state = .idle
  | .lnorm => fun s ↦ ¬s.state = .idle
  | .pool => fun s ↦ ¬s.state = .idle

theorem engages : (b : BackendId) → (backend b).Engages (Free b) (Engaged b)
  | .conv => Mac.engages ConvFront.ends ConvFront.engages
  | .gemm => Mac.engages GemmFront.ends GemmFront.engages
  | .softmax => SoftmaxCtrl.engages
  | .vec => VecCtrl.engages
  | .lnorm => LnormCtrl.engages
  | .pool => PoolCtrl.engages

/-- Nothing of a backend that is through with its command is hidden from
`pipe_empty`. -/
def NothingHidden (x : NpuCore) : Prop := ∀ b, Free b (x.be b) → Drained b (x.be b)

/-- An output write is granted in this cycle. -/
def writes (x : NpuCore) (b : BackendId) : Bool := (x.beReq b).outWrReq && (x.rsp b).outWrGnt

variable {x : NpuCore}

theorem beBusy_of_engaged {b : BackendId} (h : Engaged b (x.be b)) : x.beBusy = true := by
  have hb : x.busy b = true := (engages b).busy _ h
  cases b <;> simp [beBusy, hb]

theorem Inv.handover (h : Inv x) (hn : x.NothingHidden) : x.Handover := by
  intro b hb c _
  apply hn
  apply h.free_of_issue
  intro hw
  rw [accepts_eq_false (by simp [hw])] at hb
  exact Bool.false_ne_true hb

/-- A backend between commands writes nothing. -/
theorem not_writes_of_free (hn : x.NothingHidden) {b : BackendId} (h : Free b (x.be b)) :
    x.writes b = false := by
  have hreq := (BeReq.raises_eq_false.mp ((shares b).drained_req _ h (hn b h))).2.2.1
  change ((x.beReq b).outWrReq && _) = false
  rw [show (x.beReq b).outWrReq = false from hreq, Bool.false_and]

end NpuCore

end LgNpu
