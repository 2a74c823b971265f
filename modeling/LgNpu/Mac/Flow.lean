import LgNpu.Mac.Run

/-!
# Flow on immediate grants

The loader is busy for three cycles at least, so on immediate grants results
and elements come far enough apart that no stage of the path ever waits,
whatever the front end offers: the loader is ready again and again.
-/

namespace LgNpu

namespace MacPath

/-- The tokens behind the loader are three stages apart, and every element has
its address in the queue. -/
structure Flowing (s : MacPath) : Prop where
  pe : s.pe.validR = true → s.loader.state = .idle ∧ s.ppTriggerR = false ∧
    s.postproc.bias.valid = false
  loaded : s.loader.state = .done → s.ppTriggerR = false
  trigger : s.ppTriggerR = true → s.postproc.bias.valid = false ∧ s.postproc.relu.valid = false
  bias : s.postproc.bias.valid = true → s.postproc.relu.valid = false ∧
    s.postproc.quant.valid = false
  relu : s.postproc.relu.valid = true → s.postproc.quant.valid = false ∧ s.writer.state ≠ .write
  quant : s.postproc.quant.valid = true → s.writer.state = .idle
  spare : s.wrAddrQ.skidValid = true → s.wrAddrQ.outValid = true
  count : s.wrAddrQ.count = s.postproc.quant.valid.toNat + s.postproc.relu.valid.toNat +
    s.postproc.bias.valid.toNat + s.ppTriggerR.toNat

theorem Quiet.flowing {s : MacPath} (h : s.Quiet) : s.Flowing where
  pe hv := absurd (h.pe.symm.trans hv) Bool.false_ne_true
  loaded _ := h.trigger
  trigger ht := absurd (h.trigger.symm.trans ht) Bool.false_ne_true
  bias hv := absurd (h.bias.symm.trans hv) Bool.false_ne_true
  relu hv := absurd (h.relu.symm.trans hv) Bool.false_ne_true
  quant _ := h.writer
  spare hv := absurd (h.spare.symm.trans hv) Bool.false_ne_true
  count := by simp [SkidBuffer.count, h.addr, h.spare, h.bias, h.relu, h.quant, h.trigger]

namespace Flowing

variable {s : MacPath} (h : s.Flowing)
include h

theorem ppOutReady (hq : s.postproc.quant.valid = true) : s.ppOutReady = true :=
  decide_eq_true (h.quant hq)

theorem quantReady : s.postproc.quantReady s.ppOutReady = true := by
  cases hq : s.postproc.quant.valid with
  | false => simp [Postproc.quantReady, PipelineReg.inReady, hq]
  | true => simp [Postproc.quantReady, PipelineReg.inReady, h.ppOutReady hq]

theorem reluReady : s.postproc.reluReady s.ppOutReady = true := by
  simp [Postproc.reluReady, PipelineReg.inReady, h.quantReady]

theorem ppInReady : s.ppInReady = true := by
  simp [MacPath.ppInReady, Postproc.inReady, PipelineReg.inReady, h.reluReady]

/-- A result finds at most one address in the queue. -/
theorem spare_of_pe (hv : s.pe.validR = true) : s.wrAddrQ.skidValid = false := by
  obtain ⟨-, htrigger, hbias⟩ := h.pe hv
  have hcount := h.count
  rw [htrigger, hbias] at hcount
  refine Bool.eq_false_iff.mpr fun hs ↦ ?_
  rw [SkidBuffer.count, hs, h.spare hs] at hcount
  cases hr : s.postproc.relu.valid with
  | false =>
      have hle := Bool.toNat_le s.postproc.quant.valid
      rw [hr] at hcount
      simp only [Bool.toNat_true, Bool.toNat_false] at hcount
      omega
  | true =>
      rw [hr, (h.relu hr).1] at hcount
      simp at hcount

theorem peReadyOut (hv : s.pe.validR = true) : s.peReadyOut = true := by
  simp [MacPath.peReadyOut, h.ppInReady, SkidBuffer.inReady, h.spare_of_pe hv]

theorem loadPairReady : s.loadPairReady = true := by
  cases hv : s.pe.validR with
  | false => simp [MacPath.loadPairReady, ConvPe.readyOut, hv]
  | true => simp [MacPath.loadPairReady, ConvPe.readyOut, h.peReadyOut hv]

theorem accEn_eq : s.accEn = s.pe.validR := by
  cases hv : s.pe.validR with
  | false => simp [MacPath.accEn, hv]
  | true => simp [MacPath.accEn, hv, h.peReadyOut hv]

/-- No result waits for a stage, so the clear of an element never meets the
result of the one before it. -/
theorem noClash : ¬(s.clr = true ∧ s.accEn = true) := by
  rintro ⟨hclr, hen⟩
  rw [h.accEn_eq] at hen
  simp [MacPath.clr, MacPath.peAccept, ConvLoader.pairValid, (h.pe hen).1] at hclr

/-- The address at the head of the queue belongs to the last stage. -/
theorem outValid (hq : s.postproc.quant.valid = true) : s.wrAddrQ.outValid = true := by
  have hcount := h.count
  by_contra hout
  have hspare : s.wrAddrQ.skidValid = false := Bool.eq_false_iff.mpr fun hs ↦ hout (h.spare hs)
  rw [SkidBuffer.count, hspare, Bool.eq_false_iff.mpr hout, hq] at hcount
  simp only [Bool.toNat_true, Bool.toNat_false] at hcount
  omega

end Flowing

end MacPath

/-! ## One edge -/

namespace MacPath.Flowing

variable {s : MacPath} (h : s.Flowing) (o : FrontOut) (rsp : BeRsp)
include h

/-! Every token moves on. -/

theorem pe_step : (s.step o rsp).pe.validR = s.loader.pairValid := by
  have hstep : (s.step o rsp).pe.validR =
      if s.loader.pairValid && s.loadPairReady then true
      else if s.accEn then false else s.pe.validR := rfl
  rw [hstep, h.loadPairReady, Bool.and_true, h.accEn_eq]
  cases s.loader.pairValid <;> cases s.pe.validR <;> rfl

theorem trigger_step : (s.step o rsp).ppTriggerR = (s.lastInnerD && s.pe.validR) := by
  have hstep : (s.step o rsp).ppTriggerR = (s.lastInnerD && s.pe.validR && s.peReadyOut) := rfl
  rw [hstep, Bool.and_assoc]
  exact congrArg _ h.accEn_eq

theorem bias_step : (s.step o rsp).postproc.bias.valid = s.ppTriggerR :=
  PipelineReg.valid_step_of_ready _ _ _ h.ppInReady

theorem relu_step : (s.step o rsp).postproc.relu.valid = s.postproc.bias.valid :=
  PipelineReg.valid_step_of_ready _ _ _ h.reluReady

theorem quant_step : (s.step o rsp).postproc.quant.valid = s.postproc.relu.valid :=
  PipelineReg.valid_step_of_ready _ _ _ h.quantReady

theorem writer_step (hout : rsp.outWrGnt = s.writer.memReq) : (s.step o rsp).writer.state =
    if s.postproc.quant.valid then .write else if s.writer.memReq then .ack else .idle := by
  cases hq : s.postproc.quant.valid with
  | true => simp [MacPath.step, ConvWriter.step, h.quant hq, h.outValid hq, hq]
  | false =>
      cases hs : s.writer.state <;>
        simp [MacPath.step, ConvWriter.step, ConvWriter.memReq, hs, hq, hout]

/-- The queue takes the address of a new element and lets that of the last
stage go. -/
theorem count_step : s.postproc.quant.valid.toNat + (s.step o rsp).wrAddrQ.count =
    s.wrAddrQ.count + (s.step o rsp).ppTriggerR.toNat := by
  have hmove : (s.wrAddrQ.outValid && (s.postproc.quant.valid && s.ppOutReady)).toNat +
      (s.step o rsp).wrAddrQ.count =
        s.wrAddrQ.count + (s.ppTrigger && s.wrAddrQ.inReady).toNat :=
    SkidBuffer.count_step h.spare _ _ _
  have hpop : (s.wrAddrQ.outValid && (s.postproc.quant.valid && s.ppOutReady)) =
      s.postproc.quant.valid := by
    cases hq : s.postproc.quant.valid with
    | false => simp
    | true => rw [h.outValid hq, h.ppOutReady hq, Bool.and_self, Bool.and_self]
  have hpush : (s.ppTrigger && s.wrAddrQ.inReady) = (s.step o rsp).ppTriggerR := by
    cases ht : s.ppTrigger with
    | false => exact ht.symm
    | true =>
        have hv : s.pe.validR = true :=
          (Bool.and_eq_true_iff.mp (Bool.and_eq_true_iff.mp ht).1).2
        rw [SkidBuffer.inReady, h.spare_of_pe hv]
        exact ht.symm
  rw [hpop, hpush] at hmove
  exact hmove

variable {o rsp}

theorem step (hout : rsp.outWrGnt = s.writer.memReq) : (s.step o rsp).Flowing := by
  have hpe := h.pe_step o rsp
  have htrigger := h.trigger_step o rsp
  have hbias := h.bias_step o rsp
  have hrelu := h.relu_step o rsp
  have hquant := h.quant_step o rsp
  have hwriter := h.writer_step o rsp hout
  have hloader : s.loader.pairValid = true → (s.step o rsp).loader.state = .idle := by
    intro hp
    have hs : s.loader.state = .done := of_decide_eq_true hp
    have hready := h.loadPairReady
    simp [MacPath.step, ConvLoader.step, ConvLoader.stateNext, hs, hready]
  have hdone : (s.step o rsp).loader.state = .done → s.loader.state ≠ .idle := by
    intro hd hs
    have hnext : (s.step o rsp).loader.state = if o.addrGenValid then .req else .idle := by
      simp [MacPath.step, ConvLoader.step, ConvLoader.stateNext, hs]
    rw [hnext] at hd
    split at hd <;> simp at hd
  refine ⟨fun hv ↦ ?_, fun hd ↦ ?_, fun ht ↦ ?_, fun hv ↦ ?_, fun hv ↦ ?_, fun hv ↦ ?_,
    SkidBuffer.spare_step h.spare _ _ _, ?_⟩
  · rw [hpe] at hv
    have hs : s.loader.state = .done := of_decide_eq_true hv
    have hnone : s.pe.validR = false := Bool.eq_false_iff.mpr fun hv' ↦
      absurd (hs.symm.trans (h.pe hv').1) (by simp)
    rw [htrigger, hbias, hnone, Bool.and_false]
    exact ⟨hloader hv, rfl, h.loaded hs⟩
  · have hnone : s.pe.validR = false := Bool.eq_false_iff.mpr fun hv ↦ hdone hd (h.pe hv).1
    rw [htrigger, hnone, Bool.and_false]
  · rw [htrigger] at ht
    obtain ⟨-, ht', hb⟩ := h.pe (Bool.and_eq_true_iff.mp ht).2
    rw [hbias, hrelu]
    exact ⟨ht', hb⟩
  · rw [hrelu, hquant]
    exact h.trigger (hbias.symm.trans hv)
  · obtain ⟨hr, hq⟩ := h.bias (hrelu.symm.trans hv)
    rw [hquant, hwriter, hq]
    refine ⟨hr, ?_⟩
    cases s.writer.memReq <;> simp
  · obtain ⟨hq, hw⟩ := h.relu (hquant.symm.trans hv)
    simp [hwriter, hq, ConvWriter.memReq, hw]
  · have hcount := h.count
    have hmove := h.count_step o rsp
    rw [hquant, hrelu, hbias]
    omega

end MacPath.Flowing

/-! ## The loader -/

namespace Mac

variable {F Cmd : Type} {fe : MacFront F Cmd} {cmd : Cmd} {v : Bool} {x : Sys (Mac F)}

/-- A flowing path whose loader waits for nothing but answers on the wires. -/
structure Flows (x : Sys (Mac F)) : Prop where
  path : x.be.path.Flowing
  calm : x.mem.biasPendingR = false
  got : x.be.path.loader.state = .wait →
    (x.be.path.loader.actLatched = true ∨ x.mem.actBuf.beRdAcceptR = true) ∧
      (x.be.path.loader.wtLatched = true ∨ x.mem.wtRvalid = true)

theorem Quiet.flows {Rest : F → Prop} (h : Mac.Quiet Rest x) : Flows x where
  path := h.path.flowing
  calm := h.calm
  got hs := absurd (h.path.loader.symm.trans hs) (by simp)

namespace Flows

variable (h : Flows x)
include h

theorem stateNext_eq : (x.step (macBackend fe) cmd v .all).be.path.loader.state =
    x.be.path.loader.stateNext (fe.out x.be.front).addrGenValid x.be.path.loader.actMemReq
      x.be.path.loader.wtMemReq true := by
  have hstep : (x.step (macBackend fe) cmd v .all).be.path.loader.state =
      x.be.path.loader.stateNext (fe.out x.be.front).addrGenValid
        (rspOf fe .all x).actRdGnt (rspOf fe .all x).wtRdGnt x.be.path.loadPairReady := rfl
  rw [hstep, h.path.loadPairReady, rsp_act, rsp_wt h.calm]
  exact congrArg₂ (x.be.path.loader.stateNext _ · · true) (Bool.and_true _) (Bool.and_true _)

/-- A loader that waits latches what has arrived. -/
theorem latched_of_wait (hs : x.be.path.loader.state = .wait) :
    (x.step (macBackend fe) cmd v .all).be.path.loader.actLatched = true ∧
      (x.step (macBackend fe) cmd v .all).be.path.loader.wtLatched = true := by
  obtain ⟨hact, hwt⟩ := h.got hs
  have hlatch : ∀ {a b : Bool}, a = true ∨ b = true → (if b && !a then true else a) = true := by
    decide
  rw [loader_step fe cmd v .all (.inr hs)]
  exact ⟨hlatch hact, hlatch hwt⟩

/-- Padding is done at once, and other operands are granted at once. -/
theorem state_of_req (hs : x.be.path.loader.state = .req) :
    (x.step (macBackend fe) cmd v .all).be.path.loader.state =
      if x.be.path.loader.isZeroPadR then .done else .wait := by
  rw [h.stateNext_eq]
  cases hz : x.be.path.loader.isZeroPadR <;>
    simp [ConvLoader.stateNext, ConvLoader.actMemReq, ConvLoader.wtMemReq, hs, hz]

theorem state_of_wait (hs : x.be.path.loader.state = .wait) :
    (x.step (macBackend fe) cmd v .all).be.path.loader.state =
      if x.be.path.loader.actLatched && x.be.path.loader.wtLatched then .done else .wait := by
  rw [h.stateNext_eq]
  simp [ConvLoader.stateNext, hs]

theorem state_of_done (hs : x.be.path.loader.state = .done) :
    (x.step (macBackend fe) cmd v .all).be.path.loader.state = .idle := by
  rw [h.stateNext_eq]
  simp [ConvLoader.stateNext, hs]

theorem step (fe : MacFront F Cmd) (cmd : Cmd) (v : Bool) :
    Flows (x.step (macBackend fe) cmd v .all) := by
  refine ⟨h.path.step (Bool.and_true _), NpuMemTop.biasPendingR_step h.calm one_reader,
    fun hs' ↦ ?_⟩
  cases hs : x.be.path.loader.state with
  | idle =>
      rw [h.stateNext_eq] at hs'
      cases hv : (fe.out x.be.front).addrGenValid <;> simp [ConvLoader.stateNext, hs, hv] at hs'
  | req =>
      rw [h.state_of_req hs] at hs'
      have hz : x.be.path.loader.isZeroPadR = false := by
        by_contra hz
        simp [hz] at hs'
      have hact : (x.step (macBackend fe) cmd v .all).mem.actBuf.beRdAcceptR =
          (x.be.path.loader.actMemReq && true) := rfl
      have hwt : (x.step (macBackend fe) cmd v .all).mem.wtRvalid =
          (x.be.path.loader.wtMemReq && true) := NpuMemTop.wtRvalid_step h.calm one_reader
      rw [hact, hwt, loader_step fe cmd v .all (.inl hs)]
      cases hla : x.be.path.loader.actLatched <;> cases hlw : x.be.path.loader.wtLatched <;>
        simp [ConvLoader.actMemReq, ConvLoader.wtMemReq, hs, hz, hla, hlw]
  | wait =>
      obtain ⟨hact, hwt⟩ := @latched_of_wait F Cmd fe cmd v x h hs
      exact ⟨.inl hact, .inl hwt⟩
  | done => exact absurd (hs'.symm.trans (h.state_of_done hs)) (by simp)

end Flows

/-! ## The run -/

variable {Rest : F → Prop}

theorem Quiet.flows_run (h : Mac.Quiet Rest x) (t : ℕ) :
    Flows ((macBackend fe).run cmd (fun _ ↦ .all) x t) := by
  induction t with
  | zero => exact h.flows
  | succ t ih => exact ih.step fe cmd _

/-- Whatever the front end does, the loader is ready again and again. -/
theorem Quiet.exists_loadReady (h : Mac.Quiet Rest x) (t : ℕ) : ∃ u, t ≤ u ∧
    ((macBackend fe).run cmd (fun _ ↦ .all) x u).be.path.loader.loadReady = true := by
  set y := (macBackend fe).run cmd (fun _ ↦ .all) x with hy
  have hflows : ∀ u, Flows (y u) := fun u ↦ h.flows_run u
  have hdone : ∀ u, (y u).be.path.loader.state = .done →
      (y (u + 1)).be.path.loader.loadReady = true := fun u hs ↦
    decide_eq_true ((hflows u).state_of_done hs)
  have hwait : ∀ u, (y u).be.path.loader.state = .wait → ∃ n, u ≤ n ∧
      (y n).be.path.loader.loadReady = true := by
    intro u hs
    have hlatched : ∀ n, (y n).be.path.loader.state = .wait →
        (y n).be.path.loader.actLatched = true → (y n).be.path.loader.wtLatched = true →
          (y (n + 2)).be.path.loader.loadReady = true := fun n hn hact hwt ↦
      hdone _ (((hflows n).state_of_wait hn).trans (by simp [hact, hwt]))
    have hnext : (y (u + 1)).be.path.loader.state = _ := (hflows u).state_of_wait hs
    split at hnext
    · exact ⟨u + 2, by omega, hdone _ hnext⟩
    · obtain ⟨hact, hwt⟩ := (hflows u).latched_of_wait hs
      exact ⟨u + 3, by omega, hlatched (u + 1) hnext hact hwt⟩
  cases hs : (y t).be.path.loader.state with
  | idle => exact ⟨t, le_rfl, decide_eq_true hs⟩
  | req =>
      have hnext : (y (t + 1)).be.path.loader.state = _ := (hflows t).state_of_req hs
      split at hnext
      · exact ⟨t + 2, by omega, hdone _ hnext⟩
      · obtain ⟨n, hn, hready⟩ := hwait _ hnext
        exact ⟨n, by omega, hready⟩
  | wait => exact hwait t hs
  | done => exact ⟨t + 1, by omega, hdone t hs⟩

end Mac

end LgNpu
