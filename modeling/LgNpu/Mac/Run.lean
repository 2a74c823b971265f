import LgNpu.Mac.Inv

/-!
# Runs of the multiply-accumulate path

A command accepted by a quiet backend starts a `track`; the invariant holds
along it while the cycles are smooth.
-/

namespace LgNpu

open Mac

/-- Nothing is left in the datapath; data registers are arbitrary. -/
structure MacPath.Quiet (s : MacPath) : Prop where
  loader : s.loader.state = .idle
  pe : s.pe.validR = false
  trigger : s.ppTriggerR = false
  bias : s.postproc.bias.valid = false
  relu : s.postproc.relu.valid = false
  quant : s.postproc.quant.valid = false
  addr : s.wrAddrQ.outValid = false
  spare : s.wrAddrQ.skidValid = false
  writer : s.writer.state = .idle
  finished : s.ctrlFinished = false

/-- The ports are done with the elements so far; a last write may be in its
acknowledge cycle. -/
def MacPath.drained (s : MacPath) : Bool :=
  s.loader.state = .idle && !s.pe.validR && !s.ppTriggerR && !s.postproc.bias.valid &&
    !s.postproc.relu.valid && !s.postproc.quant.valid && !s.wrAddrQ.outValid &&
    !s.wrAddrQ.skidValid && s.writer.state ≠ .write

/-- A backend ready for a command, with no bias read deferred. -/
structure Mac.Quiet {F : Type} (Rest : F → Prop) (x : Sys (Mac F)) : Prop where
  front : Rest x.be.front
  path : x.be.path.Quiet
  calm : x.mem.biasPendingR = false

theorem MacPath.quiet_reset : MacPath.reset.Quiet :=
  ⟨rfl, rfl, rfl, rfl, rfl, rfl, rfl, rfl, rfl, rfl⟩

/-- No output write is pending in a quiet datapath. -/
theorem MacPath.Quiet.atTrigger {s : MacPath} (h : s.Quiet) (n : ℕ) : s.atTrigger n = n := by
  simp [MacPath.atTrigger, MacPath.atBias, MacPath.atRelu, MacPath.atQuant, ConvWriter.pending,
    h.bias, h.relu, h.quant, h.writer]

section

variable {F Cmd : Type} (fe : MacFront F Cmd) (cmd : Cmd) (c : MacJob) (lat : ℕ)

def Track.step (g : Grants) (k : Track F) : Track F where
  feed := k.feed.step c.total lat k.path.loader.loadReady
  taken := k.taken + k.path.peAccept.toNat
  emitted := k.emitted + k.path.accEn.toNat
  sys := k.sys.step (macBackend fe) cmd false g

/-- The run of `cmd`, from the cycle after it was accepted. -/
def track (gs : ℕ → Grants) (x : Sys (Mac F)) : ℕ → Track F :=
  Clocked.run (fun t ↦ Track.step fe cmd c lat (gs (t + 1)))
    ⟨.cfg, 0, 0, x.step (macBackend fe) cmd true (gs 0)⟩

variable {fe cmd c lat} {gs : ℕ → Grants} {x : Sys (Mac F)}

theorem track_succ (t : ℕ) : track fe cmd c lat gs x (t + 1) =
    (track fe cmd c lat gs x t).step fe cmd c lat (gs (t + 1)) := rfl

theorem track_sys (t : ℕ) :
    (track fe cmd c lat gs x t).sys = (macBackend fe).run cmd gs x (t + 1) := by
  induction t with
  | zero => rfl
  | succ t ih => rw [track_succ, Track.step, ih, run_succ_succ]

theorem run_eq_track (c : MacJob) (lat t : ℕ) :
    (macBackend fe).run cmd gs x (t + 1) = (track fe cmd c lat gs x t).sys :=
  (track_sys t).symm

/-! ## Accepting a command -/

/-- From a drained datapath only the acknowledge cycle of the last write is
left. -/
theorem MacPath.quiet_of_drained {s : MacPath} (h : s.drained = true) (hf : s.ctrlFinished = false)
    {o : FrontOut} (hv : o.addrGenValid = false) (hd : o.ctrlDone = false) (rsp : BeRsp) :
    (s.step o rsp).Quiet := by
  simp only [MacPath.drained, Bool.and_eq_true, decide_eq_true_eq, Bool.not_eq_true'] at h
  obtain ⟨⟨⟨⟨⟨⟨⟨⟨hload, hpe⟩, htrig⟩, hbias⟩, hrelu⟩, hquant⟩, haddr⟩, hspare⟩, hwr⟩ := h
  have hacc : s.peAccept = false := by simp [MacPath.peAccept, ConvLoader.pairValid, hload]
  have hdone : s.done o = false := by simp [MacPath.done, hd, hf]
  have hen : s.accEn = false := by simp [MacPath.accEn, hpe]
  refine ⟨?_, ?_, ?_, ?_, ?_, ?_, ?_, ?_, ?_, ?_⟩
  · simp [MacPath.step, ConvLoader.step, ConvLoader.stateNext, hload, hv]
  · simp [MacPath.step, ConvPe.step, ConvLoader.pairValid, hload, hpe]
  · simp [MacPath.step, MacPath.ppTrigger, hpe]
  · simp [MacPath.step, Postproc.step, PipelineReg.step, htrig, hbias]
  · simp [MacPath.step, Postproc.step, PipelineReg.step, hbias, hrelu]
  · simp [MacPath.step, Postproc.step, PipelineReg.step, hrelu, hquant]
  · simp [MacPath.step, SkidBuffer.step, MacPath.ppTrigger, hpe, haddr, hspare]
  · simp [MacPath.step, SkidBuffer.step, MacPath.ppTrigger, hpe, haddr, hspare]
  · cases hs : s.writer.state with
    | idle => simp [MacPath.step, ConvWriter.step, hs, hquant]
    | write => exact absurd hs hwr
    | ack => simp [MacPath.step, ConvWriter.step, hs]
  · simp [MacPath.step, hdone, hd, hf]

theorem MacPath.Quiet.drained {s : MacPath} (h : s.Quiet) : s.drained = true := by
  simp [MacPath.drained, h.loader, h.pe, h.trigger, h.bias, h.relu, h.quant, h.addr, h.spare,
    h.writer]

/-- Nothing moves in the datapath while the command is taken. -/
theorem MacPath.Quiet.step {s : MacPath} (h : s.Quiet) {o : FrontOut}
    (hv : o.addrGenValid = false) (hd : o.ctrlDone = false) (rsp : BeRsp) :
    (s.step o rsp).Quiet :=
  MacPath.quiet_of_drained h.drained h.finished hv hd rsp

variable {Rest : F → Prop} {At : Feed → F → Prop}

theorem Mac.Quiet.loader_idle (h : Mac.Quiet Rest x) :
    x.be.path.loader.actMemReq = false ∧ x.be.path.loader.wtMemReq = false := by
  simp [ConvLoader.actMemReq, ConvLoader.wtMemReq, h.path.loader]

theorem MacInv.accept (hF : Feeds fe cmd c lat Rest At) (h : Mac.Quiet Rest x) (hlog : x.log = [])
    (D : Prop) (rd : ℕ → Byte) (g : Grants) : MacInv D c At rd x.mem.wt
      (⟨.cfg, 0, 0, x.step (macBackend fe) cmd true g⟩ : Track F) := by
  have hq : (x.step (macBackend fe) cmd true g).be.path.Quiet :=
    h.path.step (hF.rest_valid _ h.front) (hF.rest_done _ h.front) _
  have hwr : x.be.path.writer.memReq = false := by simp [ConvWriter.memReq, h.path.writer]
  have hlog' : (x.step (macBackend fe) cmd true g).log = [] := by rw [log_step, hlog, hwr]; rfl
  obtain ⟨hact, hwt⟩ := h.loader_idle
  refine ⟨hF.accept _ _ h.front, trivial, ?_, ?_, ?_, fun _ ↦ ?_, ?_, ?_, ?_⟩
  · exact NpuMemTop.wt_step _ _
  · exact NpuMemTop.biasPendingR_step h.calm one_reader
  · change (x.step (macBackend fe) cmd true g).log.map _ =
      (List.range (x.step (macBackend fe) cmd true g).log.length).map _
    rw [hlog']
    rfl
  · change (x.step (macBackend fe) cmd true g).log =
      c.writesUpTo _ _ (x.step (macBackend fe) cmd true g).log.length
    rw [hlog']
    rfl
  · refine .idle hq.loader rfl ?_ ((NpuMemTop.wtRvalid_step h.calm one_reader).trans ?_)
    · change (x.be.path.loader.actMemReq && g.act) = false
      rw [hact, Bool.false_and]
    · change (x.be.path.loader.wtMemReq && g.wt) = false
      rw [hwt, Bool.false_and]
  · refine .empty hq.pe rfl (fun _ hpos ↦ absurd hpos (lt_irrefl 0))
      ((NpuMemTop.biasRvalid_step h.calm one_reader).trans ?_)
    change (x.be.path.lastInnerLoadR && x.be.path.peAccept) = false
    simp [MacPath.peAccept, ConvLoader.pairValid, h.path.loader]
  · change PostHolds D c _ _ 0 (x.step (macBackend fe) cmd true g).log.length _
    rw [hlog']
    refine ⟨fun hv ↦ ?_, fun _ hv ↦ ?_, fun _ hv ↦ ?_, fun _ hv ↦ ?_, fun _ hv ↦ ?_, ⟨fun hv ↦ ?_,
      fun hv ↦ ?_⟩, ?_, fun hv ↦ ?_, ?_⟩
    · exact absurd (hq.writer.symm.trans hv) (by simp)
    · exact absurd (hq.writer.symm.trans hv) (by simp)
    · exact absurd (hq.quant.symm.trans hv) Bool.false_ne_true
    · exact absurd (hq.relu.symm.trans hv) Bool.false_ne_true
    · exact absurd (hq.bias.symm.trans hv) Bool.false_ne_true
    · exact absurd (hq.addr.symm.trans hv) Bool.false_ne_true
    · exact absurd (hq.spare.symm.trans hv) Bool.false_ne_true
    · simp only [Track.path, SkidBuffer.count, hq.addr, hq.spare, hq.quant, hq.relu, hq.bias,
        hq.trigger]
      rfl
    · exact absurd (hq.trigger.symm.trans hv) Bool.false_ne_true
    · simp [Track.path, hq.atTrigger, hq.trigger]

/-! ## One cycle -/

variable {D : Prop} {rd : ℕ → Byte} {w : BitVec 12 → Byte} {g : Grants} {k : Track F}

/-- A granted write is the next one of the job. -/
theorem MacInv.log_succ (h : MacInv D c At rd w k) :
    (k.step fe cmd c lat g).sys.log.map Prod.fst =
        (List.range (k.step fe cmd c lat g).sys.log.length).map c.wrAddr ∧
      (D → (k.step fe cmd c lat g).sys.log =
        c.writesUpTo rd w (k.step fe cmd c lat g).sys.log.length) := by
  have hlog : (k.step fe cmd c lat g).sys.log = k.sys.log ++
      if k.path.writer.memReq && g.out then [(k.path.writer.addrR, k.path.writer.dataR)] else [] :=
    rfl
  rw [hlog]
  split
  · next hw =>
      have hs : k.path.writer.state = .write :=
        of_decide_eq_true (Bool.and_eq_true_iff.mp hw).1
      refine ⟨?_, fun hD ↦ ?_⟩
      · rw [List.map_append, h.addrs, List.length_append, List.length_singleton, List.range_succ,
          List.map_append, List.map_singleton, List.map_singleton, h.post.writer hs]
      · rw [List.length_append, List.length_singleton, MacJob.writesUpTo_succ, ← h.log hD,
          h.post.writer hs, h.post.data hD hs]
  · rw [List.append_nil]
    exact ⟨h.addrs, h.log⟩

theorem MacInv.length_step (k : Track F) : (k.step fe cmd c lat g).sys.log.length =
    k.sys.log.length + (k.path.writer.memReq && g.out).toNat := by
  change (k.sys.step (macBackend fe) cmd false g).log.length = _
  rw [log_step, List.length_append]
  change _ + (if k.path.writer.memReq && g.out then
    [(k.path.writer.addrR, k.path.writer.dataR)] else []).length = _
  cases k.path.writer.memReq && g.out <;> rfl

theorem MacInv.step (hF : Feeds fe cmd c lat Rest At) (hc : c.Positive)
    (h : MacInv D c At rd w k) (hsm : Smooth g k.sys D (rd k.taken)) :
    MacInv D c At rd w (k.step fe cmd c lat g) := by
  have hvalid := hF.valid _ _ h.front
  have hpos : 0 < c.total := Nat.mul_pos hc.outs hc.its
  have hhanded := Feed.handed_step lat h.within k.path.loader.loadReady
  have hoff : (fe.out k.sys.be.front).addrGenValid = true →
      c.Offers (k.feed.handed c.total) (fe.out k.sys.be.front) := by
    intro hv
    rw [hvalid] at hv
    have hat := h.front
    cases hf : k.feed with
    | computing i j =>
        cases j with
        | zero =>
            rw [hf] at hat
            exact hF.offers _ _ hat
        | succ j => simp [hf, Feed.valid] at hv
    | cfg => simp [hf, Feed.valid] at hv
    | free i => simp [hf, Feed.valid] at hv
    | drain => simp [hf, Feed.valid] at hv
    | done => simp [hf, Feed.valid] at hv
    | idle => simp [hf, Feed.valid] at hv
  have hloader := h.loader.step fe cmd false hoff h.wt h.calm hsm
  rw [hvalid] at hloader
  have hpost := PostHolds.step cmd false h.loader h.pe h.post hc hsm
    (hF.quantShift _ _ h.front) (hF.actMode _ _ h.front)
  refine ⟨hF.step _ _ _ h.within h.front, h.within.step hpos _, (NpuMemTop.wt_step _ _).trans h.wt,
    NpuMemTop.biasPendingR_step h.calm one_reader, h.log_succ.1, h.log_succ.2, ?_,
    PeHolds.step fe cmd false h.loader h.pe h.wt h.calm hsm, ?_⟩
  · change LoaderHolds D c rd w
      ((k.feed.step c.total lat k.path.loader.loadReady).handed c.total) _ _ _
    rw [hhanded]
    exact hloader
  · rw [MacInv.length_step]
    exact hpost

/-- The invariant along a run, while its cycles are smooth. -/
theorem MacInv.track (hF : Feeds fe cmd c lat Rest At) (hc : c.Positive) (h : Mac.Quiet Rest x)
    (hlog : x.log = []) (D : Prop) (rd : ℕ → Byte) (t : ℕ)
    (hsm : ∀ u < t, Smooth (gs (u + 1)) (track fe cmd c lat gs x u).sys D
      (rd (track fe cmd c lat gs x u).taken)) :
    MacInv D c At rd x.mem.wt (LgNpu.track fe cmd c lat gs x t) := by
  induction t with
  | zero => exact MacInv.accept hF h hlog D rd _
  | succ t ih =>
      exact (ih fun u hu ↦ hsm u (Nat.lt_succ_of_lt hu)).step hF hc (hsm t (Nat.lt_succ_self t))

/-! ## What the counters bound -/

namespace MacInv

variable (h : MacInv D c At rd w k)
include h

theorem emitted_le_taken : k.emitted ≤ k.taken := by
  cases h.pe with
  | empty _ hr => exact hr.le
  | full _ hr => omega

theorem taken_le_total : k.taken ≤ c.total := by
  have hhanded := Feed.handed_le h.within
  cases h.loader with
  | idle _ hp => omega
  | req _ hp => omega
  | wait _ hp => omega
  | done _ hp => omega

theorem length_le : k.sys.log.length ≤ c.outs := by
  have hfired := h.post.fired
  have hle : k.emitted / c.its ≤ c.outs :=
    Nat.div_le_of_le_mul (by
      rw [Nat.mul_comm]
      exact h.emitted_le_taken.trans h.taken_le_total)
  have hmono : k.sys.log.length ≤ k.path.atTrigger k.sys.log.length := by
    simp only [MacPath.atTrigger, MacPath.atBias, MacPath.atRelu, MacPath.atQuant]
    omega
  omega

/-- Only writes of the job are granted, in order. -/
theorem log_isPrefix (hD : D) : k.sys.log <+: c.writes rd w := by
  rw [h.log hD]
  exact c.writesUpTo_isPrefix rd w h.length_le

theorem log_eq (hD : D) (hlen : k.sys.log.length = c.outs) : k.sys.log = c.writes rd w := by
  rw [h.log hD, hlen]
  rfl

end MacInv

end

end LgNpu
