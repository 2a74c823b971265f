import LgNpu.Core.Exclusion
import LgNpu.Host.FrontEnd
import LgNpu.Lnorm.Correct
import LgNpu.Mac.Ending
import LgNpu.Pool.Finish
import LgNpu.Softmax.Correct
import LgNpu.Vec.Correct

/-!
# Commands that end

A command dispatched in a settled core runs as on its backend alone, and comes
back to the scheduler exactly when that run comes to its done pulse.  Decoding
looks at the opcode only, so a descriptor may well ask for an empty loop, which
never ends.
-/

namespace LgNpu

/-! ## Responses that say nothing -/

def BeRsp.raises (r : BeRsp) : Bool :=
  r.actRdGnt || r.actRdRvalid || r.wtRdGnt || r.wtRdRvalid || r.outWrGnt || r.biasRdGnt ||
    r.biasRdRvalid

theorem BeRsp.raises_eq_false {r : BeRsp} : r.raises = false ↔
    r.actRdGnt = false ∧ r.actRdRvalid = false ∧ r.wtRdGnt = false ∧ r.wtRdRvalid = false ∧
      r.outWrGnt = false ∧ r.biasRdGnt = false ∧ r.biasRdRvalid = false := by
  simp only [raises, Bool.or_eq_false_iff, and_assoc]

/-- Data without a valid flag is not looked at. -/
theorem MacPath.step_of_not_raises {r : BeRsp} (h : r.raises = false) (s : MacPath) (o : FrontOut) :
    s.step o r = s.step o .none := by
  obtain ⟨h1, h2, h3, h4, h5, -, h7⟩ := BeRsp.raises_eq_false.mp h
  simp [step, ConvLoader.step, BeRsp.none, h1, h2, h3, h4, h5, h7]

/-! ## The acknowledge cycle -/

/-- The writer past its acknowledge cycle. -/
def MacPath.rested (s : MacPath) : MacPath := { s with writer := { s.writer with state := .idle } }

theorem MacPath.rested_of_idle {s : MacPath} (h : s.writer.state = .idle) : s.rested = s := by
  rw [rested, ← h]

/-- In an empty datapath the acknowledge cycle makes no difference. -/
theorem MacPath.step_rested {s : MacPath} (h : s.drained = true) (hf : s.ctrlFinished = false)
    {o : FrontOut} (hd : o.ctrlDone = false) (rsp : BeRsp) : s.rested.step o rsp = s.step o rsp := by
  simp only [MacPath.drained, Bool.and_eq_true, decide_eq_true_eq, Bool.not_eq_true'] at h
  obtain ⟨⟨⟨⟨⟨⟨⟨⟨hload, hpe⟩, htrig⟩, hbias⟩, hrelu⟩, hquant⟩, haddr⟩, hspare⟩, hwr⟩ := h
  cases hs : s.writer.state with
  | idle => rw [rested_of_idle hs]
  | write => exact absurd hs hwr
  | ack =>
      have hpair : s.loader.pairValid = false := by simp [ConvLoader.pairValid, hload]
      simp [MacPath.step, rested, loadPairReady, peAccept, clr, accEn, peReadyOut, ppInReady,
        ppOutReady, ppTrigger, Postproc.step, Postproc.inReady, PipelineReg.inReady,
        PipelineReg.step, ConvPe.step, ConvPe.readyOut, loadAccept, done, ConvWriter.step, hpair,
        hpe, htrig, hbias, hrelu, hquant, hf, hd, hs]

theorem MacPath.quiet_rested {s : MacPath} (h : s.drained = true) (hf : s.ctrlFinished = false) :
    s.rested.Quiet := by
  simp only [MacPath.drained, Bool.and_eq_true, decide_eq_true_eq, Bool.not_eq_true'] at h
  obtain ⟨⟨⟨⟨⟨⟨⟨⟨hload, hpe⟩, htrig⟩, hbias⟩, hrelu⟩, hquant⟩, haddr⟩, hspare⟩, -⟩ := h
  exact ⟨hload, hpe, htrig, hbias, hrelu, hquant, haddr, hspare, rfl, hf⟩

/-! ## The command port -/

theorem ConvFront.step_port (f : ConvFront) (cmd cmd' : ConvCmd) (ready : Bool) :
    f.step cmd false ready = f.step cmd' false ready := by
  simp [step, ConvCtrl.step]

theorem GemmFront.step_port (f : GemmFront) (cmd cmd' : GemmCmd) (ready : Bool) :
    f.step cmd false ready = f.step cmd' false ready := by
  simp [step, GemmCtrl.step]

theorem SoftmaxCtrl.step_port {s : SoftmaxCtrl} (hs : s.state = .idle) (cmd cmd' : SoftmaxCmd)
    (rsp : BeRsp) : s.step cmd false rsp = s.step cmd' false rsp := by
  simp [step, hs]

theorem VecCtrl.step_port {s : VecCtrl} (hs : s.state = .idle) (cmd cmd' : VecCmd) (rsp : BeRsp) :
    s.step cmd false rsp = s.step cmd' false rsp := by
  simp [step, accept, hs]

theorem LnormCtrl.step_port {s : LnormCtrl} (hs : s.state = .idle) (cmd cmd' : LnormCmd)
    (rsp : BeRsp) : s.step cmd false rsp = s.step cmd' false rsp := by
  simp [step, hs]

theorem PoolCtrl.step_port {s : PoolCtrl} (hs : s.state = .idle) (cmd cmd' : PoolCmd)
    (rsp : BeRsp) : s.step cmd false rsp = s.step cmd' false rsp := by
  simp [step, accept, hs]

namespace NpuCore

/-- A free backend does not look at the command port until a command is
offered; `lnorm` still does in the cycle after it took one. -/
theorem step_port {b : BackendId} {s : BeState b} (hf : Free b s) (cmd cmd' : BeCmd b)
    (rsp : BeRsp) : (backend b).step s cmd false rsp = (backend b).step s cmd' false rsp := by
  cases b with
  | conv => exact congrArg (fun f ↦ Mac.mk f _) (ConvFront.step_port _ cmd cmd' _)
  | gemm => exact congrArg (fun f ↦ Mac.mk f _) (GemmFront.step_port _ cmd cmd' _)
  | softmax => exact SoftmaxCtrl.step_port hf cmd cmd' rsp
  | vec => exact VecCtrl.step_port hf cmd cmd' rsp
  | lnorm => exact LnormCtrl.step_port hf cmd cmd' rsp
  | pool => exact PoolCtrl.step_port hf cmd cmd' rsp

/-- A backend past the acknowledge cycle of its last write. -/
def rested : (b : BackendId) → BeState b → BeState b
  | .conv, s => ⟨Mac.front s, (Mac.path s).rested⟩
  | .gemm, s => ⟨Mac.front s, (Mac.path s).rested⟩
  | .softmax, s => s
  | .vec, s => s
  | .lnorm, s => s
  | .pool, s => s

theorem silent_rested {b : BackendId} {s : BeState b} (hf : Free b s) (hd : Drained b s) :
    Silent b (rested b s) := by
  cases b with
  | conv => exact ⟨hf.front, MacPath.quiet_rested hd hf.finished⟩
  | gemm => exact ⟨hf.front, MacPath.quiet_rested hd hf.finished⟩
  | softmax => exact hf
  | vec => exact hf
  | lnorm => exact hf
  | pool => exact hf

theorem rested_of_silent {b : BackendId} {s : BeState b} (h : Silent b s) : rested b s = s := by
  cases b with
  | conv => exact congrArg (Mac.mk _) (MacPath.rested_of_idle h.path.writer)
  | gemm => exact congrArg (Mac.mk _) (MacPath.rested_of_idle h.path.writer)
  | softmax => rfl
  | vec => rfl
  | lnorm => rfl
  | pool => rfl

theorem step_rested {b : BackendId} {s : BeState b} (hf : Free b s) (hd : Drained b s)
    (cmd : BeCmd b) (v : Bool) (rsp : BeRsp) :
    (backend b).step (rested b s) cmd v rsp = (backend b).step s cmd v rsp := by
  cases b with
  | conv =>
      exact congrArg (Mac.mk _)
        (MacPath.step_rested hd hf.finished (ConvFront.ends.rest_done _ hf.front) rsp)
  | gemm =>
      exact congrArg (Mac.mk _)
        (MacPath.step_rested hd hf.finished (GemmFront.ends.rest_done _ hf.front) rsp)
  | softmax => rfl
  | vec => rfl
  | lnorm => rfl
  | pool => rfl

/-! ## The core between commands -/

/-- What a backend takes a command from does not depend on the wires. -/
theorem accept_of_not_raises {r : BeRsp} (h : r.raises = false) (b : BackendId) {s : BeState b}
    (hs : Silent b s) (cmd : BeCmd b) :
    (backend b).step s cmd true r = (backend b).step s cmd true .none := by
  cases b with
  | conv => exact congrArg (Mac.mk _) (s.path.step_of_not_raises h _)
  | gemm => exact congrArg (Mac.mk _) (s.path.step_of_not_raises h _)
  | softmax => exact (SoftmaxCtrl.step_accept hs).trans (SoftmaxCtrl.step_accept hs).symm
  | vec => exact (VecCtrl.step_accept hs).trans (VecCtrl.step_accept hs).symm
  | lnorm => exact (LnormCtrl.step_accept hs).trans (LnormCtrl.step_accept hs).symm
  | pool => exact (PoolCtrl.step_accept hs).trans (PoolCtrl.step_accept hs).symm

/-- Every backend is between commands with the ports done, and no answer is on
the wires. -/
structure Vacant (x : NpuCore) : Prop where
  free : ∀ b, Free b (x.be b)
  drained : ∀ b, Drained b (x.be b)
  act : x.mem.actBuf.beRdAcceptR = false
  wt : x.mem.wtRvalid = false
  bias : x.mem.biasRvalid = false
  calm : x.mem.biasPendingR = false

/-- Nothing is left of earlier commands, and no answer is on the wires. -/
structure Settled (x : NpuCore) : Prop where
  silent : ∀ b, Silent b (x.be b)
  act : x.mem.actBuf.beRdAcceptR = false
  wt : x.mem.wtRvalid = false
  bias : x.mem.biasRvalid = false
  calm : x.mem.biasPendingR = false

variable {x : NpuCore}

theorem Settled.reset (act : BitVec 13 → Byte) (wt : BitVec 12 → Byte) : Settled (reset act wt) :=
  ⟨silent_reset, rfl, rfl, rfl, rfl⟩

theorem Settled.vacant (h : Settled x) : Vacant x where
  free b := (shares b).free_of_silent _ (h.silent b)
  drained b := (shares b).drained_of_silent _ (h.silent b)
  act := h.act
  wt := h.wt
  bias := h.bias
  calm := h.calm

theorem Silent.not_raises {b : BackendId} {s : BeState b} (h : Silent b s) :
    ((backend b).req s).raises = false :=
  (shares b).drained_req s ((shares b).free_of_silent s h) ((shares b).drained_of_silent s h)

theorem Vacant.rsp_not_raises (h : Vacant x) {q : BeReq} (hq : q.raises = false) :
    (x.mem.beRsp q).raises = false := by
  obtain ⟨hA, hW, hO, hB⟩ := BeReq.raises_eq_false.mp hq
  have hone : (q.biasRdReq && q.wtRdReq) = false := by rw [hB, Bool.false_and]
  rw [BeRsp.raises_eq_false, NpuMemTop.wtRdGnt_eq h.calm, NpuMemTop.biasRdGnt_eq h.calm hone]
  exact ⟨hA, h.act, hW, h.wt, hO, hB, h.bias⟩

/-- The buffers do not look at the addresses of ports not in use. -/
theorem mem_step_of_not_raises {m : NpuMemTop} (hn : m.biasPendingR = false) {q q' : BeReq}
    (hq : q.raises = false) (hq' : q'.raises = false) : m.step .idle q = m.step .idle q' := by
  obtain ⟨h1, h2, h3, h4⟩ := BeReq.raises_eq_false.mp hq
  obtain ⟨h1', h2', h3', h4'⟩ := BeReq.raises_eq_false.mp hq'
  simp [NpuMemTop.step, NpuMemTop.wtBeReq, NpuMemTop.wtIssueBias, NpuWeightBuffer.step,
    NpuActBuffer.step, MemMacro1rw1r.step, HostReq.idle, hn, h1, h2, h3, h4, h1', h2', h3', h4']

/-! ## A command on its own -/

/-- The ports belong to `b`, and its part of the core is `y`. -/
structure Owns (b : BackendId) (y : Sys (BeState b)) (x : NpuCore) : Prop where
  be : x.be b = y.be
  mem : x.mem = y.mem
  sel : x.beSelR = selCode b
  silent : ∀ b' ≠ b, Silent b' (x.be b')

/-- The command of the scheduler runs on `b` as it does there alone. -/
structure Follows (c : ConvCmd) (b : BackendId) (y : Sys (BeState b)) (x : NpuCore) : Prop where
  be : x.be b = y.be
  mem : x.mem = y.mem
  sel : x.beSelR = selCode b
  silent : ∀ b' ≠ b, Silent b' (x.be b')
  sched : x.sched = ⟨.wait, c⟩

variable {c : ConvCmd} {b : BackendId} {y : Sys (BeState b)}

theorem Follows.beDone (h : Follows c b y x) : x.beDone = (backend b).done y.be := by
  rw [← h.be]
  exact beDone_eq_done fun b' hb' ↦ (shares b').silent_done _ (h.silent b' hb')

theorem Follows.owns (h : Follows c b y x) : Owns b y x := ⟨h.be, h.mem, h.sel, h.silent⟩

/-- While no command is taken the owner steps as it does alone. -/
theorem Owns.step (h : Owns b y x) {i : CoreIn} (hi : i.host = .idle)
    (hst : x.sched.state ≠ .issue) (hport : x.sched.cmdR = c ∨ Free b y.be) :
    Owns b (y.step (backend b) (beCmd c b) false .all) (x.step i) := by
  have hreq : x.memReq = y.granted (backend b) .all := by
    rw [memReq_of_sel h.sel, beReq, h.be, Sys.granted, BeReq.gate_all]
  refine ⟨?_, ?_, ?_, fun b' hb' ↦ ?_⟩
  · rw [be_step_of_quiet hst, rsp, if_pos h.sel, h.be, h.mem, hreq]
    rcases hport with hcmd | hf
    · rw [hcmd]
      rfl
    · exact step_port hf _ _ _
  · change x.mem.step i.host x.memReq = _
    rw [hi, hreq, h.mem]
    rfl
  · exact (beSelR_step_of_quiet hst i).trans h.sel
  · rw [be_step_of_quiet hst]
    exact (shares b').silent_step _ _ _ (h.silent b' hb')

theorem Follows.step (h : Follows c b y x) {i : CoreIn} (hi : i.host = .idle)
    (hd : (backend b).done y.be = false) :
    Follows c b (y.step (backend b) (beCmd c b) false .all) (x.step i) := by
  have howns := h.owns.step hi (by simp [h.sched]) (.inl (congrArg NpuScheduler.cmdR h.sched))
  refine ⟨howns.be, howns.mem, howns.sel, howns.silent, ?_⟩
  change x.sched.step _ _ _ x.beDone = _
  rw [h.beDone, hd, h.sched]
  simp [NpuScheduler.step]

theorem Vacant.follows (h : Vacant x) (hs : x.sched = ⟨.issue, c⟩) {i : CoreIn}
    (hi : i.host = .idle) : Follows c (dispatchTo c.opcode)
      (Sys.step (backend _) (beCmd c _) true .all ⟨rested _ (x.be (dispatchTo c.opcode)), x.mem, []⟩)
      (x.step i) := by
  obtain ⟨b, hb⟩ : ∃ b, dispatchTo c.opcode = b := ⟨_, rfl⟩
  rw [hb]
  have hsilent := silent_rested (h.free b) (h.drained b)
  have hready : ∀ b', x.cmdReady b' = true := fun b' ↦ (shares b').free_ready _ (h.free b')
  have hissued : Issued x i b := by
    have hissued := issued (by simp [hs]) i (hready _)
    rwa [congrArg NpuScheduler.cmdR hs, hb] at hissued
  have hreq : x.memReq.raises = false := (shares _).drained_req _ (h.free _) (h.drained _)
  have hown : ((backend b).req (rested b (x.be b))).raises = false := hsilent.not_raises
  have hrsp : (x.rsp b).raises = false := by
    rw [rsp]
    split
    · exact h.rsp_not_raises hreq
    · rfl
  refine ⟨?_, ?_, ?_, fun b' hb' ↦ ?_, ?_⟩
  · rw [be_step, hissued.valid, decide_eq_true rfl, ← step_rested (h.free b) (h.drained b),
      accept_of_not_raises hrsp b hsilent, hs]
    refine (accept_of_not_raises ?_ b hsilent _).symm
    rw [Sys.granted, BeReq.gate_all]
    exact h.rsp_not_raises hown
  · change x.mem.step i.host x.memReq = x.mem.step .idle _
    rw [hi, Sys.granted, BeReq.gate_all]
    exact mem_step_of_not_raises h.calm hreq hown
  · exact hissued.sel
  · rw [be_step, hissued.valid, decide_eq_false (Ne.symm hb')]
    exact (shares b').drained_step _ _ _ (h.free b') (h.drained b')
  · change x.sched.step _ _ (schedReady x.sched.cmdR x.cmdReady) _ = _
    rw [schedReady, hready, hs]
    simp [NpuScheduler.step]

theorem Settled.follows (h : Settled x) (hs : x.sched = ⟨.issue, c⟩) {i : CoreIn}
    (hi : i.host = .idle) : Follows c (dispatchTo c.opcode)
      (Sys.step (backend _) (beCmd c _) true .all ⟨x.be (dispatchTo c.opcode), x.mem, []⟩)
      (x.step i) := by
  have hfollows := h.vacant.follows hs hi
  rwa [rested_of_silent (h.silent _)] at hfollows

def alone (x : NpuCore) (b : BackendId) : Sys (BeState b) := ⟨x.be b, x.mem, []⟩

section Run

variable {ins : ℕ → CoreIn} (h : Settled x) (hs : x.sched = ⟨.issue, c⟩)
  (hidle : ∀ t, (ins t).host = .idle)
include h hs hidle

theorem Settled.follows_run {t : ℕ} (hd : ∀ u < t, (backend (dispatchTo c.opcode)).done
      ((backend (dispatchTo c.opcode)).run (beCmd c _) (fun _ ↦ .all) (x.alone _) (u + 1)).be =
        false) :
    Follows c (dispatchTo c.opcode)
      ((backend _).run (beCmd c _) (fun _ ↦ .all) (x.alone _) (t + 1)) (x.run ins (t + 1)) := by
  induction t with
  | zero => exact h.follows hs (hidle 0)
  | succ t ih =>
      have hbefore := ih fun u hu ↦ hd u (Nat.lt_succ_of_lt hu)
      exact hbefore.step (hidle _) (hd t (Nat.lt_succ_self t))

/-- The core comes back to the scheduler exactly when the backend alone comes
to its done pulse. -/
theorem Settled.returns_iff :
    (∃ t, (x.run ins t).done (dispatchTo c.opcode) = true ∧
        (x.run ins (t + 1)).sched.state = .idle) ↔
      (backend (dispatchTo c.opcode)).Ends (beCmd c _) (fun _ ↦ .all) (x.alone _) := by
  classical
  have hzero : (backend (dispatchTo c.opcode)).done (x.be _) = false :=
    (shares _).silent_done _ (h.silent _)
  constructor
  · rintro ⟨t, ht, -⟩
    by_contra hnever
    have hfollow := fun t ↦ h.follows_run hs hidle (t := t) fun u _ ↦
      Bool.eq_false_iff.mpr fun hd ↦ hnever ⟨u + 1, hd⟩
    cases t with
    | zero => exact Bool.false_ne_true (hzero.symm.trans ht)
    | succ t =>
        rw [NpuCore.done, (hfollow t).be] at ht
        exact hnever ⟨t + 1, ht⟩
  · intro hends
    have hfirst := Nat.find_spec hends
    obtain ⟨t, ht⟩ : ∃ t, Nat.find hends = t + 1 := by
      refine ⟨Nat.find hends - 1, (Nat.succ_pred_eq_of_ne_zero fun h0 ↦ ?_).symm⟩
      rw [h0] at hfirst
      exact Bool.false_ne_true (hzero.symm.trans hfirst)
    have hfollow := h.follows_run hs hidle (t := t) fun u hu ↦
      Bool.eq_false_iff.mpr fun hd ↦ Nat.find_min hends (ht ▸ Nat.succ_lt_succ hu) hd
    rw [ht] at hfirst
    refine ⟨t + 1, ?_, ?_⟩
    · rw [NpuCore.done, hfollow.be]
      exact hfirst
    · change ((x.run ins (t + 1)).sched.step _ _ _ (x.run ins (t + 1)).beDone).state = _
      rw [hfollow.beDone, hfirst, hfollow.sched]
      simp [NpuScheduler.step]

end Run

/-! ## Empty loops -/

/-- No loop that has to come to its end is empty. -/
def Bounded : (b : BackendId) → BeCmd b → Prop
  | .conv => ConvCmd.Looping
  | .gemm => GemmCmd.Positive
  | .softmax => fun cmd ↦ 0 < cmd.numRows.toNat ∧ 0 < cmd.rowLen.toNat
  | .vec => fun cmd ↦ 0 < cmd.length.toNat
  | .lnorm => fun cmd ↦ 0 < cmd.numRows.toNat ∧ 0 < cmd.rowLen.toNat
  | .pool => PoolCmd.Looping

theorem ends_iff_bounded (b : BackendId) (cmd : BeCmd b) {y : Sys (BeState b)} (hs : Silent b y.be)
    (hn : y.mem.biasPendingR = false) (hlog : y.log = []) :
    (backend b).Ends cmd (fun _ ↦ .all) y ↔ Bounded b cmd := by
  cases b with
  | conv => exact ConvFront.ends_iff ⟨hs.front, hs.path, hn⟩ hlog
  | gemm => exact GemmFront.ends_iff ⟨hs.front, hs.path, hn⟩ hlog
  | softmax => exact SoftmaxCtrl.ends_iff fairGrants_all hs hlog
  | vec => exact VecCtrl.ends_iff fairGrants_all (fun _ ↦ rfl) hs hlog hn
  | lnorm => exact LnormCtrl.ends_iff fairGrants_all hs hlog
  | pool => exact PoolCtrl.ends_iff fairGrants_all hs hlog

/-- Whatever the descriptor says: it is answered exactly if it asks for no empty
loop, and otherwise the scheduler waits for ever. -/
theorem returns_iff_bounded (d : BitVec 4 → MmioData) {x : NpuCore} (h : Settled x)
    (hs : x.sched = ⟨.issue, packCmd d⟩) {ins : ℕ → CoreIn} (hidle : ∀ t, (ins t).host = .idle) :
    (∃ t, (x.run ins t).done (dispatchTo (packCmd d).opcode) = true ∧
        (x.run ins (t + 1)).sched.state = .idle) ↔
      Bounded (dispatchTo (packCmd d).opcode) (beCmd (packCmd d) _) := by
  rw [h.returns_iff hs hidle]
  exact ends_iff_bounded _ _ (h.silent _) h.calm rfl

/-- A core out of reset that is about to dispatch. -/
def issuing (c : ConvCmd) : NpuCore := { reset (fun _ ↦ 0) (fun _ ↦ 0) with sched := ⟨.issue, c⟩ }

theorem settled_issuing (c : ConvCmd) : Settled (issuing c) := ⟨silent_reset, rfl, rfl, rfl, rfl⟩

def vecDesc (n : MmioData) (i : BitVec 4) : MmioData :=
  if i = 0 then Opcode.opVec.setWidth 32 else if i = 5 then n else 0

def noInput (_ : ℕ) : CoreIn := ⟨0, false, .idle⟩

/-- An empty vector decodes and never comes back. -/
theorem not_returns_emptyVec : badOpcode (vecDesc 0) = false ∧
    ¬∃ t, ((issuing (packCmd (vecDesc 0))).run noInput t).done .vec = true ∧
      ((issuing (packCmd (vecDesc 0))).run noInput (t + 1)).sched.state = .idle := by
  refine ⟨by decide, fun hr ↦ ?_⟩
  have hx := settled_issuing (packCmd (vecDesc 0))
  have hends := (hx.returns_iff rfl fun _ ↦ rfl).mp hr
  have hpos : 0 < (convToVecCmd (packCmd (vecDesc 0))).length.toNat :=
    (ends_iff_bounded .vec _ (hx.silent _) hx.calm rfl).mp hends
  exact absurd hpos (by decide)

theorem returns_oneVec :
    ∃ t, ((issuing (packCmd (vecDesc 1))).run noInput t).done .vec = true ∧
      ((issuing (packCmd (vecDesc 1))).run noInput (t + 1)).sched.state = .idle :=
  (returns_iff_bounded (vecDesc 1) (settled_issuing _) rfl fun _ ↦ rfl).mpr
    (show 0 < (convToVecCmd (packCmd (vecDesc 1))).length.toNat by decide)

end NpuCore

end LgNpu
