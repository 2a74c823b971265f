import LgNpu.Core.Exclusion

/-!
# One read at a time

All backends but softmax wait for the answer of an activation read before they
ask for the next, whoever had the port before them.  Softmax asks in every
cycle of a scan, unless a row has a single element.
-/

namespace LgNpu

structure BeReq.Granted (q : BeReq) (rsp : BeRsp) : Prop where
  act : rsp.actRdGnt = q.actRdReq
  wt : rsp.wtRdGnt = q.wtRdReq

/-- What single reads take: a `Parked` backend neither reads nor ends, and one
that is `Steady`, given whether an answer is on the wires, does not read twice
in a row.  `Single` are the commands that make it steady. -/
structure Backend.LoneReads {S Cmd : Type} (b : Backend S Cmd) (Parked : S → Prop)
    (Steady : Bool → S → Prop) (Single : Cmd → Prop) : Prop where
  parked_ready : ∀ s, Parked s → b.cmdReady s = true
  parked_done : ∀ s, Parked s → b.done s = false
  parked_req : ∀ s, Parked s → (b.req s).actRdReq = false
  parked_step : ∀ s cmd rsp, Parked s → Parked (b.step s cmd false rsp)
  accept : ∀ s cmd rsp, Parked s → Single cmd → Steady false (b.step s cmd true rsp)
  steady_step : ∀ s cmd rsp, Steady rsp.actRdRvalid s → (b.req s).Granted rsp →
    b.done s = false → Steady (b.req s).actRdReq (b.step s cmd false rsp)
  steady_done : ∀ s cmd rsp, Steady rsp.actRdRvalid s → (b.req s).Granted rsp →
    b.done s = true → Parked (b.step s cmd false rsp)
  alone : ∀ s cmd rsp, Steady rsp.actRdRvalid s → (b.req s).Granted rsp →
    (b.req s).actRdReq = true → (b.req (b.step s cmd false rsp)).actRdReq = false

/-! ## The composites -/

/-- A backend that waits after every read. -/
theorem Backend.LoneReads.of_wait {S Cmd : Type} {b : Backend S Cmd}
    {Idle Working Drained Silent : S → Prop} (h : b.Shares Idle Working Drained Silent)
    (hdone : ∀ s, Idle s → b.done s = false) (hreq : ∀ s, Idle s → (b.req s).actRdReq = false)
    (hend : ∀ s cmd rsp, b.done s = true → Idle (b.step s cmd false rsp))
    (halone : ∀ s cmd rsp, (b.req s).Granted rsp → (b.req s).actRdReq = true →
      (b.req (b.step s cmd false rsp)).actRdReq = false) :
    b.LoneReads Idle (fun _ _ ↦ True) fun _ ↦ True where
  parked_ready := h.free_ready
  parked_done := hdone
  parked_req := hreq
  parked_step := h.free_step
  accept _ _ _ _ _ := trivial
  steady_step _ _ _ _ _ _ := trivial
  steady_done s cmd rsp _ _ hd := hend s cmd rsp hd
  alone s cmd rsp _ hg hr := halone s cmd rsp hg hr

theorem VecCtrl.loneReads :
    vecBackend.LoneReads (fun s ↦ s.state = .idle) (fun _ _ ↦ True) fun _ ↦ True := by
  apply Backend.LoneReads.of_wait VecCtrl.shares
  · exact fun s h ↦ decide_eq_false (by simp [h])
  · exact fun s h ↦ by simp [vecBackend, req, h]
  · exact fun s cmd rsp h ↦ by simp [vecBackend, step, stateNext, of_decide_eq_true h]
  · intro s cmd rsp hg hr
    have hs : s.state = .read := of_decide_eq_true (Bool.and_eq_true_iff.mp hr).1
    have hact : rsp.actRdGnt = true := hg.act.trans hr
    have hwt : (s.bGntR || rsp.wtRdGnt) = true := by
      rw [hg.wt]
      cases hb : s.bGntR <;> simp [vecBackend, req, hs, hb]
    simp [vecBackend, req, step, stateNext, hs, hact, hwt]

theorem LnormCtrl.loneReads :
    lnormBackend.LoneReads (fun s ↦ s.state = .idle) (fun _ _ ↦ True) fun _ ↦ True := by
  apply Backend.LoneReads.of_wait LnormCtrl.shares
  · exact fun s h ↦ decide_eq_false (by simp [h])
  · exact fun s h ↦ by simp [lnormBackend, req, reading, h]
  · exact fun s cmd rsp h ↦ step_done_state (of_decide_eq_true h)
  · intro s cmd rsp hg hr
    have hread : s.reading = true := hr
    have hact : rsp.actRdGnt = true := hg.act.trans hr
    cases hs : s.state <;> simp_all [lnormBackend, req, reading, step, stateNext]

theorem PoolCtrl.loneReads :
    poolBackend.LoneReads (fun s ↦ s.state = .idle) (fun _ _ ↦ True) fun _ ↦ True := by
  apply Backend.LoneReads.of_wait PoolCtrl.shares
  · exact fun s h ↦ decide_eq_false (by simp [h])
  · exact fun s h ↦ by simp [poolBackend, req, h]
  · exact fun s cmd rsp h ↦ by simp [poolBackend, step, stateNext, of_decide_eq_true h]
  · intro s cmd rsp hg hr
    obtain ⟨hs, hin⟩ : s.state = .rd ∧ (!s.oobW) = true := of_decide_eq_true hr
    have hact : rsp.actRdGnt = true := hg.act.trans hr
    simp [poolBackend, req, step, stateNext, hs, hact, Bool.not_eq_true' _ ▸ hin]

/-! ## Softmax -/

namespace SoftmaxCtrl

/-- Rows of at most one element; a scan that has not asked yet gets no answer. -/
structure Steady (rvalid : Bool) (s : SoftmaxCtrl) : Prop where
  rowLen : s.rowLenR.toNat ≤ 1
  unasked : s.scanning → s.reqCntR = 0 → rvalid = false
  unreceived : s.state = .expSum → s.reqCntR = 0 → s.rcvCntR = 0

variable {s : SoftmaxCtrl} {cmd : SoftmaxCmd} {rsp : BeRsp}

/-- Within a scan only the first element of a row is asked for. -/
theorem Steady.asking (h : Steady rsp.actRdRvalid s) (hs : s.scanning) :
    s.actRdReq = true ↔ s.reqCntR = 0 ∧ s.rowLenR.toNat = 1 := by
  have hlen := h.rowLen
  have hreq : s.actRdReq = s.reqCntR.ult s.rowLenR := by
    rcases hs with hs | hs <;> simp [actRdReq, hs]
  rw [hreq, BitVec.ult_eq_decide, decide_eq_true_eq, ← BitVec.toNat_inj]
  change _ ↔ s.reqCntR.toNat = 0 ∧ _
  omega

theorem state_eq_findMax (h : (s.step cmd false rsp).state = .findMax) :
    s.state = .loadCfg ∨ s.state = .normWr ∨
      s.state = .findMax ∧ (rsp.actRdRvalid && eqLast s.rcvCntR s.rowLenR) = false := by
  have hnext : s.stateNext false rsp = .findMax := h
  cases hs : s.state <;> simp only [stateNext, hs] at hnext <;> grind

theorem state_eq_expSum (h : (s.step cmd false rsp).state = .expSum) :
    (s.state = .findMax ∧ (rsp.actRdRvalid && eqLast s.rcvCntR s.rowLenR) = true) ∨
      s.state = .expSum := by
  have hnext : s.stateNext false rsp = .expSum := h
  cases hs : s.state <;> simp only [stateNext, hs] at hnext <;> grind

theorem reqCntR_pass (hg : rsp.actRdGnt = s.actRdReq)
    (hs : s.state = .expSum ∨
      s.state = .findMax ∧ (rsp.actRdRvalid && eqLast s.rcvCntR s.rowLenR) = false) :
    (s.step cmd false rsp).reqCntR = if s.actRdReq then s.reqCntR + 1 else s.reqCntR := by
  rcases hs with hs | ⟨hs, hlast⟩
  · simp [step, rowDone, written, scanning, hg, actRdReq, hs]
  · simp_all [step, rowDone, written, scanning, actRdReq]

/-- A pass that starts the counter again, or keeps it at 0, has asked for
nothing in this cycle. -/
theorem Steady.unasked_step (h : Steady rsp.actRdRvalid s) (hg : rsp.actRdGnt = s.actRdReq)
    (hs : s.state = .expSum ∨
      s.state = .findMax ∧ (rsp.actRdRvalid && eqLast s.rcvCntR s.rowLenR) = false)
    (hzero : (s.step cmd false rsp).reqCntR = 0) : s.actRdReq = false ∧ s.reqCntR = 0 := by
  have hscan : s.scanning := hs.symm.imp_left And.left
  have hstep : (s.step cmd false rsp).reqCntR = _ := reqCntR_pass hg hs
  cases hr : s.actRdReq with
  | false =>
      rw [hr, hzero] at hstep
      exact ⟨rfl, hstep.symm⟩
  | true =>
      rw [hr, hzero, ((h.asking hscan).mp hr).1] at hstep
      exact absurd hstep (by decide)

theorem loneReads : softmaxBackend.LoneReads (fun s ↦ s.state = .idle) Steady
    fun cmd ↦ cmd.rowLen.toNat ≤ 1 where
  parked_ready s h := decide_eq_true h
  parked_done s h := decide_eq_false (by simp [h])
  parked_req s h := by simp [softmaxBackend, req, actRdReq, h]
  parked_step s cmd rsp h := step_idle_state h
  accept s cmd rsp h hsingle := by
    rw [show softmaxBackend.step s cmd true rsp = _ from step_accept h]
    exact ⟨hsingle, fun hs ↦ absurd hs (by simp [scanning]), fun hs ↦ absurd hs (by simp)⟩
  steady_step s cmd rsp h hg hd := by
    have hrowLen : (s.step cmd false rsp).rowLenR = s.rowLenR := by simp [step]
    refine ⟨hrowLen ▸ h.rowLen, fun hscan hzero ↦ ?_, fun hexp hzero ↦ ?_⟩
    · change s.actRdReq = false
      rcases hscan with hfind | hexp
      · rcases state_eq_findMax hfind with hs | hs | hs
        · simp [actRdReq, hs]
        · simp [actRdReq, hs]
        · exact (h.unasked_step hg.act (.inr hs) hzero).1
      · rcases state_eq_expSum hexp with ⟨hs, hlast⟩ | hs
        · have hv : rsp.actRdRvalid = true := (Bool.and_eq_true_iff.mp hlast).1
          refine Bool.eq_false_iff.mpr fun hr ↦ ?_
          have hnone := h.unasked (.inl hs) ((h.asking (.inl hs)).mp hr).1
          exact Bool.false_ne_true (hnone.symm.trans hv)
        · exact (h.unasked_step hg.act (.inl hs) hzero).1
    · rcases state_eq_expSum hexp with ⟨hs, hlast⟩ | hs
      · simp_all [softmaxBackend, step, rowDone, written]
      · have hkeep := (h.unasked_step hg.act (.inl hs) hzero).2
        have hnone := h.unasked (.inr hs) hkeep
        have hrcv := h.unreceived hs hkeep
        simp [softmaxBackend, step, rowDone, written, hs, hnone, hrcv]
  steady_done s cmd rsp h hg hd := step_done_state (of_decide_eq_true hd)
  alone s cmd rsp h hg hr := by
    have hask : s.actRdReq = true := hr
    have hnext : ∀ hs : s.scanning, (s.step cmd false rsp).state = s.state →
        (s.step cmd false rsp).reqCntR = 1 → (s.step cmd false rsp).actRdReq = false := by
      intro hs hstate hcnt
      have hlen := ((h.asking hs).mp hask).2
      have hrowLen : (s.step cmd false rsp).rowLenR = s.rowLenR := by simp [step]
      have hult : (1#16).ult s.rowLenR = false := by
        rw [BitVec.ult_eq_decide, hlen]
        rfl
      rcases hs with hs | hs <;> simp [actRdReq, hstate, hs, hcnt, hrowLen, hult]
    change (s.step cmd false rsp).actRdReq = false
    cases hs : s.state with
    | findMax =>
        obtain ⟨hzero, -⟩ := (h.asking (.inl hs)).mp hask
        have hnone := h.unasked (.inl hs) hzero
        refine hnext (.inl hs) ?_ ?_
        · simp [step, stateNext, hs, hnone]
        · rw [reqCntR_pass hg.act (.inr ⟨hs, by rw [hnone, Bool.false_and]⟩), hask, if_pos rfl,
            hzero]
          rfl
    | expSum =>
        obtain ⟨hzero, hlen⟩ := (h.asking (.inr hs)).mp hask
        have hne : s.rcvCntR ≠ s.rowLenR := by
          rw [h.unreceived hs hzero]
          intro heq
          rw [← heq] at hlen
          exact absurd hlen (by decide)
        refine hnext (.inr hs) ?_ ?_
        · simp [step, stateNext, hs, hne]
        · rw [reqCntR_pass hg.act (.inl hs), hask, if_pos rfl, hzero]
          rfl
    | normRd =>
        have hgnt : rsp.actRdGnt = true := hg.act.trans hr
        simp [step, stateNext, actRdReq, hs, hgnt]
    | _ => exact absurd hask (by simp [actRdReq, hs])

end SoftmaxCtrl

/-! ## The multiply-accumulate backends -/

namespace ConvLoader

variable {s : ConvLoader} {actAddr wtAddr : Addr} {zeroPad loadValid actGnt wtGnt : Bool}
  {actRdata wtRdata : Byte} {actRvalid wtRvalid pairReady : Bool}

theorem step_ne_req (hs : s.state ≠ .req) :
    (s.step actAddr wtAddr zeroPad false actGnt actRdata actRvalid wtGnt wtRdata wtRvalid
      pairReady).state ≠ .req := by
  change s.stateNext false actGnt wtGnt pairReady ≠ .req
  cases h : s.state <;> simp only [stateNext, h] <;> grind

/-- A loader that is granted what it asks for stops asking. -/
theorem step_of_granted (hs : s.state = .req) (ha : actGnt = s.actMemReq) (hw : wtGnt = s.wtMemReq) :
    (s.step actAddr wtAddr zeroPad loadValid actGnt actRdata actRvalid wtGnt wtRdata wtRvalid
      pairReady).state ≠ .req := by
  change s.stateNext loadValid actGnt wtGnt pairReady ≠ .req
  rw [ha, hw]
  cases hp : s.isZeroPadR <;> cases ho : s.actLatched <;> cases hl : s.wtLatched <;>
    simp [stateNext, actMemReq, wtMemReq, hs, hp, ho, hl]

theorem actMemReq_of_ne_req (hs : s.state ≠ .req) : s.actMemReq = false := by
  simp [actMemReq, hs]

end ConvLoader

namespace Mac

variable {F Cmd : Type} {fe : MacFront F Cmd} {Ok Rest : F → Prop}

/-- Between commands, with no operand asked for. -/
structure Parked (Rest : F → Prop) (s : Mac F) : Prop where
  free : Free Rest s
  loader : s.path.loader.state ≠ .req

theorem loneReads (hE : fe.Ends Ok Rest)
    (hvalid : ∀ f, Ok f → (fe.out f).ctrlDone = true → (fe.out f).addrGenValid = false) :
    (macBackend fe).LoneReads (Parked Rest) (fun _ ↦ Working Ok Rest) fun _ ↦ True where
  parked_ready s h := (shares hE).free_ready s h.free
  parked_done s h := by
    simp [macBackend, MacPath.done, hE.rest_done _ h.free.front, h.free.finished]
  parked_req s h := ConvLoader.actMemReq_of_ne_req h.loader
  parked_step s cmd rsp h := by
    refine ⟨(shares hE).free_step s cmd rsp h.free, ?_⟩
    simp only [macBackend, MacPath.step, hE.rest_valid _ h.free.front]
    exact ConvLoader.step_ne_req h.loader
  accept s cmd rsp h _ := (shares hE).accept s cmd rsp h.free
  steady_step s cmd rsp h _ hd := (shares hE).working_step s cmd rsp h hd
  steady_done s cmd rsp h hg hd := by
    refine ⟨(shares hE).working_done s cmd rsp h hd, ?_⟩
    have hdone : s.path.done (fe.out s.front) = true := hd
    have hnone : (fe.out s.front).addrGenValid = false := by
      rcases Bool.or_eq_true_iff.mp (Bool.and_eq_true_iff.mp hdone).1 with hc | hf
      · exact hvalid _ h.front hc
      · exact hE.rest_valid _ (h.finished hf)
    simp only [macBackend, MacPath.step, hnone]
    by_cases hs : s.path.loader.state = .req
    · exact ConvLoader.step_of_granted hs hg.act hg.wt
    · exact ConvLoader.step_ne_req hs
  alone s cmd rsp _ hg hr := by
    have hask : s.path.loader.actMemReq = true := hr
    have hs : s.path.loader.state = .req := by
      by_contra hne
      exact Bool.false_ne_true ((ConvLoader.actMemReq_of_ne_req hne).symm.trans hask)
    exact ConvLoader.actMemReq_of_ne_req (ConvLoader.step_of_granted hs hg.act hg.wt)

end Mac

theorem ConvFront.valid_of_done {f : ConvFront} (h : f.Ok)
    (hd : (convFront.out f).ctrlDone = true) : (convFront.out f).addrGenValid = false := by
  have hs : f.ctrl.state = .done := of_decide_eq_true hd
  have ha : f.addrGen.state = .idle := by simpa [Ok, hs] using h
  simp [convFront, ConvAddrGen.outValid, ha]

theorem GemmFront.valid_of_done {f : GemmFront} (h : f.Ok)
    (hd : (gemmFront.out f).ctrlDone = true) : (gemmFront.out f).addrGenValid = false := by
  have hs : f.ctrl.state = .done := of_decide_eq_true hd
  have ha : f.addrGen.state = .idle := by simpa [Ok, hs] using h
  simp [gemmFront, GemmAddrGen.outValid, ha]

/-! ## The family -/

namespace NpuCore

def Parked : (b : BackendId) → BeState b → Prop
  | .conv => Mac.Parked ConvFront.Rest
  | .gemm => Mac.Parked GemmFront.Rest
  | .softmax => fun s ↦ s.state = .idle
  | .vec => fun s ↦ s.state = .idle
  | .lnorm => fun s ↦ s.state = .idle
  | .pool => fun s ↦ s.state = .idle

def Steady : (b : BackendId) → Bool → BeState b → Prop
  | .conv => fun _ ↦ Mac.Working ConvFront.Ok ConvFront.Rest
  | .gemm => fun _ ↦ Mac.Working GemmFront.Ok GemmFront.Rest
  | .softmax => SoftmaxCtrl.Steady
  | _ => fun _ _ ↦ True

def Single : (b : BackendId) → BeCmd b → Prop
  | .softmax => fun cmd ↦ cmd.rowLen.toNat ≤ 1
  | _ => fun _ ↦ True

theorem loneReads : (b : BackendId) → (backend b).LoneReads (Parked b) (Steady b) (Single b)
  | .conv => Mac.loneReads ConvFront.ends fun _ ↦ ConvFront.valid_of_done
  | .gemm => Mac.loneReads GemmFront.ends fun _ ↦ GemmFront.valid_of_done
  | .softmax => SoftmaxCtrl.loneReads
  | .vec => VecCtrl.loneReads
  | .lnorm => LnormCtrl.loneReads
  | .pool => PoolCtrl.loneReads

theorem parked_reset (b : BackendId) : Parked b (beReset b) := by
  cases b with
  | conv => exact ⟨⟨⟨rfl, rfl⟩, rfl⟩, LoaderState.noConfusion⟩
  | gemm => exact ⟨⟨⟨rfl, rfl⟩, rfl⟩, LoaderState.noConfusion⟩
  | softmax => rfl
  | vec => rfl
  | lnorm => rfl
  | pool => rfl

variable (x : NpuCore)

/-- The owner of the ports has the last command; the others are parked.  No
read is put through while an answer is on the wires. -/
structure ReadInv : Prop where
  code : x.beSelR = selCode (selected x.beSelR)
  others : ∀ b ≠ selected x.beSelR, Parked b (x.be b)
  waiting : x.sched.state = .wait →
    Steady (selected x.beSelR) x.mem.actBuf.beRdAcceptR (x.be (selected x.beSelR))
  parked : x.sched.state ≠ .wait → Parked (selected x.beSelR) (x.be (selected x.beSelR))
  calm : x.mem.biasPendingR = false
  alone : x.memReq.actRdReq = true → x.mem.actBuf.beRdAcceptR = false

/-- No softmax command with two elements or more to a row is taken. -/
def SingleRows : Prop := x.accepts .softmax = true → (convToSoftmaxCmd x.sched.cmdR).rowLen.toNat ≤ 1

variable {x}

theorem ReadInv.reset (act : BitVec 13 → Byte) (wt : BitVec 12 → Byte) :
    ReadInv (NpuCore.reset act wt) where
  code := rfl
  others b _ := parked_reset b
  waiting h := absurd h SchedState.noConfusion
  parked _ := parked_reset _
  calm := rfl
  alone _ := rfl

theorem ReadInv.rsp_owner (h : ReadInv x) :
    x.rsp (selected x.beSelR) = x.mem.beRsp x.memReq := if_pos h.code

theorem ReadInv.granted (h : ReadInv x) : x.memReq.Granted (x.mem.beRsp x.memReq) :=
  ⟨rfl, NpuMemTop.wtRdGnt_eq h.calm⟩

theorem ReadInv.parked_of_issue (h : ReadInv x) (hs : x.sched.state ≠ .wait) (b : BackendId) :
    Parked b (x.be b) := by
  by_cases hb : b = selected x.beSelR
  · exact hb ▸ h.parked hs
  · exact h.others b hb

theorem ReadInv.no_read (h : ReadInv x) (hs : x.sched.state ≠ .wait) :
    x.memReq.actRdReq = false :=
  (loneReads _).parked_req _ (h.parked hs)

theorem ReadInv.beDone_eq (h : ReadInv x) : x.beDone = x.done (selected x.beSelR) :=
  beDone_eq_done fun b hb ↦ (loneReads b).parked_done _ (h.others b hb)

/-- Without a command port active the owner keeps the ports. -/
theorem ReadInv.step_quiet (h : ReadInv x) (hs : x.sched.state ≠ .issue) (i : CoreIn) :
    ReadInv (x.step i) := by
  have hsel := beSelR_step_of_quiet hs i
  have hbe := be_step_of_quiet hs i
  refine ⟨by rw [hsel]; exact h.code, fun b hb ↦ ?_, fun hw ↦ ?_, fun hw ↦ ?_,
    NpuMemTop.biasPendingR_step h.calm ((shares _).one_reader _), fun hr ↦ ?_⟩
  · rw [hsel] at hb
    rw [hbe]
    exact (loneReads b).parked_step _ _ _ (h.others b hb)
  · obtain ⟨hst, hd⟩ := (wait_step_iff hs i).mp hw
    rw [hsel, hbe, h.rsp_owner]
    exact (loneReads _).steady_step _ _ _ (h.waiting hst) h.granted (h.beDone_eq.symm.trans hd)
  · rw [hsel, hbe, h.rsp_owner]
    by_cases hst : x.sched.state = .wait
    · have hd : x.beDone = true := by
        by_contra hd
        exact hw ((wait_step_iff hs i).mpr ⟨hst, Bool.eq_false_iff.mpr hd⟩)
      exact (loneReads _).steady_done _ _ _ (h.waiting hst) h.granted (h.beDone_eq.symm.trans hd)
    · exact (loneReads _).parked_step _ _ _ (h.parked hst)
  · change x.memReq.actRdReq = false
    by_cases hst : x.sched.state = .wait
    · refine Bool.eq_false_iff.mpr fun hask ↦ ?_
      have hnone := (loneReads _).alone _ (beCmd x.sched.cmdR _) _ (h.waiting hst) h.granted hask
      rw [memReq, hsel, beReq, hbe, h.rsp_owner] at hr
      exact Bool.false_ne_true (hnone.symm.trans hr)
    · exact h.no_read hst

/-- The port is quiet when it is handed over. -/
theorem ReadInv.step_issue (h : ReadInv x) (hsingle : x.SingleRows) (hs : x.sched.state = .issue)
    (i : CoreIn) : ReadInv (x.step i) := by
  have hparked := h.parked_of_issue (by simp [hs])
  have hissued := issued hs i ((loneReads _).parked_ready _ (hparked _))
  have hquiet : (x.step i).mem.actBuf.beRdAcceptR = false := h.no_read (by simp [hs])
  generalize dispatchTo x.sched.cmdR.opcode = b at hissued
  have hone : Single b (beCmd x.sched.cmdR b) := by
    cases b with
    | softmax => exact hsingle hissued.accepts
    | _ => trivial
  refine ⟨by rw [hissued.sel, selected_selCode], fun c hc ↦ ?_, fun _ ↦ ?_,
    fun hw ↦ absurd hissued.wait hw,
    NpuMemTop.biasPendingR_step h.calm ((shares _).one_reader _), fun _ ↦ hquiet⟩
  · rw [hissued.sel, selected_selCode] at hc
    rw [be_step, hissued.valid, decide_eq_false (Ne.symm hc)]
    exact (loneReads c).parked_step _ _ _ (hparked c)
  · rw [hissued.sel, selected_selCode, be_step, hissued.valid, decide_eq_true rfl, hquiet]
    exact (loneReads b).accept _ _ _ (hparked b) hone

theorem ReadInv.step (h : ReadInv x) (hsingle : x.SingleRows) (i : CoreIn) :
    ReadInv (x.step i) := by
  by_cases hs : x.sched.state = .issue
  · exact h.step_issue hsingle hs i
  · exact h.step_quiet hs i

theorem readInv_run {act : BitVec 13 → Byte} {wt : BitVec 12 → Byte} {ins : ℕ → CoreIn}
    (hsingle : ∀ t, ((NpuCore.reset act wt).run ins t).SingleRows) (t : ℕ) :
    ReadInv ((NpuCore.reset act wt).run ins t) := by
  induction t with
  | zero => exact ReadInv.reset act wt
  | succ t ih =>
      rw [run_succ]
      exact ih.step (hsingle t) _

end NpuCore

end LgNpu
