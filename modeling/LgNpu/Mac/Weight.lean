import LgNpu.Mac.Exact

/-!
# Progress under back-pressure

Every token on its way through the path, from an iteration that is still to be
handed over to an element in the writer, has a weight that falls from stage to
stage.  No edge raises the sum of the weights, and one that leaves it as it is
finds the path written out or waiting for a port.
-/

namespace LgNpu

/-! ## The stages -/

/-- A handed over iteration is worth 18 to the loader. -/
def Feed.weight (total lat : ℕ) : Feed → ℕ
  | cfg => total * (lat + 20) + 4
  | free i => (total - i) * (lat + 20) + 3
  | computing i k => (total - (i + 1)) * (lat + 20) + 22 + k
  | drain => 2
  | done => 1
  | idle => 0

theorem Feed.weight_step {total lat : ℕ} {p : Feed} (h : p.Within total) (ready : Bool) :
    (p.step total lat ready).weight total lat + 18 * (p.valid && ready).toNat ≤
        p.weight total lat ∧
      ((p.step total lat ready).weight total lat + 18 * (p.valid && ready).toNat =
          p.weight total lat → p = .idle ∨ p.valid = true ∧ ready = false) := by
  cases p with
  | cfg => simp [Feed.step, weight, valid]
  | free i =>
      obtain ⟨n, hn⟩ : ∃ n, total - i = n + 1 := ⟨total - i - 1, by have : i < total := h; omega⟩
      have hsub : total - (i + 1) = n := by omega
      have hmul : (n + 1) * (lat + 20) = n * (lat + 20) + (lat + 20) := Nat.succ_mul _ _
      simp only [Feed.step, weight, valid, hn, hsub, hmul, Bool.false_and, Bool.toNat_false,
        reduceCtorEq, Bool.false_eq_true, false_and, or_self]
      omega
  | computing i k =>
      cases k with
      | succ k => simp [Feed.step, weight, valid]
      | zero =>
          cases ready with
          | false => simp [Feed.step, valid]
          | true =>
              simp only [Feed.step, if_true, valid, Bool.and_self, Bool.toNat_true, reduceCtorEq,
                Bool.true_eq_false, and_false, or_self, imp_false]
              split
              · simp only [weight]
                omega
              · simp only [weight]
                omega
  | drain => simp [Feed.step, weight, valid]
  | done => simp [Feed.step, weight, valid]
  | idle => simp [Feed.step, weight, valid]

namespace ConvLoader

/-- Edges until an operand is latched, but for waiting. -/
def need (latched rvalid : Bool) : ℕ := if latched then 0 else if rvalid then 1 else 2

/-- A pair in the loader is worth 9 to the processing element. -/
def weight (s : ConvLoader) (actRvalid wtRvalid : Bool) : ℕ :=
  match s.state with
  | .idle => 0
  | .req => 13 + need s.actLatched actRvalid + need s.wtLatched wtRvalid
  | .wait => 10 + (!s.actLatched).toNat + (!s.wtLatched).toNat
  | .done => 9

theorem need_step (latched rvalid gnt : Bool) :
    need (if rvalid && !latched then true else latched) (!latched && gnt) ≤ need latched rvalid ∧
      (need (if rvalid && !latched then true else latched) (!latched && gnt) =
          need latched rvalid → latched = true ∨ rvalid = false ∧ gnt = false) := by
  cases latched <;> cases rvalid <;> cases gnt <;> simp [need]

variable {s : ConvLoader} {actAddr wtAddr : Addr} {zeroPad loadValid gAct gWt : Bool}
  {actRdata wtRdata : Byte} {actRvalid wtRvalid pairReady : Bool} {s' : ConvLoader}

/-- No token moves in a loader with these grants. -/
def Stuck (s : ConvLoader) (loadValid actRvalid wtRvalid gAct gWt : Bool) : Prop :=
  (s.state = .idle ∧ loadValid = false) ∨ s.state = .done ∨
    (s.state = .req ∧ s.isZeroPadR = false ∧
      (s.actLatched = true ∨ actRvalid = false ∧ gAct = false) ∧
      (s.wtLatched = true ∨ wtRvalid = false ∧ gWt = false) ∧
      ¬(s.actLatched = true ∧ s.wtLatched = true))

theorem weight_step (hgot : s.state = .wait →
      (s.actLatched = true ∨ actRvalid = true) ∧ (s.wtLatched = true ∨ wtRvalid = true))
    (hs' : s' = s.step actAddr wtAddr zeroPad loadValid (s.actMemReq && gAct) actRdata actRvalid
      (s.wtMemReq && gWt) wtRdata wtRvalid pairReady) :
    s'.weight (s.actMemReq && gAct) (s.wtMemReq && gWt) + 9 * (s.pairValid && pairReady).toNat ≤
        s.weight actRvalid wtRvalid + 18 * (loadValid && s.loadReady).toNat ∧
      (s'.weight (s.actMemReq && gAct) (s.wtMemReq && gWt) +
          9 * (s.pairValid && pairReady).toNat =
          s.weight actRvalid wtRvalid + 18 * (loadValid && s.loadReady).toNat →
        s.Stuck loadValid actRvalid wtRvalid gAct gWt) := by
  rw [Stuck]
  cases hs : s.state with
  | idle =>
      subst hs'
      cases loadValid <;> cases zeroPad <;>
        simp [step, stateNext, weight, taking, receiving, pairValid, loadReady, actMemReq, wtMemReq,
          need, hs]
  | req =>
      have hla : s'.actLatched = if actRvalid && !s.actLatched then true else s.actLatched := by
        simp [hs', step, taking, receiving, hs]
      have hlw : s'.wtLatched = if wtRvalid && !s.wtLatched then true else s.wtLatched := by
        simp [hs', step, taking, receiving, hs]
      have hrank : s.weight actRvalid wtRvalid =
          13 + need s.actLatched actRvalid + need s.wtLatched wtRvalid := by rw [weight, hs]
      have hpair : (s.pairValid && pairReady) = false := by simp [pairValid, hs]
      have hload : (loadValid && s.loadReady) = false := by simp [loadReady, hs]
      rw [hpair, hload, hrank]
      cases hz : s.isZeroPadR with
      | true =>
          have hst : s'.state = .done := by simp [hs', step, stateNext, hs, hz]
          have hrank' : s'.weight (s.actMemReq && gAct) (s.wtMemReq && gWt) = 9 := by
            rw [weight, hst]
          rw [hrank', Bool.toNat_false]
          omega
      | false =>
          have hareq : s.actMemReq = !s.actLatched := by simp [actMemReq, hs, hz]
          have hwreq : s.wtMemReq = !s.wtLatched := by simp [wtMemReq, hs, hz]
          obtain ⟨hact, hact'⟩ := need_step s.actLatched actRvalid gAct
          obtain ⟨hwt, hwt'⟩ := need_step s.wtLatched wtRvalid gWt
          rw [← hla] at hact hact'
          rw [← hlw] at hwt hwt'
          rw [hareq, hwreq]
          cases hgo : (s.actLatched || !s.actLatched && gAct) &&
              (s.wtLatched || !s.wtLatched && gWt) with
          | true =>
              have hst : s'.state = .wait := by
                simp only [hs', step, stateNext, hs, hz, hareq, hwreq, hgo, Bool.false_eq_true,
                  if_false, if_true]
              have hrank' : s'.weight (!s.actLatched && gAct) (!s.wtLatched && gWt) ≤ 12 := by
                have h1 := Bool.toNat_le (!s'.actLatched)
                have h2 := Bool.toNat_le (!s'.wtLatched)
                simp only [weight, hst]
                omega
              rw [Bool.toNat_false]
              omega
          | false =>
              have hst : s'.state = .req := by
                simp only [hs', step, stateNext, hs, hz, hareq, hwreq, hgo, Bool.false_eq_true,
                  if_false]
              have hrank' : s'.weight (!s.actLatched && gAct) (!s.wtLatched && gWt) =
                  13 + need s'.actLatched (!s.actLatched && gAct) +
                    need s'.wtLatched (!s.wtLatched && gWt) := by rw [weight, hst]
              rw [hrank', Bool.toNat_false]
              refine ⟨by omega, fun heq ↦ .inr (.inr ⟨rfl, rfl, hact' (by omega), hwt' (by omega),
                fun hboth ↦ ?_⟩)⟩
              rw [hboth.1, hboth.2] at hgo
              exact Bool.false_ne_true hgo.symm
  | wait =>
      subst hs'
      obtain ⟨hact, hwt⟩ := hgot hs
      cases hla : s.actLatched <;> cases hlw : s.wtLatched <;>
        simp_all [step, stateNext, weight, taking, receiving, pairValid, loadReady]
  | done =>
      subst hs'
      cases pairReady <;>
        simp [step, stateNext, weight, taking, receiving, pairValid, loadReady, hs]

end ConvLoader

def ConvWriter.weight (s : ConvWriter) : ℕ :=
  match s.state with
  | .idle => 0
  | .write => 2
  | .ack => 1

theorem ConvWriter.weight_step (s : ConvWriter) (outAddr : Addr) (addrValid : Bool) (inData : Byte)
    (inValid gnt : Bool) :
    (s.step outAddr addrValid inData inValid gnt).weight ≤
        s.weight + 4 * (inValid && s.inReady).toNat ∧
      ((s.step outAddr addrValid inData inValid gnt).weight =
          s.weight + 4 * (inValid && s.inReady).toNat →
        (inValid && s.inReady) = false ∧ s.state ≠ .ack ∧ ¬(s.state = .write ∧ gnt = true)) := by
  cases hs : s.state <;> cases hi : inValid <;> cases ha : addrValid <;> cases hg : gnt <;>
    simp [ConvWriter.step, weight, inReady, hs]

/-- Whatever a handshake register is offered, tokens do not multiply. -/
theorem PipelineReg.count_le {w : ℕ} (s : PipelineReg w) (inData : BitVec w)
    (inValid outReady : Bool) : (s.step inData inValid outReady).valid.toNat +
      (s.valid && outReady).toNat ≤ s.valid.toNat + inValid.toNat := by
  have hcount := s.count_step inData inValid outReady
  have hle : (inValid && s.inReady outReady).toNat ≤ inValid.toNat := by
    cases inValid <;> simp [Bool.toNat_le]
  omega

/-! ## The path -/

section

open Mac

variable {F Cmd : Type} {fe : MacFront F Cmd} {cmd : Cmd} {c : MacJob} {lat : ℕ} {g : Grants}
  {k : Track F} {D : Prop} {Rest : F → Prop} {At : Feed → F → Prop} {rd : ℕ → Byte}
  {w : BitVec 12 → Byte}

namespace Track

def loaderWeight (k : Track F) : ℕ :=
  k.path.loader.weight k.mem.actBuf.beRdAcceptR k.mem.wtRvalid

/-- The trigger and the three stages behind it. -/
def postWeight (k : Track F) : ℕ :=
  7 * k.path.ppTriggerR.toNat + 6 * k.path.postproc.bias.valid.toNat +
    5 * k.path.postproc.relu.valid.toNat + 4 * k.path.postproc.quant.valid.toNat +
    k.path.writer.weight

def weight (total lat : ℕ) (k : Track F) : ℕ :=
  k.feed.weight total lat + k.loaderWeight + 8 * k.path.pe.validR.toNat + k.postWeight

/-- The path waits for the port. -/
def Waits (k : Track F) : Port → Prop
  | .act => k.path.loader.state = .req ∧ k.path.loader.isZeroPadR = false ∧
      k.path.loader.actLatched = false ∧ k.mem.actBuf.beRdAcceptR = false
  | .wt => k.path.loader.state = .req ∧ k.path.loader.isZeroPadR = false ∧
      k.path.loader.wtLatched = false ∧ k.mem.wtRvalid = false
  | .out => k.path.writer.state = .write

/-- No token moves in the loader. -/
def LoaderStuck (g : Grants) (k : Track F) : Prop :=
  k.path.loader.Stuck k.feed.valid k.mem.actBuf.beRdAcceptR k.mem.wtRvalid g.act g.wt

end Track

theorem MacInv.loaderWeight_step (hF : Feeds fe cmd c lat Rest At) (h : MacInv D c At rd w k) :
    (k.step fe cmd c lat g).loaderWeight + 9 * k.path.peAccept.toNat ≤
        k.loaderWeight + 18 * (k.feed.valid && k.path.loader.loadReady).toNat ∧
      ((k.step fe cmd c lat g).loaderWeight + 9 * k.path.peAccept.toNat =
          k.loaderWeight + 18 * (k.feed.valid && k.path.loader.loadReady).toNat →
        k.LoaderStuck g) := by
  have hvalid := hF.valid _ _ h.front
  have hwt : (k.step fe cmd c lat g).mem.wtRvalid = (k.path.loader.wtMemReq && g.wt) :=
    NpuMemTop.wtRvalid_step h.calm one_reader
  have hgot : k.path.loader.state = .wait →
      (k.path.loader.actLatched = true ∨ k.mem.actBuf.beRdAcceptR = true) ∧
        (k.path.loader.wtLatched = true ∨ k.mem.wtRvalid = true) := by
    intro hs
    cases h.loader with
    | wait _ _ _ _ _ hgota hgotw => exact ⟨hgota, hgotw⟩
    | idle hs' => exact absurd (hs.symm.trans hs') (by simp)
    | req hs' => exact absurd (hs.symm.trans hs') (by simp)
    | done hs' => exact absurd (hs.symm.trans hs') (by simp)
  have hload : (k.step fe cmd c lat g).path.loader = k.path.loader.step
      (fe.out k.sys.be.front).actAddr (fe.out k.sys.be.front).wtAddr
      (fe.out k.sys.be.front).zeroPad k.feed.valid (k.path.loader.actMemReq && g.act)
      (rspOf fe g k.sys).actRdRdata k.mem.actBuf.beRdAcceptR (k.path.loader.wtMemReq && g.wt)
      (rspOf fe g k.sys).wtRdRdata k.mem.wtRvalid k.path.loadPairReady := by
    rw [← hvalid]
    exact congrArg (fun b ↦ k.path.loader.step _ _ _ _ _ _ _ b _ _ _) (rsp_wt h.calm)
  rw [Track.loaderWeight, hwt]
  exact ConvLoader.weight_step hgot hload

theorem pe_weight_step (k : Track F) :
    8 * (k.step fe cmd c lat g).path.pe.validR.toNat + 8 * k.path.accEn.toNat ≤
        8 * k.path.pe.validR.toNat + 9 * k.path.peAccept.toNat ∧
      (8 * (k.step fe cmd c lat g).path.pe.validR.toNat + 8 * k.path.accEn.toNat =
        8 * k.path.pe.validR.toNat + 9 * k.path.peAccept.toNat → k.path.peAccept = false) := by
  have hpe : (k.step fe cmd c lat g).path.pe.validR =
      if k.path.peAccept then true
      else if k.path.pe.validR && k.path.peReadyOut then false else k.path.pe.validR := rfl
  have hacc : k.path.peAccept =
      (k.path.loader.pairValid && (!k.path.pe.validR || k.path.peReadyOut)) := rfl
  rw [hpe, hacc, MacPath.accEn]
  cases k.path.loader.pairValid <;> cases k.path.pe.validR <;> cases k.path.peReadyOut <;> simp

/-- No token moves behind the processing element. -/
structure MacPath.PostStuck (s : MacPath) (gOut : Bool) : Prop where
  accEn : s.accEn = false
  trigger : s.ppTriggerR = false
  bias : (s.postproc.bias.valid && s.postproc.reluReady s.ppOutReady) = false
  relu : (s.postproc.relu.valid && s.postproc.quantReady s.ppOutReady) = false
  quant : (s.postproc.quant.valid && s.ppOutReady) = false
  ack : s.writer.state ≠ .ack
  write : ¬(s.writer.state = .write ∧ gOut = true)

theorem postWeight_step (k : Track F) :
    (k.step fe cmd c lat g).postWeight ≤ k.postWeight + 8 * k.path.accEn.toNat ∧
      ((k.step fe cmd c lat g).postWeight = k.postWeight + 8 * k.path.accEn.toNat →
        k.path.PostStuck g.out) := by
  have htrig : (k.step fe cmd c lat g).path.ppTriggerR.toNat ≤ k.path.accEn.toNat := by
    have heq : (k.step fe cmd c lat g).path.ppTriggerR = (k.path.lastInnerD && k.path.accEn) :=
      ppTrigger_eq
    rw [heq]
    cases k.path.lastInnerD <;> simp
  have hbias : (k.step fe cmd c lat g).path.postproc.bias.valid.toNat +
      (k.path.postproc.bias.valid && k.path.postproc.reluReady k.path.ppOutReady).toNat ≤
        k.path.postproc.bias.valid.toNat + k.path.ppTriggerR.toNat :=
    k.path.postproc.bias.count_le _ _ _
  have hrelu : (k.path.postproc.relu.valid && k.path.postproc.quantReady k.path.ppOutReady).toNat +
      (k.step fe cmd c lat g).path.postproc.relu.valid.toNat = k.path.postproc.relu.valid.toNat +
        (k.path.postproc.bias.valid && k.path.postproc.reluReady k.path.ppOutReady).toNat :=
    k.path.postproc.relu.count_step _ _ _
  have hquant : (k.path.postproc.quant.valid && k.path.ppOutReady).toNat +
      (k.step fe cmd c lat g).path.postproc.quant.valid.toNat =
        k.path.postproc.quant.valid.toNat +
          (k.path.postproc.relu.valid && k.path.postproc.quantReady k.path.ppOutReady).toNat :=
    k.path.postproc.quant.count_step _ _ _
  obtain ⟨hwriter, hwriter'⟩ : (k.step fe cmd c lat g).path.writer.weight ≤
        k.path.writer.weight + 4 * (k.path.postproc.quant.valid && k.path.ppOutReady).toNat ∧
      ((k.step fe cmd c lat g).path.writer.weight =
          k.path.writer.weight + 4 * (k.path.postproc.quant.valid && k.path.ppOutReady).toNat →
        (k.path.postproc.quant.valid && k.path.ppOutReady) = false ∧
          k.path.writer.state ≠ .ack ∧
          ¬(k.path.writer.state = .write ∧ (k.path.writer.memReq && g.out) = true)) :=
    k.path.writer.weight_step _ _ _ _ _
  rw [Track.postWeight, Track.postWeight]
  refine ⟨by omega, fun heq ↦ ?_⟩
  obtain ⟨hq, hack, hwr⟩ := hwriter' (by omega)
  refine ⟨?_, ?_, ?_, ?_, hq, hack, fun hw ↦ hwr ⟨hw.1, ?_⟩⟩
  · exact Bool.toNat_eq_zero.mp (by omega)
  · exact Bool.toNat_eq_zero.mp (by omega)
  · exact Bool.toNat_eq_zero.mp (by omega)
  · exact Bool.toNat_eq_zero.mp (by omega)
  · simp [ConvWriter.memReq, hw.1, hw.2]

/-! ## Progress -/

theorem weight_step (hF : Feeds fe cmd c lat Rest At) (h : MacInv D c At rd w k) :
    (k.step fe cmd c lat g).weight c.total lat ≤ k.weight c.total lat ∧
      ((k.step fe cmd c lat g).weight c.total lat = k.weight c.total lat →
        (k.feed = .idle ∨ k.feed.valid = true ∧ k.path.loader.loadReady = false) ∧
          k.LoaderStuck g ∧ k.path.peAccept = false ∧ k.path.PostStuck g.out) := by
  obtain ⟨hfeed, hfeed'⟩ := @Feed.weight_step c.total lat k.feed h.within k.path.loader.loadReady
  obtain ⟨hload, hload'⟩ := h.loaderWeight_step (g := g) hF
  obtain ⟨hpe, hpe'⟩ := @pe_weight_step F Cmd fe cmd c lat g k
  obtain ⟨hpost, hpost'⟩ := @postWeight_step F Cmd fe cmd c lat g k
  have hnext : (k.step fe cmd c lat g).feed = k.feed.step c.total lat k.path.loader.loadReady := rfl
  rw [Track.weight, Track.weight, hnext]
  exact ⟨by omega, fun heq ↦ ⟨hfeed' (by omega), hload' (by omega), hpe' (by omega),
    hpost' (by omega)⟩⟩

/-- With every token gone the job is written. -/
theorem MacInv.length_of_empty (h : MacInv D c At rd w k) (hc : c.Positive) (hfeed : k.feed = .idle)
    (hload : k.path.loader.state = .idle) (hpe : k.path.pe.validR = false)
    (hheld : k.path.held = 0) : k.sys.log.length = c.outs := by
  have htaken : k.taken = c.total := by
    cases h.loader with
    | idle _ hp => rw [hp, hfeed]; rfl
    | req hs => exact absurd (hload.symm.trans hs) (by simp)
    | wait hs => exact absurd (hload.symm.trans hs) (by simp)
    | done hs => exact absurd (hload.symm.trans hs) (by simp)
  have hemitted : k.emitted = c.total := by
    cases h.pe with
    | empty _ hr => rw [hr, htaken]
    | full hv => exact absurd (hpe.symm.trans hv) (by simp)
  have hfired := h.post.fired
  rw [hemitted, MacJob.total, Nat.mul_div_cancel _ hc.its] at hfired
  simp only [MacPath.atTrigger, MacPath.atBias, MacPath.atRelu, MacPath.atQuant] at hfired
  rw [MacPath.held] at hheld
  omega

theorem MacInv.progress (hF : Feeds fe cmd c lat Rest At) (hc : c.Positive)
    (h : MacInv D c At rd w k) : k.sys.log.length = c.outs ∨
      (k.step fe cmd c lat g).weight c.total lat < k.weight c.total lat ∨ ∃ i, k.Waits i := by
  obtain ⟨hle, hstuck⟩ := weight_step (g := g) hF h
  rcases hle.lt_or_eq with hlt | heq
  · exact .inr (.inl hlt)
  obtain ⟨hfeed, hload, hacc, hpost⟩ := hstuck heq
  cases hwr : k.path.writer.state with
  | write => exact .inr (.inr ⟨.out, hwr⟩)
  | ack => exact absurd hwr hpost.ack
  | idle =>
      -- Nothing holds up the stages, so there is nothing in them.
      have hout : k.path.ppOutReady = true := by simp [MacPath.ppOutReady, ConvWriter.inReady, hwr]
      have hquant : k.path.postproc.quant.valid = false := by simpa [hout] using hpost.quant
      have hrelu : k.path.postproc.relu.valid = false := by
        simpa [Postproc.quantReady, PipelineReg.inReady, hquant] using hpost.relu
      have hbias : k.path.postproc.bias.valid = false := by
        simpa [Postproc.reluReady, PipelineReg.inReady, hrelu] using hpost.bias
      have hcount := h.post.count
      rw [hquant, hrelu, hbias, hpost.trigger] at hcount
      have hspare : k.path.wrAddrQ.skidValid = false := by
        apply Bool.toNat_eq_zero.mp
        rw [SkidBuffer.count] at hcount
        simp only [Bool.toNat_false] at hcount
        omega
      have hready : k.path.peReadyOut = true := by
        simp [MacPath.peReadyOut, MacPath.ppInReady, Postproc.inReady, PipelineReg.inReady,
          SkidBuffer.inReady, hbias, hspare]
      have hpe : k.path.pe.validR = false := by
        simpa [MacPath.accEn, hready] using hpost.accEn
      rcases hload with ⟨hidle, hvalid⟩ | hdone | ⟨hs, hz, hact, hwt, hnot⟩
      · refine .inl (h.length_of_empty hc ?_ hidle hpe ?_)
        · rcases hfeed with hidle' | ⟨hv, -⟩
          · exact hidle'
          · exact absurd (hvalid.symm.trans hv) Bool.false_ne_true
        · rw [MacPath.held_eq_zero]
          exact ⟨by simp [hwr], hquant, hrelu, hbias, hpost.trigger⟩
      · simp [MacPath.peAccept, ConvLoader.pairValid, MacPath.loadPairReady, ConvPe.readyOut, hdone,
          hpe] at hacc
      · refine .inr (.inr ?_)
        rcases hact with hla | ⟨hra, -⟩
        · rcases hwt with hlw | ⟨hrw, -⟩
          · exact absurd ⟨hla, hlw⟩ hnot
          · exact ⟨.wt, hs, hz, Bool.eq_false_iff.mpr fun hlw ↦ hnot ⟨hla, hlw⟩, hrw⟩
        · cases hla : k.path.loader.actLatched with
          | false => exact ⟨.act, hs, hz, hla, hra⟩
          | true =>
              rcases hwt with hlw | ⟨hrw, -⟩
              · exact absurd ⟨hla, hlw⟩ hnot
              · exact ⟨.wt, hs, hz, Bool.eq_false_iff.mpr fun hlw ↦ hnot ⟨hla, hlw⟩, hrw⟩

/-- A port that is waited for and not granted is still waited for. -/
theorem MacInv.waits_step (hF : Feeds fe cmd c lat Rest At) (h : MacInv D c At rd w k) {i : Port}
    (hi : k.Waits i) : (k.step fe cmd c lat g).weight c.total lat < k.weight c.total lat ∨
      g.port i = false ∧ (k.step fe cmd c lat g).Waits i ∧
        (k.step fe cmd c lat g).weight c.total lat = k.weight c.total lat := by
  obtain ⟨hle, hstuck⟩ := weight_step (g := g) hF h
  rcases hle.lt_or_eq with hlt | heq
  · exact .inl hlt
  obtain ⟨-, hload, -, hpost⟩ := hstuck heq
  have hwtnext : (k.step fe cmd c lat g).mem.wtRvalid = (k.path.loader.wtMemReq && g.wt) :=
    NpuMemTop.wtRvalid_step h.calm one_reader
  -- What a loader waiting for an operand does next.
  have hreq : k.path.loader.state = .req → k.path.loader.isZeroPadR = false →
      ((k.path.loader.actLatched = true ∨ k.mem.actBuf.beRdAcceptR = false ∧ g.act = false) ∧
        (k.path.loader.wtLatched = true ∨ k.mem.wtRvalid = false ∧ g.wt = false)) ∧
      (k.step fe cmd c lat g).path.loader.isZeroPadR = false := by
    intro hs hz
    have hnext : (k.step fe cmd c lat g).path.loader = _ := loader_step fe cmd false g (.inl hs)
    rcases hload with ⟨hidle, -⟩ | hdone | ⟨-, -, hact, hwt, -⟩
    · exact absurd (hs.symm.trans hidle) (by simp)
    · exact absurd (hs.symm.trans hdone) (by simp)
    · exact ⟨⟨hact, hwt⟩, by rw [hnext]; exact hz⟩
  cases i with
  | out =>
      have hw : k.path.writer.state = .write := hi
      have hg : g.out = false := Bool.eq_false_iff.mpr fun hg ↦ hpost.write ⟨hw, hg⟩
      have hnext : (k.step fe cmd c lat g).path.writer.state =
          match k.path.writer.state with
          | .idle => if k.path.postproc.quant.valid && k.path.wrAddrQ.outValid then .write else .idle
          | .write => if k.path.writer.memReq && g.out then .ack else .write
          | .ack => .idle := rfl
      refine .inr ⟨hg, ?_, heq⟩
      change (k.step fe cmd c lat g).path.writer.state = .write
      rw [hnext, hw, hg]
      simp
  | act =>
      obtain ⟨hs, hz, hla, hra⟩ := hi
      obtain ⟨⟨hact, -⟩, hz'⟩ := hreq hs hz
      obtain ⟨-, hg⟩ : k.mem.actBuf.beRdAcceptR = false ∧ g.act = false :=
        hact.resolve_left (by simp [hla])
      have hnext : (k.step fe cmd c lat g).path.loader = _ := loader_step fe cmd false g (.inl hs)
      refine .inr ⟨hg, ⟨?_, hz', ?_, ?_⟩, heq⟩
      · rw [hnext]
        change k.path.loader.stateNext _ (k.path.loader.actMemReq && g.act) _ _ = .req
        simp [ConvLoader.stateNext, hs, hz, hla, hg]
      · rw [hnext]
        change (if k.mem.actBuf.beRdAcceptR && !k.path.loader.actLatched then true
          else k.path.loader.actLatched) = false
        rw [hra, hla]
        rfl
      · change (k.path.loader.actMemReq && g.act) = false
        rw [hg, Bool.and_false]
  | wt =>
      obtain ⟨hs, hz, hlw, hrw⟩ := hi
      obtain ⟨⟨-, hwt⟩, hz'⟩ := hreq hs hz
      obtain ⟨-, hg⟩ : k.mem.wtRvalid = false ∧ g.wt = false := hwt.resolve_left (by simp [hlw])
      have hnext : (k.step fe cmd c lat g).path.loader = _ := loader_step fe cmd false g (.inl hs)
      refine .inr ⟨hg, ⟨?_, hz', ?_, ?_⟩, heq⟩
      · rw [hnext]
        simp only [rsp_wt h.calm]
        change k.path.loader.stateNext _ _ (k.path.loader.wtMemReq && g.wt) _ = .req
        simp [ConvLoader.stateNext, hs, hz, hlw, hg]
      · rw [hnext]
        change (if k.mem.wtRvalid && !k.path.loader.wtLatched then true
          else k.path.loader.wtLatched) = false
        rw [hrw, hlw]
        rfl
      · rw [hwtnext, hg, Bool.and_false]

/-- Under grants that come again and again a job is written, as long as no
stalled result meets a clear. -/
theorem exists_complete {x : Sys (Mac F)} {gs : ℕ → Grants} (hF : Feeds fe cmd c lat Rest At)
    (hpos : c.Positive) (hq : Mac.Quiet Rest x) (hlog : x.log = []) (hfair : FairGrants gs)
    (D : Prop) (rd : ℕ → Byte)
    (hsm : ∀ t, Smooth (gs (t + 1)) (track fe cmd c lat gs x t).sys D
      (rd (track fe cmd c lat gs x t).taken)) :
    ∃ t, (track fe cmd c lat gs x t).sys.log.length = c.outs := by
  have hinv := fun t ↦ MacInv.track hF hpos hq hlog D rd t fun u _ ↦ hsm u
  obtain ⟨t, -, ht⟩ := Clocked.eventually_of_rank (x := track fe cmd c lat gs x) wellFounded_lt
    (Track.weight c.total lat) (fun k ↦ k.sys.log.length = c.outs) (fun i k ↦ k.Waits i)
    (fun i t ↦ (gs (t + 1)).port i) (fun i ↦ (hfair i).succ)
    (fun t hnot ↦ .inr ((hinv t).progress hF hpos |>.resolve_left hnot))
    (fun t i _ hi ↦ .inr ((hinv t).waits_step hF hi)) 0
  exact ⟨t, ht⟩

end

end LgNpu
