import LgNpu.Conv.AddrStream
import LgNpu.Mac.Flow

/-!
# The overflow guards of the address generator

`conv_addr_gen` asserts that the two indices it narrows to 16 bits fit.  The
weight index does unless the nest has no end.  The activation index of a padded
tap is computed like any other, from coordinates that have wrapped.
-/

namespace LgNpu

namespace ConvAddrIn

variable (i : ConvAddrIn)

def actIdx : BitVec 32 :=
  ((i.ihCalcW.setWidth 16).setWidth 32 * i.inW.setWidth 32 +
    (i.iwCalcW.setWidth 16).setWidth 32) * i.inC.setWidth 32 + i.c.setWidth 32

def wtIdx : BitVec 32 :=
  ((i.k.setWidth 32 * i.filtR.setWidth 32 + i.r.setWidth 32) * i.filtS.setWidth 32 +
    i.s.setWidth 32) * i.inC.setWidth 32 + i.c.setWidth 32

end ConvAddrIn

namespace ConvAddrGen

variable (s : ConvAddrGen)

/-- The indices in the stage that narrows them. -/
def actIdxS2 : BitVec 32 := s.actM2S2 + s.cS2.setWidth 32

def wtIdxS2 : BitVec 32 :=
  (s.wtM2S2 + s.sS2.setWidth 32) * s.inCS2.setWidth 32 + s.cS2.setWidth 32

def pActIdxNoOverflow : Prop := s.state = .stage2 → s.actIdxS2 < (1 : BitVec 32) <<< 16

def pWtIdxNoOverflow : Prop := s.state = .stage2 → s.wtIdxS2 < (1 : BitVec 32) <<< 16

/-- The stage ahead of the narrowing holds the indices of the tuple. -/
structure HoldsS1 (i : ConvAddrIn) : Prop where
  act : (s.actM1S1 + s.iwUS1.setWidth 32) * s.inCS1.setWidth 32 + s.cS1.setWidth 32 = i.actIdx
  wt : ((s.wtM1S1 + s.rS1.setWidth 32) * s.filtSS1.setWidth 32 + s.sS1.setWidth 32) *
    s.inCS1.setWidth 32 + s.cS1.setWidth 32 = i.wtIdx

/-- The narrowing stage holds the indices of the tuple. -/
structure HoldsS2 (i : ConvAddrIn) : Prop where
  act : s.actIdxS2 = i.actIdx
  wt : s.wtIdxS2 = i.wtIdx

variable {s}

theorem holdsS1_step {v : Bool} (h : s.taking v = true) (ready : Bool) (i : ConvAddrIn) :
    (s.step v ready i).state = .stage1 ∧ (s.step v ready i).HoldsS1 i := by
  obtain ⟨hs, hv⟩ := Bool.and_eq_true_iff.mp h
  refine ⟨by simp [step, of_decide_eq_true hs, hv], ?_, ?_⟩
  · simp [step, h, ConvAddrIn.actIdx]
  · simp [step, h, ConvAddrIn.wtIdx]

theorem HoldsS1.step {i : ConvAddrIn} (h : s.HoldsS1 i) (hs : s.state = .stage1)
    (v ready : Bool) (j : ConvAddrIn) :
    (s.step v ready j).state = .stage2 ∧ (s.step v ready j).HoldsS2 i := by
  refine ⟨by simp [ConvAddrGen.step, hs], ?_, ?_⟩
  · simpa [ConvAddrGen.step, actIdxS2, hs] using h.act
  · simpa [ConvAddrGen.step, wtIdxS2, hs] using h.wt

end ConvAddrGen

/-! ## The walk of a run -/

namespace ConvFront

variable {cmd : ConvCmd} {f : ConvFront} {i : ℕ}

theorem AtTap.addrIn_eq (h : AtTap cmd i f.ctrl) (hcmd : f.ctrl.cmdR = cmd) :
    f.addrIn = cmd.tapAt i := by
  simp [addrIn, ConvCmd.tapAt, hcmd, h.oh, h.ow, h.k, h.r, h.s, h.c]

theorem atTap_zero {s : ConvCtrl} (hs : s.state = .loadCfg) (v ready : Bool) :
    AtTap cmd 0 (s.step cmd v ready) := by
  constructor <;> simp [ConvCtrl.step, hs, ConvCmd.cAt, ConvCmd.sAt, ConvCmd.rAt, ConvCmd.elemAt,
    ConvCmd.kOf, ConvCmd.owOf, ConvCmd.ohOf]

/-- The controller and the stages stand at iterations that are reached. -/
structure Walks (cmd : ConvCmd) (f : ConvFront) : Prop where
  cmdR : f.ctrl.cmdR = cmd
  compute : f.ctrl.state = .compute → ∃ i, cmd.Reached i ∧ AtTap cmd i f.ctrl
  stage1 : f.addrGen.state = .stage1 → ∃ i, cmd.Reached i ∧ f.addrGen.HoldsS1 (cmd.tapAt i)
  stage2 : f.addrGen.state = .stage2 → ∃ i, cmd.Reached i ∧ f.addrGen.HoldsS2 (cmd.tapAt i)

theorem Rest.accept (h : Rest f) (cmd : ConvCmd) (ready : Bool) :
    (f.step cmd true ready).ctrl.cmdR = cmd ∧ (f.step cmd true ready).ctrl.state = .loadCfg ∧
      (f.step cmd true ready).addrGen.state = .idle := by
  refine ⟨?_, ?_, ?_⟩
  · simp [ConvFront.step, ConvCtrl.step, h.ctrl]
  · simp [ConvFront.step, ConvCtrl.step, LoopState.next, h.ctrl]
  · simp [ConvFront.step, ConvAddrGen.step, ConvCtrl.iterValid, h.ctrl, h.addrGen]

theorem Rest.walks (h : Rest f) (cmd : ConvCmd) (ready : Bool) :
    Walks cmd (f.step cmd true ready) := by
  obtain ⟨hcmd, hs, ha⟩ := h.accept cmd ready
  exact ⟨hcmd, fun hs' ↦ absurd (hs.symm.trans hs') (by simp),
    fun ha' ↦ absurd (ha.symm.trans ha') (by simp), fun ha' ↦ absurd (ha.symm.trans ha') (by simp)⟩

/-- An iteration that is taken leads to the next one that is reached. -/
theorem AtTap.compute_step (h : AtTap cmd i f.ctrl) (hcmd : f.ctrl.cmdR = cmd)
    (hs : f.ctrl.state = .compute) (ha : f.addrGen.state = .idle) (hi : cmd.Reached i)
    (ready : Bool) : (f.step cmd false ready).ctrl.state = .compute ↔ cmd.Reached (i + 1) := by
  have hlast := h.last_iff hcmd hi
  have hstep : (f.step cmd false ready).ctrl.state =
      if f.ctrl.innerLast && f.ctrl.outerLast then .drain else .compute := by
    simp [ConvFront.step, ConvCtrl.step, LoopState.next, ConvAddrGen.inReady, hs, ha]
  rw [hstep]
  by_cases hnext : cmd.Reached (i + 1)
  · have hne : (f.ctrl.innerLast && f.ctrl.outerLast) = false :=
      Bool.eq_false_iff.mpr fun hl ↦ hlast.mp hl hnext
    simp [hne, hnext]
  · simp [hlast.mpr hnext, hnext]

/-- While the stages are at work the controller stands still. -/
theorem ctrl_step_of_busy (hs : f.ctrl.state = .compute) (ha : f.addrGen.state ≠ .idle)
    (ready : Bool) : (f.step cmd false ready).ctrl = f.ctrl := by
  have hready : f.addrGen.inReady = false := decide_eq_false ha
  change f.ctrl.step cmd false f.addrGen.inReady = f.ctrl
  rw [hready]
  exact ConvCtrl.step_of_stalled (.inl hs)

theorem Walks.step (h : Walks cmd f) (ready : Bool) : Walks cmd (f.step cmd false ready) := by
  refine ⟨?_, fun hs' ↦ ?_, fun ha' ↦ ?_, fun ha' ↦ ?_⟩
  · simp [ConvFront.step, ConvCtrl.step, h.cmdR]
  · cases hs : f.ctrl.state with
    | loadCfg => exact ⟨0, ConvCmd.reached_zero, atTap_zero hs _ _⟩
    | compute =>
        obtain ⟨i, hi, hat⟩ := h.compute hs
        by_cases ha : f.addrGen.state = .idle
        · have hnext := (hat.compute_step h.cmdR hs ha hi ready).mp hs'
          have hready : f.addrGen.inReady = true := decide_eq_true ha
          refine ⟨i + 1, hnext, ?_⟩
          change AtTap cmd (i + 1) (f.ctrl.step cmd false f.addrGen.inReady)
          rw [hready]
          exact hat.advance h.cmdR hs hnext false
        · rw [ctrl_step_of_busy hs ha ready]
          exact ⟨i, hi, hat⟩
    | idle => simp [ConvFront.step, ConvCtrl.step, LoopState.next, hs] at hs'
    | drain =>
        cases hr : f.addrGen.inReady <;>
          simp [ConvFront.step, ConvCtrl.step, LoopState.next, hs, hr] at hs'
    | done => simp [ConvFront.step, ConvCtrl.step, LoopState.next, hs] at hs'
  · have htake : f.addrGen.taking f.ctrl.iterValid = true := by
      cases ha : f.addrGen.state <;> cases hv : f.ctrl.iterValid <;> cases hr : ready <;>
        simp_all [ConvFront.step, ConvAddrGen.step, ConvAddrGen.taking]
    obtain ⟨i, hi, hat⟩ := h.compute (of_decide_eq_true (Bool.and_eq_true_iff.mp htake).2)
    have hhold : (f.step cmd false ready).addrGen.HoldsS1 f.addrIn :=
      (ConvAddrGen.holdsS1_step htake ready f.addrIn).2
    rw [hat.addrIn_eq h.cmdR] at hhold
    exact ⟨i, hi, hhold⟩
  · have ha : f.addrGen.state = .stage1 := by
      cases ha : f.addrGen.state <;> cases hv : f.ctrl.iterValid <;> cases hr : ready <;>
        simp_all [ConvFront.step, ConvAddrGen.step]
    obtain ⟨i, hi, hhold⟩ := h.stage1 ha
    exact ⟨i, hi, (hhold.step ha _ _ _).2⟩

/-- The controller is at iteration `i`, with the address generator in state
`st`. -/
structure Stands (cmd : ConvCmd) (i : ℕ) (st : ConvAddrState) (f : ConvFront) : Prop where
  cmdR : f.ctrl.cmdR = cmd
  state : f.ctrl.state = .compute
  tap : AtTap cmd i f.ctrl
  addrGen : f.addrGen.state = st

theorem Stands.take (h : Stands cmd i .idle f) (hnext : cmd.Reached (i + 1)) (ready : Bool) :
    Stands cmd (i + 1) .stage1 (f.step cmd false ready) := by
  have hready : f.addrGen.inReady = true := decide_eq_true h.addrGen
  refine ⟨?_, (h.tap.compute_step h.cmdR h.state h.addrGen hnext.of_succ ready).mpr hnext, ?_, ?_⟩
  · simp [ConvFront.step, ConvCtrl.step, h.cmdR]
  · change AtTap cmd (i + 1) (f.ctrl.step cmd false f.addrGen.inReady)
    rw [hready]
    exact h.tap.advance h.cmdR h.state hnext false
  · simp [ConvFront.step, ConvAddrGen.step, ConvCtrl.iterValid, h.state, h.addrGen]

theorem Stands.step_of_busy {st st' : ConvAddrState} (h : Stands cmd i st f) (hne : st ≠ .idle)
    {ready : Bool} (hst : (f.step cmd false ready).addrGen.state = st') :
    Stands cmd i st' (f.step cmd false ready) := by
  have hctrl : (f.step cmd false ready).ctrl = f.ctrl :=
    ctrl_step_of_busy h.state (by rwa [h.addrGen]) ready
  exact ⟨hctrl ▸ h.cmdR, hctrl ▸ h.state, hctrl ▸ h.tap, hst⟩

theorem Stands.step_of_out (h : Stands cmd i .out f) (ready : Bool) :
    Stands cmd i (if ready then .idle else .out) (f.step cmd false ready) :=
  h.step_of_busy (by simp) (by simp [ConvFront.step, ConvAddrGen.step, h.addrGen])

end ConvFront

section Run

open ConvFront

variable {cmd : ConvCmd} {gs : ℕ → Grants} {x : Sys (Mac ConvFront)}

theorem walks_run (hrest : ConvFront.Rest x.be.front) (t : ℕ) :
    Walks cmd (convBackend.run cmd gs x (t + 1)).be.front :=
  run_induction convBackend cmd gs (fun y ↦ Walks cmd y.be.front) (hrest.walks cmd _)
    (fun _ _ h ↦ h.step _) t

/-- On any schedule the narrowing stage only holds iterations that are reached. -/
theorem exists_tap_of_stage2 (hrest : ConvFront.Rest x.be.front) {t : ℕ}
    (hs : (convBackend.run cmd gs x t).be.front.addrGen.state = .stage2) : ∃ i, cmd.Reached i ∧
      (convBackend.run cmd gs x t).be.front.addrGen.HoldsS2 (cmd.tapAt i) := by
  cases t with
  | zero => exact absurd (hrest.addrGen.symm.trans hs) (by simp)
  | succ t => exact (walks_run hrest t).stage2 hs

/-- On immediate grants every iteration that is reached is offered. -/
theorem exists_stands (hq : Mac.Quiet ConvFront.Rest x) {i : ℕ} (hi : cmd.Reached i) :
    ∃ t, Stands cmd i .idle (convBackend.run cmd (fun _ ↦ .all) x (t + 1)).be.front := by
  set y := convBackend.run cmd (fun _ ↦ .all) x with hy
  have hnext : ∀ t, (y (t + 2)).be.front =
      (y (t + 1)).be.front.step cmd false (y (t + 1)).be.path.loader.loadReady := fun _ ↦ rfl
  induction i with
  | zero =>
      obtain ⟨hcmd, hs, ha⟩ := hq.front.accept cmd x.be.path.loader.loadReady
      have hone : (y 1).be.front = x.be.front.step cmd true x.be.path.loader.loadReady := rfl
      rw [← hone] at hcmd hs ha
      refine ⟨1, ?_⟩
      rw [hnext 0]
      refine ⟨?_, ?_, atTap_zero hs _ _, ?_⟩
      · simp [ConvFront.step, ConvCtrl.step, hcmd]
      · simp [ConvFront.step, ConvCtrl.step, LoopState.next, hs]
      · simp [ConvFront.step, ConvAddrGen.step, ConvCtrl.iterValid, hs, ha]
  | succ i ih =>
      obtain ⟨t, h⟩ := ih hi.of_succ
      have h1 : Stands cmd (i + 1) .stage1 (y (t + 2)).be.front := h.take hi _
      have h2 : Stands cmd (i + 1) .stage2 (y (t + 3)).be.front :=
        h1.step_of_busy (by simp) (by simp [ConvFront.step, ConvAddrGen.step, h1.addrGen])
      have h3 : Stands cmd (i + 1) .stage3 (y (t + 4)).be.front :=
        h2.step_of_busy (by simp) (by simp [ConvFront.step, ConvAddrGen.step, h2.addrGen])
      have h4 : Stands cmd (i + 1) .out (y (t + 5)).be.front :=
        h3.step_of_busy (by simp) (by simp [ConvFront.step, ConvAddrGen.step, h3.addrGen])
      have hout : ∀ n, Stands cmd (i + 1) .out (y (n + 1)).be.front → Stands cmd (i + 1)
          (if (y (n + 1)).be.path.loader.loadReady then .idle else .out) (y (n + 2)).be.front :=
        fun n hn ↦ hn.step_of_out _
      have hready : ∃ n, t + 4 ≤ n ∧ (y (n + 1)).be.path.loader.loadReady = true := by
        obtain ⟨n, hn, hready⟩ := @Mac.Quiet.exists_loadReady _ _ convFront cmd x _ hq (t + 5)
        exact ⟨n - 1, by omega, by rwa [Nat.sub_add_cancel (by omega)]⟩
      obtain ⟨u, -, hu, hready⟩ := @Clocked.exists_until _ (fun n ↦ y (n + 1))
        (fun z ↦ Stands cmd (i + 1) .out z.be.front)
        (fun n ↦ (y (n + 1)).be.path.loader.loadReady = true) (t + 4) h4
        (fun n _ hn hnot ↦ by simpa only [if_neg hnot] using hout n hn) hready
      exact ⟨u + 1, by simpa only [if_pos hready] using hout u hu⟩

/-- Its indices come to the narrowing stage. -/
theorem exists_stage2_of_reached (hq : Mac.Quiet ConvFront.Rest x) {i : ℕ}
    (hi : cmd.Reached i) :
    ∃ t, (convBackend.run cmd (fun _ ↦ .all) x t).be.front.addrGen.state = .stage2 ∧
      (convBackend.run cmd (fun _ ↦ .all) x t).be.front.addrGen.HoldsS2 (cmd.tapAt i) := by
  obtain ⟨t, h⟩ := exists_stands hq hi
  set f := (convBackend.run cmd (fun _ ↦ .all) x (t + 1)).be.front with hf
  have htake : f.addrGen.taking f.ctrl.iterValid = true := by
    simp [ConvAddrGen.taking, ConvCtrl.iterValid, h.state, h.addrGen]
  obtain ⟨ready, hnext⟩ : ∃ ready,
      (convBackend.run cmd (fun _ ↦ .all) x (t + 2)).be.front.addrGen =
        f.addrGen.step f.ctrl.iterValid ready f.addrIn := ⟨_, rfl⟩
  rw [h.tap.addrIn_eq h.cmdR] at hnext
  obtain ⟨hs, hhold⟩ := ConvAddrGen.holdsS1_step htake ready (cmd.tapAt i)
  rw [← hnext] at hs hhold
  exact ⟨t + 3, hhold.step hs _ _ _⟩

end Run

/-! ## The indices -/

theorem toNat_wrap (v : ℤ) : ((BitVec.ofInt 17 v).setWidth 16).toNat = (v % 2 ^ 16).toNat := by
  rw [BitVec.toNat_setWidth, BitVec.toNat_ofInt]
  omega

theorem Dim.setWidth_eq_ofNat (d : Dim) : d.setWidth 32 = .ofNat 32 d.toNat :=
  (BitVec.ofNat_toNat 32 d).symm

namespace ConvAddrIn

variable (i : ConvAddrIn)

/-- The activation index, with the coordinates of the tap modulo `2 ^ 16`. -/
theorem toNat_actIdx : i.actIdx.toNat = (((i.ih % 2 ^ 16).toNat * i.inW.toNat +
    (i.iw % 2 ^ 16).toNat) * i.inC.toNat + i.c.toNat) % 2 ^ 32 := by
  rw [actIdx, Dim.setWidth_eq_ofNat, Dim.setWidth_eq_ofNat, Dim.setWidth_eq_ofNat,
    Dim.setWidth_eq_ofNat, Dim.setWidth_eq_ofNat, ihCalcW_eq, iwCalcW_eq, toNat_wrap, toNat_wrap,
    ← BitVec.ofNat_mul, ← BitVec.ofNat_add, ← BitVec.ofNat_mul, ← BitVec.ofNat_add,
    BitVec.toNat_ofNat]

theorem toNat_wtIdx : i.wtIdx.toNat = (((i.k.toNat * i.filtR.toNat + i.r.toNat) *
    i.filtS.toNat + i.s.toNat) * i.inC.toNat + i.c.toNat) % 2 ^ 32 := by
  rw [wtIdx, Dim.setWidth_eq_ofNat, Dim.setWidth_eq_ofNat, Dim.setWidth_eq_ofNat,
    Dim.setWidth_eq_ofNat, Dim.setWidth_eq_ofNat, Dim.setWidth_eq_ofNat, Dim.setWidth_eq_ofNat,
    ← BitVec.ofNat_mul, ← BitVec.ofNat_add, ← BitVec.ofNat_mul, ← BitVec.ofNat_add,
    ← BitVec.ofNat_mul, ← BitVec.ofNat_add, BitVec.toNat_ofNat]

end ConvAddrIn

namespace ConvCmd

variable (cmd : ConvCmd)

/-- A padded position is taken for one of the rows and columns modulo `2 ^ 16`,
and its channels still have indices below `2 ^ 16`. -/
def PaddingFits : Prop :=
  ∀ oh < cmd.ohSpan, ∀ ow < cmd.owSpan, ∀ r < cmd.rSpan, ∀ s < cmd.sSpan,
    ¬cmd.InMap (cmd.rowOf oh r) (cmd.colOf ow s) →
      ((cmd.rowOf oh r % 2 ^ 16).toNat * cmd.inW.toNat + (cmd.colOf ow s % 2 ^ 16).toNat) *
        cmd.inC.toNat % 2 ^ 32 + cmd.inC.toNat ≤ 2 ^ 16

instance : Decidable cmd.PaddingFits := by
  unfold PaddingFits
  infer_instance

/-- A nest without end walks over `2 ^ 16` weights at most. -/
def EndlessFits : Prop := ¬cmd.Looping → cmd.kSpan * cmd.rSpan * cmd.sSpan * cmd.cSpan ≤ 2 ^ 16

variable {cmd}

/-! A zero limit leaves one value to the indices outside it. -/

theorem kSpan_eq_one (h : cmd.inC.toNat * cmd.filtS.toNat * cmd.filtR.toNat = 0) :
    cmd.kSpan = 1 := span_of_zero h

theorem kSpan_mul_rSpan_eq_one (h : cmd.inC.toNat * cmd.filtS.toNat = 0) :
    cmd.kSpan * cmd.rSpan = 1 := by
  rw [kSpan_eq_one (by rw [h, Nat.zero_mul]), rSpan, span_of_zero h]

theorem kSpan_mul_rSpan_mul_sSpan_eq_one (h : 1 * cmd.inC.toNat = 0) :
    cmd.kSpan * cmd.rSpan * cmd.sSpan = 1 := by
  rw [Nat.one_mul] at h
  rw [kSpan_mul_rSpan_eq_one (by rw [h, Nat.zero_mul]), sSpan, span_of_zero h]

theorem Walked.weight_lt {oh ow k r s c : ℕ} (h : cmd.Walked oh ow k r s c) :
    ((k * cmd.filtR.toNat + r) * cmd.filtS.toNat + s) * cmd.inC.toNat + c <
      cmd.kSpan * cmd.rSpan * cmd.sSpan * cmd.cSpan :=
  join_lt_span (join_lt_span (join_lt_span h.k h.r kSpan_eq_one) h.s kSpan_mul_rSpan_eq_one) h.c
    kSpan_mul_rSpan_mul_sSpan_eq_one

/-- Every weight on the walk is asked for with the first output position. -/
theorem exists_walked_weight {n : ℕ} (hn : n < cmd.kSpan * cmd.rSpan * cmd.sSpan * cmd.cSpan) :
    ∃ k r s c, cmd.Walked 0 0 k r s c ∧
      ((k * cmd.filtR.toNat + r) * cmd.filtS.toNat + s) * cmd.inC.toNat + c = n := by
  obtain ⟨hrest, hc, hcJoin⟩ := split_digit hn kSpan_mul_rSpan_mul_sSpan_eq_one
  obtain ⟨hrest', hs, hsJoin⟩ := split_digit hrest kSpan_mul_rSpan_eq_one
  obtain ⟨hk, hr, hrJoin⟩ := split_digit hrest' kSpan_eq_one
  refine ⟨_, _, _, _, ⟨span_pos _ _, span_pos _ _, hk, hr, hs, hc⟩, ?_⟩
  rw [hrJoin, hsJoin, hcJoin]

theorem Looping.spans_eq (hp : cmd.Looping) : cmd.kSpan * cmd.rSpan * cmd.sSpan * cmd.cSpan =
    cmd.outK.toNat * cmd.filtR.toNat * cmd.filtS.toNat * cmd.inC.toNat := by
  have hinner : 0 < cmd.inC.toNat * cmd.filtS.toNat := Nat.mul_pos hp.c hp.s
  rw [kSpan, span_of_pos (Nat.mul_pos hinner hp.r) hp.k, rSpan, span_of_pos hinner hp.r, sSpan,
    span_of_pos hp.c hp.s, cSpan, span_of_pos Nat.one_pos hp.c]

/-- All weight indices are below `2 ^ 16` if the nest ends. -/
theorem wtIdx_lt_iff
    (hsize : cmd.outK.toNat * cmd.filtR.toNat * cmd.filtS.toNat * cmd.inC.toNat ≤ 2 ^ 16) :
    (∀ i, cmd.Reached i → (cmd.tapAt i).wtIdx.toNat < 2 ^ 16) ↔ cmd.EndlessFits := by
  constructor
  · intro h _
    by_contra hlt
    obtain ⟨k, r, s, c, hwalk, hn⟩ := exists_walked_weight (Nat.lt_of_not_le hlt)
    obtain ⟨i, hi, -, -, rfl, rfl, rfl, rfl⟩ := hwalk.exists_iteration
    have hidx := h i hi
    rw [ConvAddrIn.toNat_wtIdx] at hidx
    change (((_ * cmd.filtR.toNat + _) * cmd.filtS.toNat + _) * cmd.inC.toNat + _) % _ < _ at hidx
    rw [hn] at hidx
    omega
  · intro h i hi
    have hspan : cmd.kSpan * cmd.rSpan * cmd.sSpan * cmd.cSpan ≤ 2 ^ 16 := by
      by_cases hp : cmd.Looping
      · exact hp.spans_eq.trans_le hsize
      · exact h hp
    rw [ConvAddrIn.toNat_wtIdx]
    exact (Nat.mod_le _ _).trans_lt (hi.walked.weight_lt.trans_le hspan)

/-- A tap inside the map has one of the map's indices. -/
theorem InMap.idx_lt {ih iw : ℤ} (h : cmd.InMap ih iw) {c : ℕ} (hc : c < cmd.inC.toNat) :
    ((ih % 2 ^ 16).toNat * cmd.inW.toNat + (iw % 2 ^ 16).toNat) * cmd.inC.toNat + c <
      cmd.inH.toNat * cmd.inW.toNat * cmd.inC.toNat := by
  obtain ⟨hr0, hr, hc0, hcol⟩ := h
  have hinH := cmd.inH.isLt
  have hinW := cmd.inW.isLt
  exact LoopNest.rowMajor_lt (by omega) (by omega) hc

/-- The channels of a position have consecutive indices. -/
theorem channels_fit_iff {n c : ℕ} (hpos : 0 < c) (hc : c < 2 ^ 16) :
    (∀ j < c, (n + j) % 2 ^ 32 < 2 ^ 16) ↔ n % 2 ^ 32 + c ≤ 2 ^ 16 := by
  constructor
  · intro h
    have hfirst := h 0 hpos
    have hlast := h (c - 1) (by omega)
    omega
  · intro h j hj
    omega

/-- All activation indices are below `2 ^ 16` exactly if those of the padded
taps are. -/
theorem actIdx_lt_iff (hsize : cmd.inH.toNat * cmd.inW.toNat * cmd.inC.toNat ≤ 2 ^ 16) :
    (∀ i, cmd.Reached i → (cmd.tapAt i).actIdx.toNat < 2 ^ 16) ↔ cmd.PaddingFits := by
  constructor
  · intro h oh hoh ow how r hr s hs _
    rcases Nat.eq_zero_or_pos cmd.inC.toNat with hzero | hpos
    · simp [hzero]
    refine (channels_fit_iff hpos cmd.inC.isLt).mp fun c hc ↦ ?_
    have hspan : c < cmd.cSpan := hc.trans_eq (span_of_pos Nat.one_pos hpos).symm
    obtain ⟨i, hi, rfl, rfl, -, rfl, rfl, rfl⟩ := Walked.exists_iteration
      (⟨hoh, how, span_pos _ _, hr, hs, hspan⟩ : cmd.Walked oh ow 0 r s c)
    exact (cmd.tapAt i).toNat_actIdx ▸ h i hi
  · intro h i hi
    have hwalk := hi.walked
    rw [ConvAddrIn.toNat_actIdx]
    change (((cmd.rowOf _ _ % 2 ^ 16).toNat * cmd.inW.toNat + (cmd.colOf _ _ % 2 ^ 16).toNat) *
      cmd.inC.toNat + (cmd.tapAt i).c.toNat) % 2 ^ 32 < 2 ^ 16
    rcases Nat.eq_zero_or_pos cmd.inC.toNat with hzero | hpos
    · rw [hzero, Nat.mul_zero, Nat.zero_add]
      exact (Nat.mod_le _ _).trans_lt (cmd.tapAt i).c.isLt
    have hc := hwalk.c.trans_eq (span_of_pos Nat.one_pos hpos)
    by_cases hin : cmd.InMap (cmd.rowOf (cmd.tapAt i).oh.toNat (cmd.tapAt i).r.toNat)
        (cmd.colOf (cmd.tapAt i).ow.toNat (cmd.tapAt i).s.toNat)
    · exact (Nat.mod_le _ _).trans_lt ((hin.idx_lt hc).trans_le hsize)
    · exact (channels_fit_iff hpos cmd.inC.isLt).mpr
        (h _ hwalk.oh _ hwalk.ow _ hwalk.r _ hwalk.s hin) _ hc

/-- Without padding no window leaves the map. -/
theorem PaddingFits.of_unpadded (hh : cmd.padH = 0) (hw : cmd.padW = 0)
    (hoh : 0 < cmd.outH.toNat) (how : 0 < cmd.outW.toNat) (hr : 0 < cmd.filtR.toNat)
    (hs : 0 < cmd.filtS.toNat)
    (hrows : (cmd.outH.toNat - 1) * cmd.strideH.toNat + cmd.filtR.toNat ≤ cmd.inH.toNat)
    (hcols : (cmd.outW.toNat - 1) * cmd.strideW.toNat + cmd.filtS.toNat ≤ cmd.inW.toNat) :
    cmd.PaddingFits := by
  have hcoord : ∀ {o n stride f filt d : ℕ}, (n - 1) * stride + filt ≤ d → o < n → f < filt →
      0 ≤ coordOf o stride f 0 ∧ coordOf o stride f 0 < d := by
    intro o n stride f filt d hfit ho hf
    have hmul : o * stride ≤ (n - 1) * stride := Nat.mul_le_mul_right stride (by omega)
    rw [coordOf, ← Nat.cast_mul]
    omega
  have hlt : ∀ {x inner : ℕ} {d : Dim}, 0 < d.toNat → x < span inner d → x < d.toNat :=
    fun hd hx ↦ (hx.trans_le (span_le_limitDim _ _)).trans_eq (limitDim_of_pos hd)
  intro oh hoh' ow how' r hr' s hs' hout
  refine absurd ?_ hout
  rw [InMap, rowOf, colOf, hh, hw, ← and_assoc]
  exact ⟨hcoord hrows (hlt hoh hoh') (hlt hr hr'), hcoord hcols (hlt how how') (hlt hs hs')⟩

end ConvCmd

/-! ## The guards -/

def Guarded (x : Sys (Mac ConvFront)) : Prop :=
  x.be.front.addrGen.pActIdxNoOverflow ∧ x.be.front.addrGen.pWtIdxNoOverflow

instance (x : Sys (Mac ConvFront)) : Decidable (Guarded x) := by
  unfold Guarded ConvAddrGen.pActIdxNoOverflow ConvAddrGen.pWtIdxNoOverflow
  infer_instance

/-- On tensors that fit, neither guard fires in any cycle of any run exactly if
the padded positions are taken for ones with small indices and, where a nest
has no end, the weights it walks over fit as well. -/
theorem guards_hold_iff {cmd : ConvCmd} {x : Sys (Mac ConvFront)}
    (hmap : cmd.inH.toNat * cmd.inW.toNat * cmd.inC.toNat ≤ 2 ^ 16)
    (hwt : cmd.outK.toNat * cmd.filtR.toNat * cmd.filtS.toNat * cmd.inC.toNat ≤ 2 ^ 16)
    (hq : Mac.Quiet ConvFront.Rest x) :
    (∀ gs t, Guarded (convBackend.run cmd gs x t)) ↔ cmd.PaddingFits ∧ cmd.EndlessFits := by
  have hlimit : ∀ v : BitVec 32, v < (1 : BitVec 32) <<< 16 ↔ v.toNat < 2 ^ 16 := fun v ↦ by
    rw [BitVec.lt_def]
    rfl
  rw [← ConvCmd.actIdx_lt_iff hmap, ← ConvCmd.wtIdx_lt_iff hwt]
  constructor
  · intro h
    constructor
    · intro i hi
      obtain ⟨t, hs, hhold⟩ := exists_stage2_of_reached hq hi
      rw [← hhold.act, ← hlimit]
      exact (h _ t).1 hs
    · intro i hi
      obtain ⟨t, hs, hhold⟩ := exists_stage2_of_reached hq hi
      rw [← hhold.wt, ← hlimit]
      exact (h _ t).2 hs
  · rintro ⟨hact, hwt'⟩ gs t
    constructor
    · intro hs
      obtain ⟨i, hi, hhold⟩ := exists_tap_of_stage2 hq.front hs
      rw [hhold.act, hlimit]
      exact hact i hi
    · intro hs
      obtain ⟨i, hi, hhold⟩ := exists_tap_of_stage2 hq.front hs
      rw [hhold.wt, hlimit]
      exact hwt' i hi

/-- Three taps on a padded column: `-1` is taken for row 65535, the last one
there is. -/
def columnConv : ConvCmd := ⟨0, 0, 64, 0, 32, 4, 1, 1, 1, 3, 1, 1, 1, 1, 0, 4, 1, 0, 0⟩

theorem guards_hold_columnConv : columnConv.PaddingFits ∧
    Guarded (convBackend.run columnConv (fun _ ↦ .all)
      (.reset ⟨.reset, .reset⟩ (fun _ ↦ 1) fun _ ↦ 1) 4) := by
  have hfits : columnConv.PaddingFits := by decide
  have hloop : columnConv.Looping := ⟨by decide, by decide, by decide, by decide⟩
  refine ⟨hfits, ?_⟩
  exact (@guards_hold_iff columnConv (.reset ⟨.reset, .reset⟩ (fun _ ↦ 1) fun _ ↦ 1)
    (by decide) (by decide) ⟨⟨rfl, rfl⟩, MacPath.quiet_reset, rfl⟩).mpr
      ⟨hfits, fun hne ↦ absurd hloop hne⟩ _ 4

/-- A 3 × 3 filter on a padded 3 × 3 map. -/
def sameConv : ConvCmd := ⟨0, 0, 64, 0, 32, 3, 3, 1, 1, 3, 3, 1, 1, 1, 1, 3, 3, 0, 0⟩

/-- The first tap is at `(-1, -1)` and has index `65535 * 3 + 65535`. -/
theorem not_guards_hold_sameConv :
    sameConv.inH.toNat * sameConv.inW.toNat * sameConv.inC.toNat ≤ 2 ^ 16 ∧
      sameConv.outK.toNat * sameConv.filtR.toNat * sameConv.filtS.toNat *
        sameConv.inC.toNat ≤ 2 ^ 16 ∧
      ¬∀ gs t, Guarded (convBackend.run sameConv gs
        (.reset ⟨.reset, .reset⟩ (fun _ ↦ 1) fun _ ↦ 1) t) := by
  refine ⟨by decide, by decide, fun h ↦ ?_⟩
  exact absurd (h (fun _ ↦ .all) 4) (by decide +kernel)

end LgNpu
