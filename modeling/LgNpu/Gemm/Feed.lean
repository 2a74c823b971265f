import LgNpu.Gemm.Ctrl

/-!
# The GEMM front end as a feed

The loop registers are the digits of the iteration index, and the address
generator holds one iteration at a time: the front end moves as the feed of the
command's job, with addresses two edges after the iteration is taken.
-/

namespace LgNpu

theorem GemmCtrl.step_of_stalled {s : GemmCtrl} {cmd : GemmCmd} {v : Bool}
    (hs : s.state = .compute ∨ s.state = .drain) :
    s.step cmd v false = s := by
  obtain ⟨state, cmdR, mR, nR, kR⟩ := s
  rcases hs with rfl | rfl <;> simp [GemmCtrl.step, GemmCtrl.advance, LoopState.next]

namespace GemmFront

variable (cmd : GemmCmd)

/-- The loop registers stand at iteration `i`. -/
structure AtIndex (i : ℕ) (s : GemmCtrl) : Prop where
  m : s.mR.toNat = cmd.mAt i
  n : s.nR.toNat = cmd.nAt i
  k : s.kR.toNat = cmd.kAt i

/-- The controller once iteration `i` is taken. -/
inductive Past (i : ℕ) (s : GemmCtrl) : Prop
  | more (hs : s.state = .compute) (hlt : i + 1 < cmd.job.total) (hidx : AtIndex cmd (i + 1) s)
  | last (hs : s.state = .drain) (hend : i + 1 = cmd.job.total)

/-- The address generator holds iteration `i`, with so many edges to go. -/
inductive Addrs (i : ℕ) : ℕ → GemmAddrGen → Prop
  | stage1 {s : GemmAddrGen} (hs : s.state = .stage1)
      (ha : s.aBaseS1 + (s.aMulS1 + s.kS1.setWidth 32).setWidth 16 = cmd.job.actAddr i)
      (hb : s.bBaseS1 + (s.bMulS1 + s.nS1.setWidth 32).setWidth 16 = cmd.job.wtAddr i) :
      Addrs i 1 s
  | out {s : GemmAddrGen} (hs : s.state = .out) (ha : s.aAddrR = cmd.job.actAddr i)
      (hb : s.bAddrR = cmd.job.wtAddr i) : Addrs i 0 s

structure Meta (i : ℕ) (s : GemmFront) : Prop where
  last : s.lastInnerIterR = cmd.job.lastAt i
  clr : s.accClrIterR = cmd.job.clrAt i
  wrAddr : cmd.job.lastAt i = true → s.wrAddrIterR = cmd.job.wrAddr (i / cmd.job.its)
  biasAddr : cmd.job.lastAt i = true → s.biasAddrIterR = cmd.job.biasAddr (i / cmd.job.its)

inductive At : Feed → GemmFront → Prop
  | cfg {s : GemmFront} (hcmd : s.ctrl.cmdR = cmd) (hs : s.ctrl.state = .loadCfg)
      (ha : s.addrGen.state = .idle) : At .cfg s
  | free {s : GemmFront} {i : ℕ} (hcmd : s.ctrl.cmdR = cmd) (hs : s.ctrl.state = .compute)
      (ha : s.addrGen.state = .idle) (hidx : AtIndex cmd i s.ctrl) : At (.free i) s
  | computing {s : GemmFront} {i k : ℕ} (hcmd : s.ctrl.cmdR = cmd) (hpast : Past cmd i s.ctrl)
      (haddrs : Addrs cmd i k s.addrGen) (hmeta : Meta cmd i s) : At (.computing i k) s
  | drain {s : GemmFront} (hcmd : s.ctrl.cmdR = cmd) (hs : s.ctrl.state = .drain)
      (ha : s.addrGen.state = .idle) : At .drain s
  | done {s : GemmFront} (hcmd : s.ctrl.cmdR = cmd) (hs : s.ctrl.state = .done)
      (ha : s.addrGen.state = .idle) : At .done s
  | idle {s : GemmFront} (hcmd : s.ctrl.cmdR = cmd) (hs : s.ctrl.state = .idle)
      (ha : s.addrGen.state = .idle) : At .idle s

structure Rest (s : GemmFront) : Prop where
  ctrl : s.ctrl.state = .idle
  addrGen : s.addrGen.state = .idle

variable {cmd} {i : ℕ} {s : GemmCtrl}

/-! ## The loop registers -/

section Index

variable (hcmd : s.cmdR = cmd) (hp : cmd.Positive)
include hcmd hp

theorem lastK_iff : s.lastK = true ↔ s.kR.toNat + 1 = cmd.kDim.toNat := by
  rw [GemmCtrl.lastK, hcmd]
  exact eqLast_iff hp.k

theorem lastN_iff : s.lastN = true ↔ s.nR.toNat + 1 = cmd.nDim.toNat := by
  rw [GemmCtrl.lastN, hcmd]
  exact eqLast_iff hp.n

theorem AtIndex.innerLast_eq (h : AtIndex cmd i s) : s.innerLast = cmd.job.lastAt i := by
  apply Bool.eq_iff_iff.mpr
  rw [GemmCtrl.innerLast, lastK_iff hcmd hp, h.k, MacJob.lastAt, decide_eq_true_eq]
  exact (LoopNest.succ_mod_eq_zero_iff hp.k).symm

theorem AtIndex.last_iff (h : AtIndex cmd i s) :
    (s.innerLast && s.outerLast) = true ↔ i + 1 = cmd.job.total := by
  have hm : eqLast s.mR s.cmdR.mDim = true ↔ s.mR.toNat + 1 = cmd.mDim.toNat := by
    rw [hcmd]
    exact eqLast_iff hp.m
  rw [GemmCtrl.innerLast, GemmCtrl.outerLast, Bool.and_eq_true, Bool.and_eq_true,
    lastK_iff hcmd hp, lastN_iff hcmd hp, hm, h.m, h.n, h.k]
  change _ ↔ i + 1 = cmd.mDim.toNat * cmd.nDim.toNat * cmd.kDim.toNat
  rw [LoopNest.last_iff hp.k, LoopNest.last_iff hp.n, and_comm]
  rfl

theorem AtIndex.advance (h : AtIndex cmd i s) (hs : s.state = .compute)
    (hlt : i + 1 < cmd.job.total) (v : Bool) : AtIndex cmd (i + 1) (s.step cmd v true) := by
  have hlast : ltLast s.mR s.cmdR.mDim = decide (s.mR.toNat + 1 < cmd.mDim.toNat) := by
    apply Bool.eq_iff_iff.mpr
    rw [hcmd, ltLast_iff hp.m, decide_eq_true_eq]
  have hkR : (s.step cmd v true).kR = if true then (if s.lastK then 0 else s.kR + 1) else s.kR := by
    simp [GemmCtrl.step, GemmCtrl.advance, hs]
  have hnR : (s.step cmd v true).nR =
      if s.lastK then (if s.lastN then 0 else s.nR + 1) else s.nR := by
    simp [GemmCtrl.step, GemmCtrl.advance, hs]
  have hmR : (s.step cmd v true).mR =
      if (s.lastK && s.lastN) && decide (s.mR.toNat + 1 < cmd.mDim.toNat) then s.mR + 1
      else s.mR := by
    rw [← hlast]
    simp [GemmCtrl.step, GemmCtrl.advance, hs]
  have hin : i + true.toNat = i + 1 := rfl
  obtain ⟨hk, hcarryK⟩ := digit_step h.k hp.k cmd.kDim.isLt.le (lastK_iff hcmd hp) hin.symm hkR
  obtain ⟨hn, hcarryN⟩ := digit_step h.n hp.n cmd.nDim.isLt.le (lastN_iff hcmd hp)
    (by simpa using hcarryK) hnR
  have hm := outermost_step h.m cmd.mDim.isLt.le (hcarryN ▸
    LoopNest.div_lt_of_lt_mul (LoopNest.div_lt_of_lt_mul hlt)) hmR
  exact ⟨hm.trans hcarryN.symm, hn, hk⟩

end Index

theorem AtIndex.accClr_eq (h : AtIndex cmd i s) (hs : s.state = .compute) :
    s.accClr = cmd.job.clrAt i := by
  have hk : s.kR = 0 ↔ i % cmd.kDim.toNat = 0 := by
    rw [← GemmCmd.kAt, ← h.k]
    exact BitVec.toNat_inj.symm
  simp only [GemmCtrl.accClr, hs, decide_true, Bool.true_and, MacJob.clrAt]
  exact decide_eq_decide.mpr hk

/-! ## One edge -/

section Step

variable {f : GemmFront} (hcmd : f.ctrl.cmdR = cmd) (ready : Bool)
include hcmd

theorem accept_step (hp : cmd.Positive) (hs : f.ctrl.state = .compute)
    (ha : f.addrGen.state = .idle) (hidx : AtIndex cmd i f.ctrl) (hlt : i < cmd.job.total) :
    At cmd (.computing i 1) (f.step cmd false ready) := by
  have hacc : f.iterAccept = true := by
    simp [iterAccept, GemmCtrl.iterValid, GemmAddrGen.inReady, hs, ha]
  have hctrl : (f.step cmd false ready).ctrl = f.ctrl.step cmd false true := by
    simp [step, GemmAddrGen.inReady, ha]
  have hkeep : (f.step cmd false ready).ctrl.cmdR = cmd := by
    simp [step, GemmCtrl.step, hcmd]
  have hlast := hidx.last_iff hcmd hp
  have hm := eq_ofNat_of_toNat hidx.m
  have hn := eq_ofNat_of_toNat hidx.n
  have hk := eq_ofNat_of_toNat hidx.k
  refine .computing hkeep ?_ (.stage1 ?_ ?_ ?_) ⟨?_, ?_, ?_, ?_⟩
  · rw [hctrl]
    by_cases hmore : i + 1 = cmd.job.total
    · apply Past.last _ hmore
      simp [GemmCtrl.step, LoopState.next, hs, hlast.mpr hmore]
    · have hnot : (f.ctrl.innerLast && f.ctrl.outerLast) = false :=
        Bool.eq_false_iff.mpr fun h ↦ hmore (hlast.mp h)
      apply Past.more _ (by omega) (hidx.advance hcmd hp hs (by omega) false)
      simp [GemmCtrl.step, LoopState.next, hs, hnot]
  · simp [step, GemmAddrGen.step, GemmCtrl.iterValid, hs, ha]
  · simp [step, GemmAddrGen.step, GemmAddrGen.taking, GemmCtrl.iterValid, hs, ha, hcmd,
      GemmCmd.job, hm, hk, BitVec.setWidth_add, BitVec.setWidth_mul]
  · simp [step, GemmAddrGen.step, GemmAddrGen.taking, GemmCtrl.iterValid, hs, ha, hcmd,
      GemmCmd.job, hn, hk, BitVec.setWidth_add, BitVec.setWidth_mul]
  · simp only [step, hacc, if_true]
    exact hidx.innerLast_eq hcmd hp
  · simp only [step, hacc, if_true]
    exact hidx.accClr_eq hs
  · intro hl
    simp only [step, hacc, hidx.innerLast_eq hcmd hp, hl, Bool.and_self, if_true, hcmd, hm, hn]
    rfl
  · intro hl
    simp only [step, hacc, hidx.innerLast_eq hcmd hp, hl, Bool.and_self, if_true, hcmd, hm, hn]
    rfl

/-- With an iteration in the address generator the controller stands still. -/
theorem ctrl_step (hbusy : f.addrGen.state ≠ .idle) (hpast : Past cmd i f.ctrl) :
    Past cmd i (f.step cmd false ready).ctrl ∧ (f.step cmd false ready).ctrl.cmdR = cmd := by
  have hctrl : (f.step cmd false ready).ctrl = f.ctrl.step cmd false false := by
    simp [step, GemmAddrGen.inReady, hbusy]
  have hs : f.ctrl.state = .compute ∨ f.ctrl.state = .drain := by
    cases hpast with
    | more hs => exact .inl hs
    | last hs => exact .inr hs
  rw [hctrl, GemmCtrl.step_of_stalled hs]
  exact ⟨hpast, hcmd⟩

omit hcmd in
theorem meta_step (hbusy : f.addrGen.state ≠ .idle) (hmeta : Meta cmd i f) :
    Meta cmd i (f.step cmd false ready) := by
  have hacc : f.iterAccept = false := by simp [iterAccept, GemmAddrGen.inReady, hbusy]
  refine ⟨?_, ?_, ?_, ?_⟩ <;> simp only [step, hacc, Bool.false_and, Bool.false_eq_true, if_false]
  · exact hmeta.last
  · exact hmeta.clr
  · exact hmeta.wrAddr
  · exact hmeta.biasAddr

end Step

variable {f : GemmFront}

theorem At.step (hp : cmd.Positive) {p : Feed} (hw : p.Within cmd.job.total) (h : At cmd p f)
    (ready : Bool) : At cmd (p.step cmd.job.total 2 ready) (f.step cmd false ready) := by
  cases h with
  | cfg hcmd hs ha =>
      refine .free ?_ ?_ ?_ ⟨?_, ?_, ?_⟩
      · simp [GemmFront.step, GemmCtrl.step, hcmd]
      · simp [GemmFront.step, GemmCtrl.step, LoopState.next, hs]
      · simp [GemmFront.step, GemmAddrGen.step, GemmCtrl.iterValid, hs, ha]
      all_goals simp [GemmFront.step, GemmCtrl.step, GemmCmd.mAt, GemmCmd.nAt, GemmCmd.kAt, hs]
  | free hcmd hs ha hidx => exact accept_step hcmd ready hp hs ha hidx hw
  | computing hcmd hpast haddrs hmeta =>
      cases haddrs with
      | stage1 hs ha hb =>
          have hbusy : f.addrGen.state ≠ .idle := by simp [hs]
          obtain ⟨hpast', hcmd'⟩ := ctrl_step hcmd ready hbusy hpast
          refine .computing hcmd' hpast' (.out ?_ ?_ ?_) (meta_step ready hbusy hmeta)
          · simp [GemmFront.step, GemmAddrGen.step, hs]
          · simp [GemmFront.step, GemmAddrGen.step, hs, ha]
          · simp [GemmFront.step, GemmAddrGen.step, hs, hb]
      | out hs ha hb =>
          have hbusy : f.addrGen.state ≠ .idle := by simp [hs]
          obtain ⟨hpast', hcmd'⟩ := ctrl_step hcmd ready hbusy hpast
          cases ready with
          | false =>
              refine .computing hcmd' hpast' (.out ?_ ?_ ?_) (meta_step false hbusy hmeta)
              · simp [GemmFront.step, GemmAddrGen.step, hs]
              · simp [GemmFront.step, GemmAddrGen.step, hs, ha]
              · simp [GemmFront.step, GemmAddrGen.step, hs, hb]
          | true =>
              have hidle : (f.step cmd false true).addrGen.state = .idle := by
                simp [GemmFront.step, GemmAddrGen.step, hs]
              simp only [Feed.step, if_true]
              cases hpast' with
              | more hs' hlt hidx =>
                  rw [if_pos hlt]
                  exact .free hcmd' hs' hidle hidx
              | last hs' hend =>
                  rw [if_neg hend.not_lt]
                  exact .drain hcmd' hs' hidle
  | drain hcmd hs ha =>
      apply At.done
      · simp [GemmFront.step, GemmCtrl.step, hcmd]
      · simp [GemmFront.step, GemmCtrl.step, LoopState.next, GemmAddrGen.inReady, hs, ha]
      · simp [GemmFront.step, GemmAddrGen.step, GemmCtrl.iterValid, hs, ha]
  | done hcmd hs ha =>
      apply At.idle
      · simp [GemmFront.step, GemmCtrl.step, hcmd]
      · simp [GemmFront.step, GemmCtrl.step, LoopState.next, hs]
      · simp [GemmFront.step, GemmAddrGen.step, GemmCtrl.iterValid, hs, ha]
  | idle hcmd hs ha =>
      apply At.idle
      · simp [GemmFront.step, GemmCtrl.step, hcmd]
      · simp [GemmFront.step, GemmCtrl.step, LoopState.next, hs]
      · simp [GemmFront.step, GemmAddrGen.step, GemmCtrl.iterValid, hs, ha]

/-- The front end hands over the iterations of the command's job. -/
theorem feeds (hp : cmd.Positive) : Feeds gemmFront cmd cmd.job 2 Rest (At cmd) where
  rest_ready f h := by simp [gemmFront, h.ctrl]
  rest_valid f h := by simp [gemmFront, GemmAddrGen.outValid, h.addrGen]
  rest_done f h := by simp [gemmFront, h.ctrl]
  rest_busy f h := by simp [gemmFront, h.ctrl]
  rest_step f ready h := by
    constructor
    · simp [gemmFront, step, GemmCtrl.step, LoopState.next, h.ctrl]
    · simp [gemmFront, step, GemmAddrGen.step, GemmCtrl.iterValid, h.ctrl, h.addrGen]
  accept f ready h := by
    apply At.cfg
    · simp [gemmFront, step, GemmCtrl.step, h.ctrl]
    · simp [gemmFront, step, GemmCtrl.step, LoopState.next, h.ctrl]
    · simp [gemmFront, step, GemmAddrGen.step, GemmCtrl.iterValid, h.ctrl, h.addrGen]
  rest f h := by
    cases h with
    | idle _ hs ha => exact ⟨hs, ha⟩
  step p f ready hw h := h.step hp hw ready
  valid p f h := by
    cases h with
    | computing _ _ haddrs _ =>
        cases haddrs with
        | stage1 hs => simp [gemmFront, GemmAddrGen.outValid, Feed.valid, hs]
        | out hs => simp [gemmFront, GemmAddrGen.outValid, Feed.valid, hs]
    | cfg _ _ ha => simp [gemmFront, GemmAddrGen.outValid, Feed.valid, ha]
    | free _ _ ha _ => simp [gemmFront, GemmAddrGen.outValid, Feed.valid, ha]
    | drain _ _ ha => simp [gemmFront, GemmAddrGen.outValid, Feed.valid, ha]
    | done _ _ ha => simp [gemmFront, GemmAddrGen.outValid, Feed.valid, ha]
    | idle _ _ ha => simp [gemmFront, GemmAddrGen.outValid, Feed.valid, ha]
  offers i f h := by
    cases h with
    | computing _ _ haddrs hmeta =>
        cases haddrs with
        | out _ ha hb => exact ⟨ha, hb, rfl, hmeta.last, hmeta.clr, hmeta.wrAddr, hmeta.biasAddr⟩
  quantShift p f h := by cases h <;> simp_all [gemmFront, GemmCmd.job]
  actMode p f h := by cases h <;> simp_all [gemmFront, GemmCmd.job]
  ctrlDone p f h := by
    cases h with
    | computing _ hpast _ _ => cases hpast <;> simp_all [gemmFront]
    | _ => simp_all [gemmFront]
  ctrlBusy p f h := by
    cases h with
    | computing _ hpast _ _ => cases hpast <;> simp_all [gemmFront]
    | _ => simp_all [gemmFront]

end GemmFront

end LgNpu
