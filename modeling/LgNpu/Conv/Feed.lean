import LgNpu.Conv.Walk

/-!
# The convolution front end as a feed

The loop registers are the digits of the iteration index, the four stages of the
address generator carry one iteration, and the write address counts the
elements begun: the front end moves as the feed of the command's job, with
addresses four edges after the iteration is taken.
-/

namespace LgNpu

theorem ConvCtrl.step_of_stalled {s : ConvCtrl} {cmd : ConvCmd} {v : Bool}
    (hs : s.state = .compute ∨ s.state = .drain) : s.step cmd v false = s := by
  obtain ⟨state, cmdR, ohR, owR, kR, rR, sR, cR⟩ := s
  rcases hs with rfl | rfl <;>
    simp [ConvCtrl.step, ConvCtrl.stepOh, ConvCtrl.stepOw, ConvCtrl.stepK, ConvCtrl.stepR,
      ConvCtrl.stepS, ConvCtrl.stepC, ConvCtrl.advance, LoopState.next]

namespace ConvFront

variable (cmd : ConvCmd)

/-- The loop registers stand at iteration `i`. -/
structure AtIndex (i : ℕ) (ctrl : ConvCtrl) : Prop where
  oh : ctrl.ohR.toNat = cmd.ohOf (cmd.elemAt i)
  ow : ctrl.owR.toNat = cmd.owOf (cmd.elemAt i)
  k : ctrl.kR.toNat = cmd.kOf (cmd.elemAt i)
  r : ctrl.rR.toNat = cmd.rAt i
  s : ctrl.sR.toNat = cmd.sAt i
  c : ctrl.cR.toNat = cmd.cAt i

/-- The controller once iteration `i` is taken. -/
inductive Past (i : ℕ) (s : ConvCtrl) : Prop
  | more (hs : s.state = .compute) (hlt : i + 1 < cmd.job.total) (hidx : AtIndex cmd (i + 1) s)
  | last (hs : s.state = .drain) (hend : i + 1 = cmd.job.total)

/-- The address generator holds iteration `i`, with so many edges to go. -/
inductive Addrs (i : ℕ) : ℕ → ConvAddrGen → Prop
  | stage1 {s : ConvAddrGen} (hs : s.state = .stage1)
      (ha : s.actBaseS1 + (((s.actM1S1 + s.iwUS1.setWidth 32) * s.inCS1.setWidth 32) +
        s.cS1.setWidth 32).setWidth 16 = cmd.job.actAddr i)
      (hw : s.wtBaseS1 + (((s.wtM1S1 + s.rS1.setWidth 32) * s.filtSS1.setWidth 32 +
        s.sS1.setWidth 32) * s.inCS1.setWidth 32 + s.cS1.setWidth 32).setWidth 16 =
          cmd.job.wtAddr i)
      (hz : s.zeroPadS1 = cmd.job.zeroPad i) : Addrs i 3 s
  | stage2 {s : ConvAddrGen} (hs : s.state = .stage2)
      (ha : s.actBaseS2 + (s.actM2S2 + s.cS2.setWidth 32).setWidth 16 = cmd.job.actAddr i)
      (hw : s.wtBaseS2 + ((s.wtM2S2 + s.sS2.setWidth 32) * s.inCS2.setWidth 32 +
        s.cS2.setWidth 32).setWidth 16 = cmd.job.wtAddr i)
      (hz : s.zeroPadS2 = cmd.job.zeroPad i) : Addrs i 2 s
  | stage3 {s : ConvAddrGen} (hs : s.state = .stage3)
      (ha : s.actBaseS3 + s.actIdxS3 = cmd.job.actAddr i)
      (hw : s.wtBaseS3 + s.wtIdxS3 = cmd.job.wtAddr i)
      (hz : s.zeroPadS3 = cmd.job.zeroPad i) : Addrs i 1 s
  | out {s : ConvAddrGen} (hs : s.state = .out) (ha : s.actAddrR = cmd.job.actAddr i)
      (hw : s.wtAddrR = cmd.job.wtAddr i) (hz : s.zeroPadR = cmd.job.zeroPad i) : Addrs i 0 s

/-- The write address after `n` elements have been begun. -/
structure Begun (n : ℕ) (s : ConvFront) : Prop where
  seen : s.firstLastInnerSeenR = decide (0 < n)
  wrAddr : 0 < n → s.wrAddrIterR + 1 = cmd.job.wrAddr n

structure Meta (i : ℕ) (s : ConvFront) : Prop where
  last : s.lastInnerIterR = cmd.job.lastAt i
  clr : s.accClrIterR = cmd.job.clrAt i
  biasAddr : cmd.job.lastAt i = true → s.biasAddrIterR = cmd.job.biasAddr (i / cmd.job.its)
  begun : Begun cmd ((i + 1) / cmd.job.its) s

inductive At : Feed → ConvFront → Prop
  | cfg {s : ConvFront} (hcmd : s.ctrl.cmdR = cmd) (hs : s.ctrl.state = .loadCfg)
      (ha : s.addrGen.state = .idle) (hbegun : Begun cmd 0 s) : At .cfg s
  | free {s : ConvFront} {i : ℕ} (hcmd : s.ctrl.cmdR = cmd) (hs : s.ctrl.state = .compute)
      (ha : s.addrGen.state = .idle) (hidx : AtIndex cmd i s.ctrl)
      (hbegun : Begun cmd (i / cmd.job.its) s) : At (.free i) s
  | computing {s : ConvFront} {i k : ℕ} (hcmd : s.ctrl.cmdR = cmd) (hpast : Past cmd i s.ctrl)
      (haddrs : Addrs cmd i k s.addrGen) (hmeta : Meta cmd i s) : At (.computing i k) s
  | drain {s : ConvFront} (hcmd : s.ctrl.cmdR = cmd) (hs : s.ctrl.state = .drain)
      (ha : s.addrGen.state = .idle) : At .drain s
  | done {s : ConvFront} (hcmd : s.ctrl.cmdR = cmd) (hs : s.ctrl.state = .done)
      (ha : s.addrGen.state = .idle) : At .done s
  | idle {s : ConvFront} (hcmd : s.ctrl.cmdR = cmd) (hs : s.ctrl.state = .idle)
      (ha : s.addrGen.state = .idle) : At .idle s

structure Rest (s : ConvFront) : Prop where
  ctrl : s.ctrl.state = .idle
  addrGen : s.addrGen.state = .idle

variable {cmd} {i : ℕ} {s : ConvCtrl}

/-! ## The loop registers -/

theorem AtIndex.atTap (h : AtIndex cmd i s) : AtTap cmd i s :=
  ⟨eq_ofNat_of_toNat h.oh, eq_ofNat_of_toNat h.ow, eq_ofNat_of_toNat h.k, eq_ofNat_of_toNat h.r,
    eq_ofNat_of_toNat h.s, eq_ofNat_of_toNat h.c⟩

/-- In a nest that ends no register wraps. -/
theorem AtTap.atIndex (h : AtTap cmd i s) (hp : cmd.Looping) (hi : i < cmd.job.total) :
    AtIndex cmd i s := by
  obtain ⟨hoh, how, hk, hr, hs, hc⟩ := hp.digits_lt hi
  have hfit : ∀ {x : Dim} {n b : ℕ}, x = .ofNat 16 n → n < b → b ≤ 2 ^ 16 → x.toNat = n :=
    fun hx hn hb ↦ hx ▸ BitVec.toNat_ofNat _ _ ▸ Nat.mod_eq_of_lt (hn.trans_le hb)
  exact ⟨hfit h.oh hoh (limitDim_le _), hfit h.ow how (limitDim_le _),
    hfit h.k hk cmd.outK.isLt.le, hfit h.r hr cmd.filtR.isLt.le, hfit h.s hs cmd.filtS.isLt.le,
    hfit h.c hc cmd.inC.isLt.le⟩

section Index

variable (hcmd : s.cmdR = cmd) (hp : cmd.Looping)
include hcmd

section

include hp

theorem lastC_iff : s.lastC = true ↔ s.cR.toNat + 1 = cmd.inC.toNat := by
  rw [ConvCtrl.lastC, hcmd]
  exact eqLast_iff hp.c

theorem lastS_iff : s.lastS = true ↔ s.sR.toNat + 1 = cmd.filtS.toNat := by
  rw [ConvCtrl.lastS, hcmd]
  exact eqLast_iff hp.s

theorem lastR_iff : s.lastR = true ↔ s.rR.toNat + 1 = cmd.filtR.toNat := by
  rw [ConvCtrl.lastR, hcmd]
  exact eqLast_iff hp.r

theorem lastK_iff : s.lastK = true ↔ s.kR.toNat + 1 = cmd.outK.toNat := by
  rw [ConvCtrl.lastK, hcmd]
  exact eqLast_iff hp.k

end

theorem lastOh_iff : (s.ohR == s.ohMax) = true ↔ s.ohR.toNat + 1 = limitDim cmd.outH := by
  have hpred := toNat_pred cmd.outH
  rw [ConvCtrl.ohMax, hcmd, beq_iff_eq, ← BitVec.toNat_inj]
  omega

include hp

theorem AtIndex.innerLast_eq (h : AtIndex cmd i s) : s.innerLast = cmd.job.lastAt i := by
  apply Bool.eq_iff_iff.mpr
  rw [ConvCtrl.innerLast, Bool.and_eq_true, Bool.and_eq_true, lastR_iff hcmd hp,
    lastS_iff hcmd hp, lastC_iff hcmd hp, h.r, h.s, h.c, MacJob.lastAt, decide_eq_true_eq]
  change _ ↔ (i + 1) % (cmd.filtR.toNat * cmd.filtS.toNat * cmd.inC.toNat) = 0
  rw [succ_mod_mul_eq_zero_iff hp.c, succ_mod_mul_eq_zero_iff hp.s,
    LoopNest.succ_mod_eq_zero_iff hp.r]
  exact and_comm.trans (and_congr_right fun _ ↦ and_comm)

theorem AtIndex.outerLast_iff (h : AtIndex cmd i s) :
    s.outerLast = true ↔ cmd.elemAt i + 1 = cmd.job.outs := by
  rw [ConvCtrl.outerLast, Bool.and_eq_true, Bool.and_eq_true, lastOh_iff hcmd, lastOw_iff hcmd,
    lastK_iff hcmd hp, h.oh, h.ow, h.k]
  change _ ↔ cmd.elemAt i + 1 = limitDim cmd.outH * limitDim cmd.outW * cmd.outK.toNat
  rw [LoopNest.last_iff hp.k, LoopNest.last_iff (limitDim_pos _)]
  rfl

theorem AtIndex.last_iff (h : AtIndex cmd i s) :
    (s.innerLast && s.outerLast) = true ↔ i + 1 = cmd.job.total := by
  have hits := hp.job.its
  rw [Bool.and_eq_true, h.innerLast_eq hcmd hp, h.outerLast_iff hcmd hp, MacJob.lastAt,
    decide_eq_true_eq, LoopNest.succ_mod_eq_zero_iff hits, MacJob.total, LoopNest.last_iff hits, ConvCmd.elemAt_eq, and_comm]

omit hp in
/-- An endless nest has no last iteration. -/
theorem last_eq_false (hv : ¬cmd.Looping) : (s.innerLast && s.outerLast) = false := by
  by_contra hl
  simp only [ConvCtrl.innerLast, ConvCtrl.outerLast, ConvCtrl.lastR, ConvCtrl.lastS,
    ConvCtrl.lastC, ConvCtrl.lastK, hcmd, Bool.not_eq_false, Bool.and_eq_true] at hl
  apply hv
  refine ⟨?_, ?_, ?_, ?_⟩ <;> by_contra h0 <;> simp [dim_eq_zero h0] at hl

omit hp in
theorem AtTap.last_iff (h : AtTap cmd i s) (hi : cmd.Reached i) :
    (s.innerLast && s.outerLast) = true ↔ ¬cmd.Reached (i + 1) := by
  by_cases hp : cmd.Looping
  · rw [(h.atIndex hp (hi hp)).last_iff hcmd hp]
    have hlt := hi hp
    constructor
    · intro heq hnext
      have := hnext hp
      omega
    · intro hnext
      by_contra hne
      exact hnext fun _ ↦ by omega
  · rw [last_eq_false hcmd hp]
    exact ⟨fun hf ↦ absurd hf Bool.false_ne_true, fun hnext ↦ absurd (fun hp' ↦ absurd hp' hp) hnext⟩

theorem AtIndex.advance (h : AtIndex cmd i s) (hs : s.state = .compute)
    (hlt : i + 1 < cmd.job.total) (v : Bool) : AtIndex cmd (i + 1) (s.step cmd v true) :=
  (h.atTap.advance hcmd hs (fun _ ↦ hlt) v).atIndex hp hlt

end Index

theorem AtIndex.accClr_eq (h : AtIndex cmd i s) (hp : cmd.Looping) (hs : s.state = .compute) :
    s.accClr = cmd.job.clrAt i := by
  have hzero : ∀ {x : Dim} {n : ℕ}, x.toNat = n → (x = 0 ↔ n = 0) := fun hx ↦ by
    rw [← hx]
    exact BitVec.toNat_inj.symm
  have hclr : i % cmd.job.its = 0 ↔ cmd.cAt i = 0 ∧ cmd.sAt i = 0 ∧ cmd.rAt i = 0 := by
    change i % (cmd.filtR.toNat * cmd.filtS.toNat * cmd.inC.toNat) = 0 ↔ _
    rw [mod_mul_eq_zero_iff hp.c, mod_mul_eq_zero_iff hp.s]
    rfl
  apply Bool.eq_iff_iff.mpr
  rw [MacJob.clrAt, decide_eq_true_eq, hclr]
  simp only [ConvCtrl.accClr, hs, decide_true, Bool.true_and, Bool.and_eq_true,
    decide_eq_true_eq, hzero h.r, hzero h.s, hzero h.c]
  exact and_comm.trans (and_congr_right fun _ ↦ and_comm)

/-! ## One edge -/

section Step

variable {f : ConvFront} (hcmd : f.ctrl.cmdR = cmd) (ready : Bool)

/-- The write address moves with the elements begun. -/
theorem Begun.step {n : ℕ} (h : Begun cmd n f) (hcmd : f.ctrl.cmdR = cmd) {last : Bool}
    (hlast : (f.iterAccept && f.ctrl.innerLast) = last) :
    Begun cmd (n + last.toNat) (f.step cmd false ready) := by
  subst hlast
  cases hbegin : f.iterAccept && f.ctrl.innerLast with
  | false =>
      constructor
      · simpa [ConvFront.step, hbegin] using h.seen
      · simpa [ConvFront.step, hbegin] using h.wrAddr
  | true =>
      constructor
      · simp [ConvFront.step, hbegin]
      · intro _
        have hnext : cmd.job.wrAddr (n + 1) = cmd.job.wrAddr n + 1 := by
          change cmd.actOutAddr + BitVec.ofNat 16 (n + 1) = cmd.actOutAddr + BitVec.ofNat 16 n + 1
          rw [BitVec.ofNat_add, ← BitVec.add_assoc]
          rfl
        have haddr : (f.step cmd false ready).wrAddrIterR = cmd.job.wrAddr n := by
          simp only [ConvFront.step, hbegin, if_true, h.seen, hcmd]
          rcases Nat.eq_zero_or_pos n with rfl | hn
          · exact (BitVec.add_zero _).symm
          · rw [if_pos (decide_eq_true hn)]
            exact h.wrAddr hn
        rw [haddr]
        exact hnext.symm

include hcmd

theorem accept_step (hp : cmd.Looping) (hs : f.ctrl.state = .compute)
    (ha : f.addrGen.state = .idle) (hidx : AtIndex cmd i f.ctrl)
    (hbegun : Begun cmd (i / cmd.job.its) f) (hlt : i < cmd.job.total) :
    At cmd (.computing i 3) (f.step cmd false ready) := by
  have hacc : f.iterAccept = true := by
    simp [iterAccept, ConvCtrl.iterValid, ConvAddrGen.inReady, hs, ha]
  have hctrl : (f.step cmd false ready).ctrl = f.ctrl.step cmd false true := by
    simp [step, ConvAddrGen.inReady, ha]
  have hkeep : (f.step cmd false ready).ctrl.cmdR = cmd := by
    simp [step, ConvCtrl.step, hcmd]
  have hlast := hidx.last_iff hcmd hp
  have hinner := hidx.innerLast_eq hcmd hp
  have hoh := eq_ofNat_of_toNat hidx.oh
  have how := eq_ofNat_of_toNat hidx.ow
  have hk := eq_ofNat_of_toNat hidx.k
  have hr := eq_ofNat_of_toNat hidx.r
  have hsR := eq_ofNat_of_toNat hidx.s
  have hc := eq_ofNat_of_toNat hidx.c
  have htake : f.addrGen.taking f.ctrl.iterValid = true := by
    simp [ConvAddrGen.taking, ConvCtrl.iterValid, hs, ha]
  refine .computing hkeep ?_ (.stage1 ?_ ?_ ?_ ?_) ⟨?_, ?_, ?_, ?_⟩
  · rw [hctrl]
    by_cases hmore : i + 1 = cmd.job.total
    · apply Past.last _ hmore
      simp [ConvCtrl.step, LoopState.next, hs, hlast.mpr hmore]
    · have hnot : (f.ctrl.innerLast && f.ctrl.outerLast) = false :=
        Bool.eq_false_iff.mpr fun h ↦ hmore (hlast.mp h)
      apply Past.more _ (by omega) (hidx.advance hcmd hp hs (by omega) false)
      simp [ConvCtrl.step, LoopState.next, hs, hnot]
  · simp [step, ConvAddrGen.step, ConvCtrl.iterValid, hs, ha]
  · simp [step, ConvAddrGen.step, htake, addrIn, ConvAddrIn.ihCalcW, ConvAddrIn.iwCalcW, hcmd,
      ConvCmd.job, ConvCmd.ihAt, ConvCmd.iwAt, hoh, how, hr, hsR, hc, BitVec.setWidth_add,
      BitVec.setWidth_mul]
  · simp [step, ConvAddrGen.step, htake, addrIn, hcmd, ConvCmd.job, hk, hr, hsR, hc,
      BitVec.setWidth_add, BitVec.setWidth_mul]
  · simp [step, ConvAddrGen.step, htake, addrIn, ConvAddrIn.ihCalcW, ConvAddrIn.iwCalcW, hcmd,
      ConvCmd.job, ConvCmd.ihAt, ConvCmd.iwAt, hoh, how, hr, hsR]
  · simp only [step, hacc, if_true]
    exact hinner
  · simp only [step, hacc, if_true]
    exact hidx.accClr_eq hp hs
  · intro hl
    simp only [step, hacc, hinner, hl, Bool.and_self, if_true, hcmd, hk, ConvCmd.elemAt_eq]
    rfl
  · have hb := hbegun.step ready hcmd (by rw [hacc, hinner, Bool.true_and])
    cases hl : cmd.job.lastAt i with
    | false =>
        rw [MacJob.succ_div_of_not_last hl]
        rwa [hl] at hb
    | true =>
        rw [(MacJob.succ_div_of_last hp.job hl).1]
        rwa [hl] at hb

/-- With an iteration in the address generator the controller stands still. -/
theorem ctrl_step (hbusy : f.addrGen.state ≠ .idle) (hpast : Past cmd i f.ctrl) :
    Past cmd i (f.step cmd false ready).ctrl ∧ (f.step cmd false ready).ctrl.cmdR = cmd := by
  have hctrl : (f.step cmd false ready).ctrl = f.ctrl.step cmd false false := by
    simp [step, ConvAddrGen.inReady, hbusy]
  have hs : f.ctrl.state = .compute ∨ f.ctrl.state = .drain := by
    cases hpast with
    | more hs => exact .inl hs
    | last hs => exact .inr hs
  rw [hctrl, ConvCtrl.step_of_stalled hs]
  exact ⟨hpast, hcmd⟩

theorem meta_step (hbusy : f.addrGen.state ≠ .idle) (hmeta : Meta cmd i f) :
    Meta cmd i (f.step cmd false ready) := by
  have hacc : f.iterAccept = false := by simp [iterAccept, ConvAddrGen.inReady, hbusy]
  refine ⟨?_, ?_, ?_, ?_⟩
  · simpa [step, hacc] using hmeta.last
  · simpa [step, hacc] using hmeta.clr
  · simpa [step, hacc] using hmeta.biasAddr
  · exact hmeta.begun.step ready hcmd (by rw [hacc, Bool.false_and])

end Step

variable {f : ConvFront}

theorem addrs_step {k : ℕ} (h : Addrs cmd i (k + 1) f.addrGen) (ready : Bool) :
    f.addrGen.state ≠ .idle ∧ Addrs cmd i k (f.step cmd false ready).addrGen := by
  cases h with
  | stage1 hs ha hw hz =>
      refine ⟨by simp [hs], .stage2 ?_ ?_ ?_ ?_⟩
      · simp [step, ConvAddrGen.step, hs]
      · simpa [step, ConvAddrGen.step, hs] using ha
      · simpa [step, ConvAddrGen.step, hs] using hw
      · simpa [step, ConvAddrGen.step, hs] using hz
  | stage2 hs ha hw hz =>
      refine ⟨by simp [hs], .stage3 ?_ ?_ ?_ ?_⟩
      · simp [step, ConvAddrGen.step, hs]
      · simpa [step, ConvAddrGen.step, hs] using ha
      · simpa [step, ConvAddrGen.step, hs] using hw
      · simpa [step, ConvAddrGen.step, hs] using hz
  | stage3 hs ha hw hz =>
      refine ⟨by simp [hs], .out ?_ ?_ ?_ ?_⟩
      · simp [step, ConvAddrGen.step, hs]
      · simpa [step, ConvAddrGen.step, hs] using ha
      · simpa [step, ConvAddrGen.step, hs] using hw
      · simpa [step, ConvAddrGen.step, hs] using hz

/-- Addresses on offer stay until the loader takes them. -/
theorem addrs_wait (h : Addrs cmd i 0 f.addrGen) :
    f.addrGen.state ≠ .idle ∧ Addrs cmd i 0 (f.step cmd false false).addrGen ∧
      (f.step cmd false true).addrGen.state = .idle := by
  cases h with
  | out hs ha hw hz =>
      refine ⟨by simp [hs], .out ?_ ?_ ?_ ?_, ?_⟩
      · simp [step, ConvAddrGen.step, hs]
      · simpa [step, ConvAddrGen.step, hs] using ha
      · simpa [step, ConvAddrGen.step, hs] using hw
      · simpa [step, ConvAddrGen.step, hs] using hz
      · simp [step, ConvAddrGen.step, hs]

theorem At.step (hp : cmd.Looping) {p : Feed} (hw : p.Within cmd.job.total) (h : At cmd p f)
    (ready : Bool) : At cmd (p.step cmd.job.total 4 ready) (f.step cmd false ready) := by
  have stay : f.ctrl.state ≠ .compute → f.addrGen.state = .idle →
      (f.step cmd false ready).addrGen.state = .idle := by
    intro hs ha
    simp [ConvFront.step, ConvAddrGen.step, ConvCtrl.iterValid, hs, ha]
  cases h with
  | cfg hcmd hs ha hbegun =>
      have hacc : f.iterAccept = false := by simp [iterAccept, ConvCtrl.iterValid, hs]
      refine .free ?_ ?_ (stay (by simp [hs]) ha) ⟨?_, ?_, ?_, ?_, ?_, ?_⟩ ?_
      · simp [ConvFront.step, ConvCtrl.step, hcmd]
      · simp [ConvFront.step, ConvCtrl.step, LoopState.next, hs]
      · simp [ConvFront.step, ConvCtrl.step, ConvCmd.ohOf, ConvCmd.elemAt, hs]
      · simp [ConvFront.step, ConvCtrl.step, ConvCmd.owOf, ConvCmd.elemAt, hs]
      · simp [ConvFront.step, ConvCtrl.step, ConvCmd.kOf, ConvCmd.elemAt, hs]
      · simp [ConvFront.step, ConvCtrl.step, ConvCmd.rAt, hs]
      · simp [ConvFront.step, ConvCtrl.step, ConvCmd.sAt, hs]
      · simp [ConvFront.step, ConvCtrl.step, ConvCmd.cAt, hs]
      · rw [Nat.zero_div]
        exact hbegun.step ready hcmd (by rw [hacc, Bool.false_and])
  | free hcmd hs ha hidx hbegun => exact accept_step hcmd ready hp hs ha hidx hbegun hw
  | @computing _ i k hcmd hpast haddrs hmeta =>
      cases k with
      | succ k =>
          obtain ⟨hbusy, haddrs'⟩ := addrs_step haddrs ready
          obtain ⟨hpast', hcmd'⟩ := ctrl_step hcmd ready hbusy hpast
          exact .computing hcmd' hpast' haddrs' (meta_step hcmd ready hbusy hmeta)
      | zero =>
          obtain ⟨hbusy, hwait, hidle⟩ := addrs_wait haddrs
          obtain ⟨hpast', hcmd'⟩ := ctrl_step hcmd ready hbusy hpast
          have hmeta' := meta_step hcmd ready hbusy hmeta
          cases ready with
          | false => exact .computing hcmd' hpast' hwait hmeta'
          | true =>
              simp only [Feed.step, if_true]
              cases hpast' with
              | more hs' hlt hidx =>
                  rw [if_pos hlt]
                  exact .free hcmd' hs' hidle hidx hmeta'.begun
              | last hs' hend =>
                  rw [if_neg hend.not_lt]
                  exact .drain hcmd' hs' hidle
  | drain hcmd hs ha =>
      refine .done ?_ ?_ (stay (by simp [hs]) ha)
      · simp [ConvFront.step, ConvCtrl.step, hcmd]
      · simp [ConvFront.step, ConvCtrl.step, LoopState.next, ConvAddrGen.inReady, hs, ha]
  | done hcmd hs ha =>
      refine .idle ?_ ?_ (stay (by simp [hs]) ha)
      · simp [ConvFront.step, ConvCtrl.step, hcmd]
      · simp [ConvFront.step, ConvCtrl.step, LoopState.next, hs]
  | idle hcmd hs ha =>
      refine .idle ?_ ?_ (stay (by simp [hs]) ha)
      · simp [ConvFront.step, ConvCtrl.step, hcmd]
      · simp [ConvFront.step, ConvCtrl.step, LoopState.next, hs]

/-- The front end hands over the iterations of the command's job. -/
theorem feeds (hp : cmd.Looping) : Feeds convFront cmd cmd.job 4 Rest (At cmd) where
  rest_ready f h := by simp [convFront, h.ctrl]
  rest_valid f h := by simp [convFront, ConvAddrGen.outValid, h.addrGen]
  rest_done f h := by simp [convFront, h.ctrl]
  rest_busy f h := by simp [convFront, h.ctrl]
  rest_step f ready h := by
    constructor
    · simp [convFront, step, ConvCtrl.step, LoopState.next, h.ctrl]
    · simp [convFront, step, ConvAddrGen.step, ConvCtrl.iterValid, h.ctrl, h.addrGen]
  accept f ready h := by
    refine .cfg ?_ ?_ ?_ ⟨?_, fun h0 ↦ absurd h0 (lt_irrefl 0)⟩
    · simp [convFront, step, ConvCtrl.step, h.ctrl]
    · simp [convFront, step, ConvCtrl.step, LoopState.next, h.ctrl]
    · simp [convFront, step, ConvAddrGen.step, ConvCtrl.iterValid, h.ctrl, h.addrGen]
    · simp [convFront, step, iterAccept, ConvCtrl.iterValid, h.ctrl]
  rest f h := by
    cases h with
    | idle _ hs ha => exact ⟨hs, ha⟩
  step p f ready hw h := h.step hp hw ready
  valid p f h := by
    cases h with
    | computing _ _ haddrs _ =>
        cases haddrs with
        | stage1 hs => simp [convFront, ConvAddrGen.outValid, Feed.valid, hs]
        | stage2 hs => simp [convFront, ConvAddrGen.outValid, Feed.valid, hs]
        | stage3 hs => simp [convFront, ConvAddrGen.outValid, Feed.valid, hs]
        | out hs => simp [convFront, ConvAddrGen.outValid, Feed.valid, hs]
    | cfg _ _ ha => simp [convFront, ConvAddrGen.outValid, Feed.valid, ha]
    | free _ _ ha _ => simp [convFront, ConvAddrGen.outValid, Feed.valid, ha]
    | drain _ _ ha => simp [convFront, ConvAddrGen.outValid, Feed.valid, ha]
    | done _ _ ha => simp [convFront, ConvAddrGen.outValid, Feed.valid, ha]
    | idle _ _ ha => simp [convFront, ConvAddrGen.outValid, Feed.valid, ha]
  offers i f h := by
    cases h with
    | computing _ _ haddrs hmeta =>
        cases haddrs with
        | out _ ha hw hz =>
            refine ⟨ha, hw, hz, hmeta.last, hmeta.clr, fun hl ↦ ?_, hmeta.biasAddr⟩
            have hdiv := (MacJob.succ_div_of_last hp.job hl).1
            have hnext := hmeta.begun.wrAddr (hdiv ▸ Nat.succ_pos _)
            rw [hdiv] at hnext
            change f.wrAddrIterR + 1 = cmd.actOutAddr + BitVec.ofNat 16 (_ + 1) at hnext
            rw [BitVec.ofNat_add, ← BitVec.add_assoc] at hnext
            exact (BitVec.add_left_inj _).mp hnext
  quantShift p f h := by cases h <;> simp_all [convFront, ConvCmd.job]
  actMode p f h := by cases h <;> simp_all [convFront, ConvCmd.job]
  ctrlDone p f h := by
    cases h with
    | computing _ hpast _ _ => cases hpast <;> simp_all [convFront]
    | _ => simp_all [convFront]
  ctrlBusy p f h := by
    cases h with
    | computing _ hpast _ _ => cases hpast <;> simp_all [convFront]
    | _ => simp_all [convFront]

end ConvFront

end LgNpu
