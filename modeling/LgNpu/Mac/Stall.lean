import LgNpu.Mac.Weight
import LgNpu.Mac.Ending

/-!
# Back-pressure

A held back port stalls the path without losing a token, with one exception: a
last result that was stalled can be released in the very cycle in which the
first pair of the next element clears the accumulator, and clearing wins.
Schedules without such a clash, under which every operand is read as it is on
immediate grants, change nothing about the writes.
-/

namespace LgNpu

open Mac

section

variable {F Cmd : Type} (fe : MacFront F Cmd) (cmd : Cmd) (gs : ℕ → Grants) (x : Sys (Mac F))

/-- A stalled result is never released in a cycle that clears the
accumulator. -/
def NoClash : Prop := ∀ t, ¬(((macBackend fe).run cmd gs x t).be.path.clr = true ∧
  ((macBackend fe).run cmd gs x t).be.path.accEn = true)

/-- The pairs taken by the processing element before cycle `t`. -/
def pairsTaken : ℕ → ℕ
  | 0 => 0
  | t + 1 => pairsTaken t + ((macBackend fe).run cmd gs x t).be.path.peAccept.toNat

/-- The activation operand of pair `i` is read as `rd i`; a read repeated while
the first answer arrives is not used. -/
def ReadsAs (rd : ℕ → Byte) : Prop :=
  ∀ t, ((macBackend fe).run cmd gs x t).be.path.loader.actMemReq = true → (gs t).act = true →
    ((macBackend fe).run cmd gs x t).mem.actBuf.beRdAcceptR = false →
    ((macBackend fe).run cmd gs x t).mem.act
        (((macBackend fe).run cmd gs x t).be.path.loader.actAddrR.setWidth 13) =
      rd (pairsTaken fe cmd gs x t)

structure Harmless : Prop where
  noClash : NoClash fe cmd gs x
  sameReads : ∃ rd, ReadsAs fe cmd (fun _ ↦ .all) x rd ∧ ReadsAs fe cmd gs x rd

/-- The writes on the schedule are those on immediate grants. -/
def Backend.SameWrites {S Cmd : Type} (b : Backend S Cmd) (cmd : Cmd) (gs : ℕ → Grants)
    (x : Sys S) : Prop :=
  ∃ W, b.Emits cmd (fun _ ↦ .all) x W ∧ b.Emits cmd gs x W

variable {fe cmd gs x} {c : MacJob} {lat : ℕ} {Rest : F → Prop} {At : Feed → F → Prop}
  (hF : Feeds fe cmd c lat Rest At) (hpos : c.Positive) (hq : Mac.Quiet Rest x) (hlog : x.log = [])

include hq in
theorem taken_track (c : MacJob) (lat t : ℕ) :
    (track fe cmd c lat gs x t).taken = pairsTaken fe cmd gs x (t + 1) := by
  induction t with
  | zero =>
      have hacc : x.be.path.peAccept = false := by
        simp [MacPath.peAccept, ConvLoader.pairValid, hq.path.loader]
      change 0 = 0 + x.be.path.peAccept.toNat
      rw [hacc]
      rfl
  | succ t ih =>
      rw [track_succ, Track.step, pairsTaken, ih, Track.path, track_sys]

include hq in
theorem smooth_track {D : Prop} {rd : ℕ → Byte} (hno : NoClash fe cmd gs x)
    (hrd : D → ReadsAs fe cmd gs x rd) (c : MacJob) (lat t : ℕ) :
    Smooth (gs (t + 1)) (track fe cmd c lat gs x t).sys D
      (rd (track fe cmd c lat gs x t).taken) := by
  rw [taken_track hq, track_sys]
  exact ⟨hno (t + 1), fun hD ↦ hrd hD (t + 1)⟩

include hF hpos hq hlog

theorem MacJob.emits_of_fair (hfair : FairGrants gs) (hno : NoClash fe cmd gs x) {rd : ℕ → Byte}
    (hrd : ReadsAs fe cmd gs x rd) :
    (macBackend fe).Emits cmd gs x (c.writes rd x.mem.wt) := by
  have hsm := smooth_track hq hno (fun _ : True ↦ hrd) c lat
  have hinv := fun t ↦ MacInv.track hF hpos hq hlog True rd t fun u _ ↦ hsm u
  obtain ⟨t, ht⟩ := exists_complete hF hpos hq hlog hfair True rd hsm
  refine Backend.Emits.of_complete (fun u ↦ ?_) (T := t + 1) ?_
  · cases u with
    | zero =>
        rw [run_zero, hlog]
        exact List.nil_prefix
    | succ u =>
        rw [run_eq_track c lat]
        exact (hinv u).log_isPrefix trivial
  · rw [run_eq_track c lat, ht]
    exact (c.length_writesUpTo _ _ c.outs).symm

omit hF hpos hlog in
/-- On immediate grants nothing stalls. -/
theorem noClash_all : NoClash fe cmd (fun _ ↦ .all) x := fun t ↦ (hq.flows_run t).path.noClash

theorem Harmless.sameWrites (hfair : FairGrants gs)
    (h : Harmless fe cmd gs x) : (macBackend fe).SameWrites cmd gs x := by
  obtain ⟨rd, hall, hgs⟩ := h.sameReads
  exact ⟨c.writes rd x.mem.wt,
    MacJob.emits_of_fair hF hpos hq hlog fairGrants_all (noClash_all hq) hall,
    MacJob.emits_of_fair hF hpos hq hlog hfair h.noClash hgs⟩

/-! ## Harmless schedules -/

/-- Operands that are not among the outputs are read as they are at first. -/
theorem MacJob.Disjoint.readsAs (hdis : c.Disjoint) (hno : NoClash fe cmd gs x) :
    ReadsAs fe cmd gs x (fun i ↦ c.readsOf x.mem.act i) := by
  intro t hreq _ _
  cases t with
  | zero => exact absurd hreq (by simp [hq.loader_idle.1])
  | succ t =>
      have hsm : ∀ u, Smooth (gs (u + 1)) (track fe cmd c lat gs x u).sys False 0 := fun u ↦ by
        rw [track_sys]
        exact ⟨hno (u + 1), False.elim⟩
      have hinv := MacInv.track hF hpos hq hlog False (fun _ ↦ 0) t fun u _ ↦ hsm u
      rw [run_eq_track c lat] at hreq ⊢
      obtain ⟨haddr, hfree⟩ := hinv.noHazard hdis hreq
      have hact : (track fe cmd c lat gs x t).sys.mem.act =
          store x.mem.act (track fe cmd c lat gs x t).sys.log := by
        rw [track_sys]
        exact act_eq_store (macBackend fe) cmd gs hlog _
      rw [hact, store_of_notMem hfree, haddr, ← taken_track hq c lat]
      rfl

theorem Harmless.of_disjoint (hdis : c.Disjoint) (hno : NoClash fe cmd gs x) :
    Harmless fe cmd gs x :=
  ⟨hno, _, MacJob.Disjoint.readsAs hF hpos hq hlog hdis (noClash_all hq),
    MacJob.Disjoint.readsAs hF hpos hq hlog hdis hno⟩

/-- The clear of a single element comes before any of its results. -/
theorem noClash_of_single (hone : c.outs = 1) : NoClash fe cmd gs x := by
  intro t
  induction t using Nat.strong_induction_on with
  | _ t ih =>
  cases t with
  | zero => exact (hq.path.smooth (g := gs 0) (D := False) (d := 0)).noClash
  | succ t =>
      have hinv := MacInv.track hF hpos hq hlog False (fun _ ↦ 0) t fun u hu ↦ by
        rw [track_sys]
        exact ⟨ih (u + 1) (by omega), False.elim⟩
      rw [run_eq_track c lat]
      rintro ⟨hclr, hen⟩
      obtain ⟨hclrR, hacc⟩ := Bool.and_eq_true_iff.mp hclr
      have hdone : (track fe cmd c lat gs x t).path.loader.state = .done :=
        of_decide_eq_true (Bool.and_eq_true_iff.mp hacc).1
      have hvalid : (track fe cmd c lat gs x t).path.pe.validR = true :=
        (Bool.and_eq_true_iff.mp hen).1
      have hhanded := Feed.handed_le hinv.within
      have hits := hpos.its
      have htotal : c.total = c.its := by rw [MacJob.total, hone, Nat.one_mul]
      cases hinv.loader with
      | done _ hp hm =>
          have hzero : (track fe cmd c lat gs x t).taken % c.its = 0 :=
            of_decide_eq_true (hm.clr.symm.trans hclrR)
          rw [Nat.mod_eq_of_lt (by omega)] at hzero
          cases hinv.pe with
          | empty hv => exact Bool.false_ne_true (hv.symm.trans hvalid)
          | full _ hr => omega
      | idle hs => exact absurd (hdone.symm.trans hs) (by simp)
      | req hs => exact absurd (hdone.symm.trans hs) (by simp)
      | wait hs => exact absurd (hdone.symm.trans hs) (by simp)

end

/-- On schedules that are harmless both backends issue the writes of immediate
grants, in the same order. -/
theorem no_data_lost (conv : ConvCmd) (gemm : GemmCmd) (x : Sys (Mac ConvFront))
    (y : Sys (Mac GemmFront)) (gs : ℕ → Grants) (hfair : FairGrants gs) :
    (conv.Positive → Mac.Quiet ConvFront.Rest x → x.log = [] → Harmless convFront conv gs x →
      convBackend.SameWrites conv gs x) ∧
    (gemm.Positive → Mac.Quiet GemmFront.Rest y → y.log = [] → Harmless gemmFront gemm gs y →
      gemmBackend.SameWrites gemm gs y) := by
  constructor
  · intro hp hq hlog h
    exact h.sameWrites (ConvFront.feeds hp.toLooping) hp.toLooping.job hq hlog hfair
  · intro hp hq hlog h
    exact h.sameWrites (GemmFront.feeds hp) hp.job hq hlog hfair

/-- The output port is held back for `n` cycles. -/
def outHeldFor (n t : ℕ) : Grants := ⟨true, true, decide (n ≤ t)⟩

theorem fairGrants_outHeldFor (n : ℕ) : FairGrants (outHeldFor n) := by
  intro i t
  cases i with
  | act => exact ⟨t, le_rfl, rfl⟩
  | wt => exact ⟨t, le_rfl, rfl⟩
  | out => exact ⟨max n t, le_max_right _ _, decide_eq_true (le_max_left _ _)⟩

/-- The fourth of five elements is left with its bias. -/
theorem not_sameWrites_outHeld : FairGrants (outHeldFor 25) ∧
    ¬gemmBackend.SameWrites (gemmOf 1 5 1) (outHeldFor 25)
      (.reset ⟨.reset, .reset⟩ (fun _ ↦ 1) fun _ ↦ 1) := by
  refine ⟨fairGrants_outHeldFor 25, ?_⟩
  rintro ⟨W, hall, hheld⟩
  exact absurd (List.prefix_of_prefix_length_le (hall.sound 30) (hheld.sound 36)
    (by decide +kernel)) (by decide +kernel)

/-- Every port is granted now and then. -/
def rarely (t : ℕ) : Grants := ⟨t % 2 = 0, t % 3 = 0, t % 5 = 0⟩

theorem fairGrants_rarely : FairGrants rarely := by
  intro i t
  refine ⟨30 * t, by omega, ?_⟩
  cases i with
  | act => exact decide_eq_true (by omega)
  | wt => exact decide_eq_true (by omega)
  | out => exact decide_eq_true (by omega)

theorem no_data_lost_rarely :
    convBackend.SameWrites (convRow 1) rarely (.reset ⟨.reset, .reset⟩ (fun _ ↦ 1) fun _ ↦ 1) ∧
      gemmBackend.SameWrites (gemmOf 1 1 3) rarely
        (.reset ⟨.reset, .reset⟩ (fun _ ↦ 1) fun _ ↦ 1) := by
  have hconv : (convRow 1).Positive :=
    ⟨⟨by decide, by decide, by decide, by decide⟩, by decide, by decide, by decide, by decide⟩
  have hgemm : (gemmOf 1 1 3).Positive := ⟨by decide, by decide, by decide⟩
  obtain ⟨h1, h2⟩ := no_data_lost (convRow 1) (gemmOf 1 1 3)
    (.reset ⟨.reset, .reset⟩ (fun _ ↦ 1) fun _ ↦ 1) (.reset ⟨.reset, .reset⟩ (fun _ ↦ 1) fun _ ↦ 1)
    rarely fairGrants_rarely
  constructor
  · refine h1 hconv ⟨⟨rfl, rfl⟩, MacPath.quiet_reset, rfl⟩ rfl ?_
    refine Harmless.of_disjoint (ConvFront.feeds hconv.toLooping) hconv.toLooping.job
      ⟨⟨rfl, rfl⟩, MacPath.quiet_reset, rfl⟩ rfl (by decide +kernel) ?_
    exact noClash_of_single (ConvFront.feeds hconv.toLooping) hconv.toLooping.job
      ⟨⟨rfl, rfl⟩, MacPath.quiet_reset, rfl⟩ rfl rfl
  · refine h2 hgemm ⟨⟨rfl, rfl⟩, MacPath.quiet_reset, rfl⟩ rfl ?_
    refine Harmless.of_disjoint (GemmFront.feeds hgemm) hgemm.job
      ⟨⟨rfl, rfl⟩, MacPath.quiet_reset, rfl⟩ rfl (by decide +kernel) ?_
    exact noClash_of_single (GemmFront.feeds hgemm) hgemm.job
      ⟨⟨rfl, rfl⟩, MacPath.quiet_reset, rfl⟩ rfl rfl

end LgNpu
