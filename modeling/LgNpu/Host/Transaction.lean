import LgNpu.Host.Protocol

/-!
# One descriptor at a time

A host that touches the window and the doorbell only while the front end is at
rest, and rings once all sixteen words have been written.  Descriptor registers,
error flag and packed command are kept from one descriptor to the next; none of
them reaches the outcome of a later one.
-/

namespace LgNpu

/-- No doorbell, fetch or decode is under way. -/
structure FrontEnd.AtRest (s : FrontEnd) : Prop where
  doorbell : s.regs.doorbellR = false
  fetch : s.fetch.state = .idle
  decode : s.decode.state = .idle

instance (s : FrontEnd) : Decidable s.AtRest :=
  decidable_of_iff (_ ∧ _ ∧ _) ⟨fun ⟨h1, h2, h3⟩ ↦ ⟨h1, h2, h3⟩, fun ⟨h1, h2, h3⟩ ↦ ⟨h1, h2, h3⟩⟩

/-- The commands among some outcomes. -/
def pushesOf (os : List Outcome) : List ConvCmd :=
  os.filterMap fun
    | .push cmd => some cmd
    | .decodeErr => none

/-- The front end with what its neighbours have done so far. -/
structure Session where
  front : FrontEnd
  /-- The words written since the last doorbell. -/
  words : BitVec 4 → Option MmioData
  /-- The descriptors rung. -/
  rung : List (BitVec 4 → MmioData)
  /-- The pushes and error pulses. -/
  outcomes : List Outcome
  /-- The commands taken from the queue. -/
  popped : List ConvCmd

namespace Session

def start (front : FrontEnd) : Session := ⟨front, fun _ ↦ none, [], [], []⟩

def descriptor (x : Session) (i : BitVec 4) : MmioData := (x.words i).getD 0

def step (m : Mmio) (rdReady : Bool) (x : Session) : Session where
  front := x.front.step m rdReady
  words :=
    if m.rings then fun _ ↦ none
    else if m.writes && m.isCmdQueue then
      Function.update x.words (windowIdx m.addr) (some m.wdata)
    else x.words
  rung := x.rung ++ if m.rings then [x.descriptor] else []
  outcomes := x.outcomes ++ x.front.outcome
  popped := x.popped ++ if x.front.queue.rdValid && rdReady then [x.front.queue.rdData] else []

def run (ms : ℕ → Mmio) (pops : ℕ → Bool) (x : Session) : ℕ → Session :=
  Clocked.run (fun t ↦ step (ms t) (pops t)) x

theorem run_succ (ms : ℕ → Mmio) (pops : ℕ → Bool) (x : Session) (t : ℕ) :
    run ms pops x (t + 1) = (run ms pops x t).step (ms t) (pops t) := rfl

theorem rung_step {x : Session} {m : Mmio} (rdReady : Bool) (h : m.rings = false) :
    (x.step m rdReady).rung = x.rung := by
  simp [step, h]

/-- The window and the doorbell are left alone until the front end is at rest,
the doorbell rings for a whole descriptor, and there is no reset. -/
structure Careful (x : Session) (m : Mmio) : Prop where
  rings : m.rings = true → x.front.AtRest ∧ ∀ i, (x.words i).isSome = true
  window : m.writes = true → m.isCmdQueue = true → x.front.AtRest
  noReset : m.writes = true → m.addr ≠ regCtrl

def Obeys (ms : ℕ → Mmio) (pops : ℕ → Bool) (x : Session) : Prop :=
  ∀ t, (run ms pops x t).Careful (ms t)

/-! ## The invariant -/

/-- The doorbells and answers of a session as a `Link`. -/
def link (x : Session) : Link := ⟨x.front, .init, x.rung.map outcomeOf, x.outcomes⟩

/-- From a queue of `xs`: at most one descriptor is under way, in the fetch or
in the decoder. -/
structure Inv (xs : List ConvCmd) (x : Session) : Prop where
  bell : x.front.regs.doorbellR = true → x.front.fetch.state = .idle
  one : x.front.regs.doorbellR = true ∨ x.front.fetch.state ≠ .idle →
    x.front.decode.state = .idle
  words : ∀ i d, x.words i = some d → x.front.regs.cmdMem i = d
  pending : ∃ fs, x.front.FetchHolds fs ∧
    x.rung.map outcomeOf = x.outcomes ++ x.front.decodeHolds ++ fs
  queue : ∃ ys, x.front.queue.Holds ys ∧ xs ++ pushesOf x.outcomes = x.popped ++ ys

variable {xs : List ConvCmd} {x : Session} {m : Mmio} {rdReady : Bool}

theorem Inv.start {front : FrontEnd} (hrest : front.AtRest) (hq : front.queue.Holds xs) :
    Inv xs (start front) where
  bell h := absurd (hrest.doorbell.symm.trans h) Bool.false_ne_true
  one _ := hrest.decode
  words _ _ h := nomatch h
  pending := ⟨[], .idle hrest.fetch hrest.doorbell, by
    change [] = [] ++ front.decodeHolds ++ []
    simp [FrontEnd.decodeHolds, hrest.decode]⟩
  queue := ⟨xs, hq, by simp [Session.start, pushesOf]⟩

theorem Inv.link (h : Inv xs x) : x.link.Inv where
  length_le := Nat.zero_le _
  words _ hi := absurd hi (Nat.not_lt_zero _)
  queue := h.queue.imp fun _ hq ↦ hq.1
  pending := h.pending

/-- Nothing is fetched while the decoder is busy. -/
theorem Inv.fetch_empty (h : Inv xs x) {fs : List Outcome} (hfs : x.front.FetchHolds fs)
    (hdec : x.front.decode.state ≠ .idle) : fs = [] := by
  cases hfs with
  | idle => rfl
  | rung _ hd => exact absurd (h.one (.inl hd)) hdec
  | read _ hs => exact absurd (h.one (.inr (by simp [hs]))) hdec
  | wait _ hs => exact absurd (h.one (.inr (by simp [hs]))) hdec

/-- Nothing is under way in a front end at rest. -/
theorem Inv.answered (h : Inv xs x) (hrest : x.front.AtRest) :
    x.outcomes = x.rung.map outcomeOf := by
  obtain ⟨fs, hfs, hexp⟩ := h.pending
  have hdec : x.front.decodeHolds = [] := by simp [FrontEnd.decodeHolds, hrest.decode]
  have hnone : fs = [] := by
    cases hfs with
    | idle => rfl
    | rung _ hd => exact absurd (hrest.doorbell.symm.trans hd) Bool.false_ne_true
    | read _ hs => exact absurd (hrest.fetch.symm.trans hs) (by simp)
    | wait _ hs => exact absurd (hrest.fetch.symm.trans hs) (by simp)
  rw [hexp, hdec, hnone, List.append_nil, List.append_nil]

/-- Away from rest some answer is due. -/
theorem Inv.due (h : Inv xs x) (hbusy : ¬x.front.AtRest) :
    x.rung.map outcomeOf ≠ x.outcomes := by
  obtain ⟨fs, hfs, hexp⟩ := h.pending
  have hsome : x.front.decodeHolds ++ fs ≠ [] := by
    intro hnil
    obtain ⟨hdec, rfl⟩ := List.append_eq_nil_iff.mp hnil
    cases hfs with
    | idle hs hd =>
        refine hbusy ⟨hd, hs, ?_⟩
        cases hst : x.front.decode.state with
        | idle => rfl
        | check => simp [FrontEnd.decodeHolds, hst] at hdec
        | valid => simp [FrontEnd.decodeHolds, hst] at hdec
  rw [hexp, List.append_assoc]
  exact fun heq ↦ hsome (List.append_right_eq_self.mp heq)

theorem Inv.clean (h : Inv xs x) (hc : x.Careful m) : x.front.Clean m where
  fetchIdle := h.bell
  decodeIdle hd := h.one (.inr fun hidle ↦ by
    rw [FrontEnd.descDone_eq_false (by simp [hidle])] at hd
    exact Bool.false_ne_true hd)
  window i hi := by
    cases hw : m.writes && m.isCmdQueue with
    | false => simp [FrontEnd.step, NpuRegBlock.step, hw]
    | true =>
        obtain ⟨hwr, hq⟩ := Bool.and_eq_true_iff.mp hw
        have hrest := hc.window hwr hq
        rcases hi with hd | ⟨hf, -⟩
        · exact absurd (hrest.doorbell.symm.trans hd) Bool.false_ne_true
        · exact absurd hrest.fetch hf

/-- A descriptor rung is the one in the window. -/
theorem Inv.cmdMem_eq (h : Inv xs x) (hc : x.Careful m) (hr : m.rings = true) :
    x.front.regs.cmdMem = x.descriptor := by
  refine funext fun i ↦ ?_
  obtain ⟨d, hd⟩ := Option.isSome_iff_exists.mp ((hc.rings hr).2 i)
  rw [h.words i d hd, descriptor, hd]
  rfl

theorem Inv.words_step (h : Inv xs x) (i : BitVec 4) (d : MmioData)
    (hd : (x.step m rdReady).words i = some d) :
    (x.step m rdReady).front.regs.cmdMem i = d := by
  cases hr : m.rings with
  | true => simp [step, hr] at hd
  | false =>
      cases hw : m.writes && m.isCmdQueue with
      | false =>
          simp only [step, hr, hw, Bool.false_eq_true, if_false] at hd
          simpa [step, FrontEnd.step, NpuRegBlock.step, hw] using h.words i d hd
      | true =>
          simp only [step, hr, hw, Bool.false_eq_true, if_false, if_true] at hd
          have hmem : (x.step m rdReady).front.regs.cmdMem =
              Function.update x.front.regs.cmdMem (windowIdx m.addr) m.wdata := by
            simp [step, FrontEnd.step, NpuRegBlock.step, hw]
          rw [hmem]
          rcases eq_or_ne i (windowIdx m.addr) with rfl | hne
          · rw [Function.update_self] at hd ⊢
            exact Option.some.inj hd
          · rw [Function.update_of_ne hne] at hd ⊢
            exact h.words i d hd

theorem pushesOf_append (os os' : List Outcome) :
    pushesOf (os ++ os') = pushesOf os ++ pushesOf os' := List.filterMap_append

theorem pushesOf_outcome (s : FrontEnd) : pushesOf s.outcome =
    if s.decode.cmdValid && !s.queue.full then [s.decode.cmdR] else [] := by
  rw [FrontEnd.outcome, Fifo.wrReady]
  split
  · rfl
  · split <;> rfl

/-- Commands enter the queue when pushed and leave it when popped. -/
theorem Inv.queue_step (h : Inv xs x) : ∃ ys, (x.step m rdReady).front.queue.Holds ys ∧
    xs ++ pushesOf (x.step m rdReady).outcomes = (x.step m rdReady).popped ++ ys := by
  obtain ⟨ys, hys, hexp⟩ := h.queue
  refine ⟨_, hys.step x.front.decode.cmdR x.front.decode.cmdValid rdReady, ?_⟩
  have hpop := hys.popped_append rdReady
  change xs ++ pushesOf (x.outcomes ++ x.front.outcome) = (x.popped ++ _) ++ _
  rw [pushesOf_append, pushesOf_outcome, ← List.append_assoc, hexp, List.append_assoc,
    List.append_assoc]
  congr 1
  rw [← List.append_assoc, hpop]

theorem Inv.step (h : Inv xs x) (hc : x.Careful m) : Inv xs (x.step m rdReady) := by
  have hclean := h.clean hc
  have hbell : (x.step m rdReady).front.regs.doorbellR = true →
      x.front.AtRest ∧ (x.step m rdReady).front.fetch.state = .idle := by
    intro hr
    have hrest := (hc.rings hr).1
    exact ⟨hrest, by
      rw [show (x.step m rdReady).front = x.front.step m rdReady from rfl,
        FrontEnd.fetch_step_idle m rdReady hrest.fetch hrest.doorbell]⟩
  refine ⟨fun hr ↦ (hbell hr).2, ?_, fun i d ↦ h.words_step i d, ?_, h.queue_step⟩
  · -- The decoder is entered by the last word only, which leaves the fetch idle.
    intro hbusy
    have hdec : (x.step m rdReady).front.decode.state = .idle ∨
        x.front.decode.state ≠ .idle ∨ x.front.descDone = true := by
      cases hs : x.front.decode.state with
      | idle =>
          cases hd : x.front.descDone with
          | true => simp
          | false => simp [Session.step, FrontEnd.step, NpuCmdDecode.step, hs, hd]
      | _ => simp
    rcases hdec with hidle | hst | hd
    · exact hidle
    · -- With the decoder busy nothing is fetched and nothing may be rung.
      have hfree : x.front.regs.doorbellR = false ∧ x.front.fetch.state = .idle := by
        by_contra hnot
        refine hst (h.one ?_)
        rw [not_and_or] at hnot
        exact hnot.imp (by simp) id
      have hf := FrontEnd.fetch_step_idle m rdReady hfree.2 hfree.1
      rcases hbusy with hr | hfs
      · exact absurd (hbell hr).1.decode hst
      · exact absurd (congrArg NpuCmdFetch.state hf) hfs
    · have hwait : x.front.fetch.state = .wait := by
        by_contra hne
        rw [FrontEnd.descDone_eq_false hne] at hd
        exact Bool.false_ne_true hd
      rcases hbusy with hr | hfs
      · exact absurd (((hbell hr).1.fetch).symm.trans hwait) (by simp)
      · have hdone : x.front.regs.fetchRvalidR = true ∧ x.front.fetch.wordCnt = 15 := by
          simpa [FrontEnd.descDone, NpuCmdFetch.descDone, NpuCmdFetch.descWordValid, hwait] using hd
        refine absurd ?_ hfs
        rw [show (x.step m rdReady).front = x.front.step m rdReady from rfl,
          FrontEnd.fetch_step_wait m rdReady hwait hdone.1, if_pos hdone.2]
  · obtain ⟨fs, hfs, hexp⟩ := h.pending
    obtain ⟨fs', hfs', hmove⟩ := FrontEnd.fetch_step hfs hclean
      fun hr : (x.front.step m rdReady).regs.doorbellR = true ↦ (hbell hr).2
    refine ⟨fs', hfs', ?_⟩
    have hdec := FrontEnd.decode_step rdReady hclean
    have hring : (if m.rings then [x.descriptor] else []).map outcomeOf =
        if m.rings then [outcomeOf x.front.regs.cmdMem] else [] := by
      cases hr : m.rings with
      | false => rfl
      | true => rw [h.cmdMem_eq hc hr]; rfl
    calc (x.step m rdReady).rung.map outcomeOf
        = x.outcomes ++ x.front.decodeHolds ++
            (fs ++ if m.rings then [outcomeOf x.front.regs.cmdMem] else []) := by
          rw [Session.step, List.map_append, hexp, hring, List.append_assoc]
      _ = x.outcomes ++ (x.front.decodeHolds ++ if x.front.descDone then
            [outcomeOf (x.front.step m rdReady).decode.descRegs] else []) ++ fs' := by
          rw [hmove, List.append_assoc, List.append_assoc, List.append_assoc]
      _ = (x.step m rdReady).outcomes ++ (x.step m rdReady).front.decodeHolds ++ fs' := by
          rw [← hdec]
          simp only [Session.step, List.append_assoc]

/-! ## Whole sessions -/

section Run

variable {ms : ℕ → Mmio} {pops : ℕ → Bool} {front : FrontEnd} (hrest : front.AtRest)
  (hq : front.queue.Holds xs) (hobeys : Obeys ms pops (start front))
include hrest hq hobeys

theorem inv_run (t : ℕ) : Inv xs (run ms pops (start front) t) := by
  induction t with
  | zero => exact .start hrest hq
  | succ t ih => exact ih.step (hobeys t)

/-- The decoder holds a command for which the queue never again has room. -/
def Stuck (ms : ℕ → Mmio) (pops : ℕ → Bool) (x : Session) : Prop :=
  ∃ u, ∀ v, u ≤ v → Link.waitsForRoom (run ms pops x v).front ∧ pops v = false

/-- Unless the queue stays full for good, the front end comes to rest. -/
theorem comes_to_rest (hroom : ¬Stuck ms pops (start front)) (t : ℕ) :
    ∃ u, t ≤ u ∧ (run ms pops (start front) u).front.AtRest := by
  classical
  have hinv := inv_run hrest hq hobeys
  by_contra hnever
  have hbusy : ∀ u, ¬(run ms pops (start front) (t + u)).front.AtRest :=
    fun u h ↦ hnever ⟨t + u, Nat.le_add_right _ _, h⟩
  -- Away from rest nothing is rung, so the answers due are counted down.
  have hrung : ∀ u, (run ms pops (start front) (t + u)).rung =
      (run ms pops (start front) t).rung := by
    intro u
    induction u with
    | zero => rfl
    | succ u ih =>
        have hr : (ms (t + u)).rings = false :=
          Bool.eq_false_iff.mpr fun hr ↦ hbusy u ((hobeys (t + u)).rings hr).1
        rw [← Nat.add_assoc, run_succ, rung_step _ hr, ih]
  obtain ⟨N, hN⟩ : ∃ N, N = (run ms pops (start front) t).rung.length := ⟨_, rfl⟩
  have hle : ∀ u, (run ms pops (start front) (t + u)).outcomes.length < N := by
    intro u
    obtain ⟨fs, -, hexp⟩ := (hinv (t + u)).pending
    have hpre : (run ms pops (start front) (t + u)).outcomes <+:
        (run ms pops (start front) (t + u)).rung.map outcomeOf :=
      hexp ▸ List.append_assoc _ _ _ ▸ List.prefix_append _ _
    rw [hN, ← hrung u, ← List.length_map (f := outcomeOf)]
    exact lt_of_le_of_ne hpre.length_le fun hlen ↦
      (hinv (t + u)).due (hbusy u) (hpre.eq_of_length hlen).symm
  have hedge : ∀ u, _ := fun u ↦ Link.rank_step (N := N) (ms (t + u)) (pops (t + u))
    (hinv (t + u)).link ((hinv (t + u)).due (hbusy u)) (hle u)
  have hrank : ∀ u, Link.rank N ((run ms pops (start front) (t + u)).link.step (ms (t + u))
      (pops (t + u))) = Link.rank N (run ms pops (start front) (t + (u + 1))).link := fun _ ↦ rfl
  have hwaits : ∀ u, Link.waitsForRoom ((run ms pops (start front) (t + u)).link.step (ms (t + u))
      (pops (t + u))).front ↔ Link.waitsForRoom (run ms pops (start front) (t + (u + 1))).front :=
    fun _ ↦ Iff.rfl
  have hend := Clocked.eventually_of_rank (x := fun u ↦ run ms pops (start front) (t + u))
    wellFounded_lt (fun x ↦ Link.rank N x.link) (fun _ ↦ False)
    (fun (_ : Unit) x ↦ Link.waitsForRoom x.front)
    (fun _ u ↦
      pops (t + u) || !decide (Link.waitsForRoom (run ms pops (start front) (t + u)).front))
    (fun _ u ↦ ?_) (fun u _ ↦ ?_) (fun u _ _ hw ↦ ?_) 0
  · exact hend.elim fun _ h ↦ h.2
  · by_contra hnot
    refine hroom ⟨t + u, fun v hv ↦ ?_⟩
    obtain ⟨w, rfl⟩ := Nat.exists_eq_add_of_le (show t ≤ v by omega)
    by_contra hv'
    refine hnot ⟨w, by omega, ?_⟩
    rw [not_and_or] at hv'
    rcases hv' with h | h
    · simp [h]
    · simp [Bool.eq_true_of_not_eq_false h]
  · rcases hedge u with hlt | ⟨-, hw, -, -⟩
    exacts [.inr (.inl (hrank u ▸ hlt)), .inr (.inr ⟨(), hw⟩)]
  · rcases hedge u with hlt | ⟨hpop, -, hw', heq⟩
    · exact .inr (.inl (hrank u ▸ hlt))
    · exact .inr (.inr ⟨by simp [hpop, show Link.waitsForRoom _ from hw], (hwaits u).mp hw',
        hrank u ▸ heq⟩)

/-- Every descriptor is answered once and in order, from its own words: the
command it encodes is pushed, or the error is raised and nothing is pushed.
The queue holds what was pushed and not yet taken, and the front end comes to
rest unless the queue stays full for good. -/
theorem front_end_transaction :
    (∀ t, ∃ os, (run ms pops (start front) t).rung.map outcomeOf =
      (run ms pops (start front) t).outcomes ++ os ∧ os.length ≤ 1) ∧
    (∀ t, (run ms pops (start front) t).front.AtRest →
      (run ms pops (start front) t).outcomes =
        (run ms pops (start front) t).rung.map outcomeOf) ∧
    (∀ t, ∃ ys, (run ms pops (start front) t).front.queue.Holds ys ∧
      xs ++ pushesOf (run ms pops (start front) t).outcomes =
        (run ms pops (start front) t).popped ++ ys) ∧
    (¬Stuck ms pops (start front) →
      ∀ t, ∃ u, t ≤ u ∧ (run ms pops (start front) u).front.AtRest) := by
  have hinv := inv_run hrest hq hobeys
  refine ⟨fun t ↦ ?_, fun t ↦ (hinv t).answered, fun t ↦ (hinv t).queue,
    comes_to_rest hrest hq hobeys⟩
  obtain ⟨fs, hfs, hexp⟩ := (hinv t).pending
  refine ⟨_, hexp.trans (List.append_assoc _ _ _), ?_⟩
  rw [List.length_append]
  by_cases hst : (run ms pops (start front) t).front.decode.state = .idle
  · have hdec : (run ms pops (start front) t).front.decodeHolds = [] := by
      simp [FrontEnd.decodeHolds, hst]
    rw [hdec]
    cases hfs <;> simp
  · rw [(hinv t).fetch_empty hfs hst, FrontEnd.decodeHolds]
    split <;> simp

end Run

/-! ## A concrete session -/

instance (x : Session) (m : Mmio) : Decidable (x.Careful m) :=
  decidable_of_iff (_ ∧ _ ∧ _) ⟨fun ⟨h1, h2, h3⟩ ↦ ⟨h1, h2, h3⟩, fun ⟨h1, h2, h3⟩ ↦ ⟨h1, h2, h3⟩⟩

theorem careful_idle (x : Session) : x.Careful .idle := ⟨nofun, nofun, nofun⟩

theorem obeys_of_script {script : List Mmio} {pops : ℕ → Bool} {x : Session}
    (h : ∀ t < script.length, (run (Link.onBus script) pops x t).Careful (Link.onBus script t)) :
    Obeys (Link.onBus script) pops x := by
  intro t
  by_cases ht : t < script.length
  · exact h t ht
  · rw [Link.onBus, List.getD_eq_default _ _ (by omega)]
    exact careful_idle _

/-- A reserved opcode, then a GEMM once the error has been raised. -/
def twoDescriptors : List Mmio :=
  Link.submission [9, 0, 64, 0, 32, 2, 2, 2, 0, 0, 0, 0, 0, 0, 0, 0] ++
    List.replicate 40 .idle ++
    Link.submission [2, 0, 64, 0, 32, 2, 2, 2, 0, 0, 0, 0, 0, 0, 0, 0]

theorem front_end_transaction_twoDescriptors :
    (run (Link.onBus twoDescriptors) (fun _ ↦ true) (start (.reset (fun _ ↦ 0) fun _ ↦ 0))
      120).outcomes =
    (run (Link.onBus twoDescriptors) (fun _ ↦ true) (start (.reset (fun _ ↦ 0) fun _ ↦ 0))
      120).rung.map outcomeOf :=
  (front_end_transaction (by decide) Fifo.holds_nil
    (obeys_of_script (by decide +kernel))).2.1 120 (by decide +kernel)

end Session

end LgNpu
