import LgNpu.Lib.Stream
import LgNpu.Conv.Feed
import LgNpu.Gemm.Feed

/-!
# The loop controllers as sequencers

`conv_ctrl` and `gemm_ctrl` answer a command by the index tuples of its loop
nest in lexicographic order, marked where an accumulation starts and ends, and
then by one done pulse, whenever the datapath is ready to take them.
-/

namespace LgNpu

open LoopNest

/-! ## Iterations of a nest -/

/-- What the datapath sees of a loop controller: an iteration it takes, with
`acc_clr` and `last_inner`, or the done pulse. -/
inductive LoopEvent
  | iter (tuple : List ℕ) (accClr lastInner : Bool)
  | done

namespace LoopEvent

def tuple? : LoopEvent → Option (List ℕ)
  | iter tuple _ _ => some tuple
  | done => none

/-- The iterations of a nest whose inner loops make up one accumulation. -/
def nest (outer inner : List ℕ) : List LoopEvent :=
  (indices outer).flatMap fun o ↦ (indices inner).mapIdx fun j x ↦
    iter (o ++ x) (j = 0) (j + 1 = (indices inner).length)

def nth (outer inner : List ℕ) (i : ℕ) : LoopEvent :=
  iter (digits (outer ++ inner) i) (i % inner.prod = 0) ((i + 1) % inner.prod = 0)

variable {outer inner : List ℕ}

theorem nest_eq_map :
    nest outer inner = (List.range (outer.prod * inner.prod)).map (nth outer inner) := by
  have hinner : ∀ o : List ℕ, ((indices inner).mapIdx fun j x ↦
      iter (o ++ x) (j = 0) (j + 1 = (indices inner).length)) =
        (List.range inner.prod).map fun j ↦
          iter (o ++ digits inner j) (j = 0) (j + 1 = inner.prod) := by
    intro o
    apply List.ext_getElem
    · simp [indices_eq_map]
    · simp [indices_eq_map]
  have hjoin := map_range_mul (fun i j ↦
    iter (digits outer i ++ digits inner j) (j = 0) (j + 1 = inner.prod)) outer.prod inner.prod
  rw [nest, indices_eq_map outer, List.flatMap_map]
  simp only [hinner]
  refine hjoin.symm.trans (List.map_congr_left fun e he ↦ ?_)
  have hpos : 0 < inner.prod := pos_of_lt_mul (List.mem_range.mp he)
  simp only [nth, digits_append, digits_mod, succ_mod_eq_zero_iff hpos]

/-- The marks are those of a job with that many iterations an element. -/
theorem nth_of_job {job : MacJob} (h : job.its = inner.prod) (i : ℕ) : nth outer inner i =
    iter (digits (outer ++ inner) i) (job.clrAt i) (job.lastAt i) := by
  rw [nth, MacJob.clrAt, MacJob.lastAt, h]

theorem nest_tuples : (nest outer inner).filterMap tuple? = indices (outer ++ inner) := by
  rw [nest_eq_map, indices_eq_map, List.prod_append, List.filterMap_map]
  exact congrFun List.filterMap_eq_map _

/-- Where the inner loops run once, each iteration starts and ends an accumulation. -/
theorem nest_of_single (h : inner.prod = 1) :
    ∀ e ∈ nest outer inner, ∃ tuple, e = iter tuple true true := by
  intro e he
  rw [nest_eq_map] at he
  obtain ⟨i, -, rfl⟩ := List.mem_map.mp he
  exact ⟨digits (outer ++ inner) i, by simp [nth, h, Nat.mod_one]⟩

end LoopEvent

/-! ## Sequencers -/

structure LoopPins (γ : Type) where
  cmd : γ
  cmdValid : Bool
  iterReady : Bool

/-- A controller that walks a loop nest. -/
structure LoopCtrl (σ γ : Type) where
  step : σ → γ → Bool → Bool → σ
  state : σ → LoopState
  cmdR : σ → γ
  /-- The nest is at its end. -/
  last : σ → Bool
  /-- The iteration on offer. -/
  event : σ → LoopEvent
  /-- The extents of the loops around an accumulation and within it, the outermost first. -/
  outer : γ → List ℕ
  inner : γ → List ℕ

namespace LoopCtrl

variable {σ γ : Type} (c : LoopCtrl σ γ)

def stream (pins : ℕ → LoopPins γ) : StreamMachine σ γ LoopEvent where
  step t s := c.step s (pins t).cmd (pins t).cmdValid (pins t).iterReady
  taken t s := if c.state s = .idle && (pins t).cmdValid then [(pins t).cmd] else []
  sent t s :=
    match c.state s with
    | .compute => if (pins t).iterReady then [c.event s] else []
    | .done => [.done]
    | _ => []

def program (a : γ) : List LoopEvent := LoopEvent.nest (c.outer a) (c.inner a) ++ [.done]

def total (a : γ) : ℕ := (c.outer a).prod * (c.inner a).prod

def Positive (a : γ) : Prop := ∀ d ∈ c.outer a ++ c.inner a, 0 < d

/-- A controller at rest answers commands by their programs. -/
structure Sequences (s : σ) (pins : ℕ → LoopPins γ) : Prop where
  /-- In every cycle the events so far are the programs of the commands taken,
  but for what is left of the one in progress. -/
  trace : ∀ t, (∀ a ∈ (c.stream pins).accepted s t, c.Positive a) → ∃ left,
    ((c.stream pins).accepted s t).flatMap c.program = (c.stream pins).delivered s t ++ left ∧
      (left = [] ↔ c.state ((c.stream pins).run s t) = .idle)
  returns : ∀ t, c.state ((c.stream pins).run s t) = .done →
    c.state ((c.stream pins).run s (t + 1)) = .idle
  /-- Each command is seen through, unless the datapath is never ready again. -/
  finishes : ∀ t, (∀ a ∈ (c.stream pins).accepted s t, c.Positive a) →
    (∃ u, t ≤ u ∧ c.state ((c.stream pins).run s u) = .idle ∧
      (c.stream pins).delivered s u = ((c.stream pins).accepted s t).flatMap c.program) ∨
    ∃ u, ∀ v, u ≤ v → (pins v).iterReady = false
  /-- Each tuple of the ranges comes once, in lexicographic order. -/
  covers : ∀ a x, x ∈ (c.program a).filterMap LoopEvent.tuple? ↔
    List.Forall₂ (· < ·) x (c.outer a ++ c.inner a)
  sorted : ∀ a, ((c.program a).filterMap LoopEvent.tuple?).Pairwise (· < ·)
  single : ∀ a, (c.inner a).prod = 1 → ∀ e ∈ LoopEvent.nest (c.outer a) (c.inner a),
    ∃ tuple, e = .iter tuple true true

/-- The walk, `At a i s` saying that the loop registers stand at iteration `i`
of `a`. -/
structure Walks (At : γ → ℕ → σ → Prop) : Prop where
  state_step : ∀ s a v r, c.state (c.step s a v r) = (c.state s).next v r (c.last s)
  takes : ∀ s a r, c.state s = .idle → c.cmdR (c.step s a true r) = a
  keeps : ∀ s a v r, c.state s ≠ .idle → c.cmdR (c.step s a v r) = c.cmdR s
  begins : ∀ s a v r, c.state s = .loadCfg → At (c.cmdR s) 0 (c.step s a v r)
  stalls : ∀ s a v, c.state s = .compute → c.step s a v false = s
  advances : ∀ s a v i, c.state s = .compute → c.Positive (c.cmdR s) → At (c.cmdR s) i s →
    i + 1 < c.total (c.cmdR s) → At (c.cmdR s) (i + 1) (c.step s a v true)
  last_iff : ∀ s i, c.Positive (c.cmdR s) → At (c.cmdR s) i s →
    (c.last s = true ↔ i + 1 = c.total (c.cmdR s))
  event_eq : ∀ s i, c.state s = .compute → c.Positive (c.cmdR s) → At (c.cmdR s) i s →
    i < c.total (c.cmdR s) →
      c.event s = LoopEvent.nth (c.outer (c.cmdR s)) (c.inner (c.cmdR s)) i

/-- What is left to be sent. -/
inductive Stage (At : γ → ℕ → σ → Prop) (s : σ) : List LoopEvent → Prop
  | idle (hs : c.state s = .idle) : Stage At s []
  | load {l : List LoopEvent} (hs : c.state s = .loadCfg) (hpos : c.Positive (c.cmdR s))
      (hl : l = c.program (c.cmdR s)) : Stage At s l
  | walk {l : List LoopEvent} {i : ℕ} (hs : c.state s = .compute) (hpos : c.Positive (c.cmdR s))
      (hat : At (c.cmdR s) i s) (hi : i < c.total (c.cmdR s))
      (hl : l = (c.program (c.cmdR s)).drop i) : Stage At s l
  | drain (hs : c.state s = .drain) : Stage At s [.done]
  | done (hs : c.state s = .done) : Stage At s [.done]

variable {c} {At : γ → ℕ → σ → Prop} {s : σ} {l : List LoopEvent} {a : γ} {i : ℕ}

theorem Positive.total_pos (h : c.Positive a) : 0 < c.total a := by
  rw [Positive, List.forall_mem_append] at h
  exact Nat.mul_pos (List.prod_pos_iff_forall_pos_nat.mpr h.1)
    (List.prod_pos_iff_forall_pos_nat.mpr h.2)

theorem program_drop (hi : i < c.total a) : (c.program a).drop i =
    LoopEvent.nth (c.outer a) (c.inner a) i :: (c.program a).drop (i + 1) := by
  have hlen : i < (c.program a).length := by
    simp only [program, LoopEvent.nest_eq_map, List.length_append, List.length_map,
      List.length_range]
    exact Nat.lt_succ_of_lt hi
  rw [List.drop_eq_getElem_cons hlen]
  congr 1
  simp only [program, LoopEvent.nest_eq_map]
  rw [List.getElem_append_left (by simpa [total] using hi), List.getElem_map,
    List.getElem_range]

theorem program_drop_total : (c.program a).drop (c.total a) = [.done] := by
  simp [program, LoopEvent.nest_eq_map, total]

theorem Stage.eq_nil_iff (h : c.Stage At s l) : l = [] ↔ c.state s = .idle := by
  cases h with
  | idle hs => simp [hs]
  | load hs _ hl => simp [hs, hl, program]
  | walk hs _ _ hi hl => simp [hs, hl, program_drop hi]
  | drain hs => simp [hs]
  | done hs => simp [hs]

theorem program_tuples :
    (c.program a).filterMap LoopEvent.tuple? = indices (c.outer a ++ c.inner a) := by
  rw [program, List.filterMap_append, LoopEvent.nest_tuples]
  exact List.append_nil _

variable (c) in
/-- Falls with each grant, and never rises, until the program is over. -/
def rank (s : σ) (l : List LoopEvent) : ℕ :=
  2 * l.length + if c.state s = .loadCfg ∨ c.state s = .drain then 1 else 0

namespace Walks

variable (h : c.Walks At) {pins : ℕ → LoopPins γ}
include h

theorem stage_load (hs : c.state s = .loadCfg) (hpos : c.Positive (c.cmdR s)) (b : γ)
    (v r : Bool) : c.Stage At (c.step s b v r) (c.program (c.cmdR s)) := by
  have hcmd : c.cmdR (c.step s b v r) = c.cmdR s := h.keeps s b v r (by simp [hs])
  refine .walk (i := 0) ?_ (hcmd.symm ▸ hpos) ?_ ?_ ?_
  · rw [h.state_step, hs]
    rfl
  · rw [hcmd]
    exact h.begins s b v r hs
  · rw [hcmd]
    exact hpos.total_pos
  · rw [hcmd, List.drop_zero]

/-- After an iteration comes the next one or the end of the nest. -/
theorem stage_walk (hs : c.state s = .compute) (hpos : c.Positive (c.cmdR s))
    (hat : At (c.cmdR s) i s) (hi : i < c.total (c.cmdR s)) (b : γ) (v : Bool) :
    c.Stage At (c.step s b v true) ((c.program (c.cmdR s)).drop (i + 1)) := by
  have hcmd : c.cmdR (c.step s b v true) = c.cmdR s := h.keeps s b v true (by simp [hs])
  have hlast := h.last_iff s i hpos hat
  by_cases hend : i + 1 = c.total (c.cmdR s)
  · rw [hend, program_drop_total]
    apply Stage.drain
    rw [h.state_step, hs, hlast.mpr hend]
    rfl
  · refine .walk (i := i + 1) ?_ (hcmd.symm ▸ hpos) ?_ ?_ ?_
    · have hnot : c.last s = false := Bool.eq_false_of_not_eq_true fun hl ↦ hend (hlast.mp hl)
      rw [h.state_step, hs, hnot]
      rfl
    · rw [hcmd]
      exact h.advances s b v i hs hpos hat (by omega)
    · rw [hcmd]
      omega
    · rw [hcmd]

theorem plays : (c.stream pins).Plays c.program c.Positive (c.Stage At) where
  take t x hx := by
    have hs : c.state x = .idle := hx.eq_nil_iff.mp rfl
    have hnext := h.state_step x (pins t).cmd (pins t).cmdValid (pins t).iterReady
    rw [hs] at hnext
    refine ⟨by simp [stream, hs], ?_⟩
    cases hv : (pins t).cmdValid with
    | false =>
        rw [hv] at hnext
        exact .inl ⟨by simp [stream, hv], .idle (by simpa [stream, hv, LoopState.next] using hnext)⟩
    | true =>
        have hcmd := h.takes x (pins t).cmd (pins t).iterReady hs
        rw [hv] at hnext
        refine .inr ⟨(pins t).cmd, by simp [stream, hs, hv], fun hpos ↦ ?_⟩
        simp only [stream, hv]
        exact .load hnext (hcmd.symm ▸ hpos) (by rw [hcmd])
  send t x l hx hl := by
    have hnext := h.state_step x (pins t).cmd (pins t).cmdValid (pins t).iterReady
    have hbusy : c.state x ≠ .idle := fun hs ↦ hl (hx.eq_nil_iff.mpr hs)
    refine ⟨by simp [stream, hbusy], ?_⟩
    cases hx with
    | idle hs => exact absurd hs hbusy
    | load hs hpos heq =>
        exact ⟨l, by simp [stream, hs], heq ▸ h.stage_load hs hpos _ _ _⟩
    | @walk _ i hs hpos hat hi heq =>
        cases hr : (pins t).iterReady with
        | false =>
            refine ⟨l, by simp [stream, hs, hr], ?_⟩
            simp only [stream, hr, h.stalls x _ _ hs]
            exact .walk hs hpos hat hi heq
        | true =>
            refine ⟨(c.program (c.cmdR x)).drop (i + 1), ?_, ?_⟩
            · simp [stream, hs, hr, heq, program_drop hi, h.event_eq x i hs hpos hat hi]
            · simp only [stream, hr]
              exact h.stage_walk hs hpos hat hi _ _
    | drain hs =>
        refine ⟨[.done], by simp [stream, hs], ?_⟩
        rw [hs] at hnext
        cases hr : (pins t).iterReady with
        | false => exact .drain (by simpa [stream, hr, LoopState.next] using hnext)
        | true => exact .done (by simpa [stream, hr, LoopState.next] using hnext)
    | done hs =>
        rw [hs] at hnext
        exact ⟨[], by simp [stream, hs], .idle hnext⟩

theorem rank_step (t : ℕ) (x : σ) (l l' : List LoopEvent) (hx : c.Stage At x l) (hl : l ≠ [])
    (hsplit : l = (c.stream pins).sent t x ++ l') :
    c.rank ((c.stream pins).step t x) l' ≤ c.rank x l ∧
      ((pins t).iterReady = true → c.rank ((c.stream pins).step t x) l' < c.rank x l) := by
  have hnext := h.state_step x (pins t).cmd (pins t).cmdValid (pins t).iterReady
  cases hx with
  | idle => exact absurd rfl hl
  | load hs =>
      have hkeep : l = l' := by simpa [stream, hs] using hsplit
      rw [hs] at hnext
      simp [rank, stream, hnext, hs, hkeep, LoopState.next]
  | walk hs =>
      cases hr : (pins t).iterReady with
      | false =>
          have hkeep : l = l' := by simpa [stream, hs, hr] using hsplit
          simp [rank, stream, hr, h.stalls x _ _ hs, hkeep]
      | true =>
          have hsend : l.length = l'.length + 1 := by
            rw [hsplit]
            simp [stream, hs, hr]
          simp only [rank, hs, hsend]
          split
          · simp
            omega
          · simp
  | drain hs =>
      have hkeep : l' = [.done] := by simpa [stream, hs] using hsplit.symm
      rw [hs] at hnext
      cases hr : (pins t).iterReady with
      | false =>
          rw [hr] at hnext
          simp [rank, stream, hnext, hs, hkeep, hr, LoopState.next]
      | true =>
          rw [hr] at hnext
          simp [rank, stream, hnext, hs, hkeep, hr, LoopState.next]
  | done hs =>
      have hend : l' = [] := by simpa [stream, hs] using hsplit
      rw [hs] at hnext
      simp [rank, stream, hnext, hs, hend, LoopState.next]

/-- A controller that walks its nest is a sequencer. -/
theorem sequences (hs : c.state s = .idle) (pins : ℕ → LoopPins γ) : c.Sequences s pins where
  trace t hpos := by
    obtain ⟨left, hsplit, hleft⟩ := h.plays.run (.idle hs) t hpos
    exact ⟨left, hsplit, hleft.eq_nil_iff⟩
  returns t hdone := by
    have hnext := h.state_step ((c.stream pins).run s t) (pins t).cmd (pins t).cmdValid
      (pins t).iterReady
    rw [hdone] at hnext
    exact hnext
  finishes t hpos := by
    by_cases hfair : Clocked.Fair fun t ↦ (pins t).iterReady
    swap
    · exact .inr (by simpa [Clocked.Fair] using hfair)
    obtain ⟨left, -, hleft⟩ := h.plays.run (.idle hs) t hpos
    obtain ⟨u, hu, hidle, hacc⟩ := h.plays.finishes hfair c.rank
      (fun t x l l' hx hl hsplit _ ↦ h.rank_step t x l l' hx hl hsplit) t left hleft
    obtain ⟨left', hsplit, hleft'⟩ := h.plays.run (.idle hs) u (hacc ▸ hpos)
    have hrest : c.state ((c.stream pins).run s u) = .idle := hidle.eq_nil_iff.mp rfl
    rw [hleft'.eq_nil_iff.mpr hrest, List.append_nil, hacc] at hsplit
    exact .inl ⟨u, hu, hrest, hsplit.symm⟩
  covers a x := by rw [program_tuples, mem_indices]
  sorted a := by
    rw [program_tuples]
    exact sorted_indices _
  single _ := LoopEvent.nest_of_single

end Walks

end LoopCtrl

/-! ## Convolution -/

/-- The loops of `conv_ctrl` and its iteration ports. -/
def convLoop : LoopCtrl ConvCtrl ConvCmd where
  step := ConvCtrl.step
  state := ConvCtrl.state
  cmdR := ConvCtrl.cmdR
  last s := s.innerLast && s.outerLast
  event s := .iter [s.ohR.toNat, s.owR.toNat, s.kR.toNat, s.rR.toNat, s.sR.toNat, s.cR.toNat]
    s.accClr s.innerLast
  outer cmd := [cmd.outH.toNat, cmd.outW.toNat, cmd.outK.toNat]
  inner cmd := [cmd.filtR.toNat, cmd.filtS.toNat, cmd.inC.toNat]

section Conv

variable {cmd : ConvCmd} {s : ConvCtrl} {i : ℕ}

/-- The ports that take a command do not move a busy controller. -/
theorem ConvCtrl.step_of_busy (hs : s.state ≠ .idle) (cmd cmd' : ConvCmd) (v v' r : Bool) :
    s.step cmd v r = s.step cmd' v' r := by
  obtain ⟨state, cmdR, ohR, owR, kR, rR, sR, cR⟩ := s
  cases state with
  | idle => exact absurd rfl hs
  | loadCfg | compute | drain | done => rfl

theorem convLoop_looping (h : convLoop.Positive cmd) : cmd.Looping := by
  simp only [LoopCtrl.Positive, convLoop, List.cons_append, List.nil_append,
    List.forall_mem_cons] at h
  exact ⟨h.2.2.2.2.2.1, h.2.2.2.2.1, h.2.2.2.1, h.2.2.1⟩

theorem convLoop_total (h : convLoop.Positive cmd) : convLoop.total cmd = cmd.job.total := by
  have hH : 0 < cmd.outH.toNat := h _ (by simp [convLoop])
  have hW : 0 < cmd.outW.toNat := h _ (by simp [convLoop])
  simp [LoopCtrl.total, convLoop, MacJob.total, ConvCmd.job, limitDim_of_pos hH,
    limitDim_of_pos hW, Nat.mul_assoc]

theorem ConvFront.AtIndex.digits_eq (h : ConvFront.AtIndex cmd i s)
    (hpos : convLoop.Positive cmd) (hi : i < convLoop.total cmd) :
    [s.ohR.toNat, s.owR.toNat, s.kR.toNat, s.rR.toNat, s.sR.toNat, s.cR.toNat] =
      digits (convLoop.outer cmd ++ convLoop.inner cmd) i := by
  have hW : 0 < cmd.outW.toNat := hpos _ (by simp [convLoop])
  have hH : 0 < cmd.outH.toNat := hpos _ (by simp [convLoop])
  have hoh := ((convLoop_looping hpos).digits_lt (convLoop_total hpos ▸ hi)).1
  rw [limitDim_of_pos hH] at hoh
  rw [h.oh, h.ow, h.k, h.r, h.s, h.c, ← Nat.mod_eq_of_lt hoh]
  simp only [convLoop, ConvCmd.ohOf, ConvCmd.owOf, ConvCmd.kOf, ConvCmd.elemAt, ConvCmd.rAt,
    ConvCmd.sAt, ConvCmd.cAt, limitDim_of_pos hW, List.cons_append, List.nil_append, digits,
    List.prod_cons, List.prod_nil, Nat.one_mul, Nat.div_one, Nat.div_div_eq_div_mul,
    Nat.mul_comm, Nat.mul_left_comm]

theorem convLoop_walks : convLoop.Walks ConvFront.AtIndex where
  state_step _ _ _ _ := rfl
  takes s a r hs := by simp_all [convLoop, ConvCtrl.step]
  keeps s a v r hs := by simp_all [convLoop, ConvCtrl.step]
  begins s a v r hs := by
    change s.state = .loadCfg at hs
    constructor <;> simp [convLoop, ConvCtrl.step, hs, ConvCmd.ohOf, ConvCmd.owOf, ConvCmd.kOf,
      ConvCmd.elemAt, ConvCmd.rAt, ConvCmd.sAt, ConvCmd.cAt]
  stalls s a v hs := ConvCtrl.step_of_stalled (.inl hs)
  advances s a v i hs hpos hat hlt := by
    have hbusy : s.state ≠ .idle := by
      intro hidle
      simp [convLoop, hidle] at hs
    change ConvFront.AtIndex s.cmdR (i + 1) (s.step a v true)
    rw [ConvCtrl.step_of_busy hbusy a s.cmdR v v]
    exact hat.advance rfl (convLoop_looping hpos) hs (convLoop_total hpos ▸ hlt) v
  last_iff s i hpos hat := by
    rw [convLoop_total hpos]
    exact hat.last_iff rfl (convLoop_looping hpos)
  event_eq s i hs hpos hat hi := by
    have hp := convLoop_looping hpos
    have hits : s.cmdR.job.its = (convLoop.inner s.cmdR).prod := by
      simp [ConvCmd.job, convLoop, Nat.mul_assoc]
    have hclr : s.accClr = s.cmdR.job.clrAt i := hat.accClr_eq hp hs
    have hlast : s.innerLast = s.cmdR.job.lastAt i := hat.innerLast_eq rfl hp
    change LoopEvent.iter _ s.accClr s.innerLast =
      LoopEvent.nth (convLoop.outer s.cmdR) (convLoop.inner s.cmdR) i
    rw [hat.digits_eq hpos hi, hclr, hlast, LoopEvent.nth_of_job hits]
    rfl

end Conv

/-! ## GEMM -/

def gemmLoop : LoopCtrl GemmCtrl GemmCmd where
  step := GemmCtrl.step
  state := GemmCtrl.state
  cmdR := GemmCtrl.cmdR
  last s := s.innerLast && s.outerLast
  event s := .iter [s.mR.toNat, s.nR.toNat, s.kR.toNat] s.accClr s.innerLast
  outer cmd := [cmd.mDim.toNat, cmd.nDim.toNat]
  inner cmd := [cmd.kDim.toNat]

section Gemm

variable {cmd : GemmCmd} {s : GemmCtrl} {i : ℕ}

theorem GemmCtrl.step_of_busy (hs : s.state ≠ .idle) (cmd cmd' : GemmCmd) (v v' r : Bool) :
    s.step cmd v r = s.step cmd' v' r := by
  obtain ⟨state, cmdR, mR, nR, kR⟩ := s
  cases state with
  | idle => exact absurd rfl hs
  | loadCfg | compute | drain | done => rfl

theorem gemmLoop_positive (h : gemmLoop.Positive cmd) : cmd.Positive := by
  simp only [LoopCtrl.Positive, gemmLoop, List.cons_append, List.nil_append,
    List.forall_mem_cons] at h
  exact ⟨h.1, h.2.1, h.2.2.1⟩

theorem gemmLoop_total (cmd : GemmCmd) : gemmLoop.total cmd = cmd.job.total := by
  simp [LoopCtrl.total, gemmLoop, MacJob.total, GemmCmd.job]

theorem GemmFront.AtIndex.digits_eq (h : GemmFront.AtIndex cmd i s)
    (hi : i < gemmLoop.total cmd) : [s.mR.toNat, s.nR.toNat, s.kR.toNat] =
      digits (gemmLoop.outer cmd ++ gemmLoop.inner cmd) i := by
  have hm : cmd.mAt i < cmd.mDim.toNat := by
    rw [gemmLoop_total] at hi
    exact div_lt_of_lt_mul (div_lt_of_lt_mul hi)
  rw [h.m, h.n, h.k, ← Nat.mod_eq_of_lt hm]
  simp only [gemmLoop, GemmCmd.mAt, GemmCmd.nAt, GemmCmd.kAt, List.cons_append, List.nil_append,
    digits, List.prod_cons, List.prod_nil, Nat.one_mul, Nat.div_one, Nat.div_div_eq_div_mul,
    Nat.mul_comm]

theorem gemmLoop_walks : gemmLoop.Walks GemmFront.AtIndex where
  state_step _ _ _ _ := rfl
  takes s a r hs := by simp_all [gemmLoop, GemmCtrl.step]
  keeps s a v r hs := by simp_all [gemmLoop, GemmCtrl.step]
  begins s a v r hs := by
    change s.state = .loadCfg at hs
    constructor <;> simp [gemmLoop, GemmCtrl.step, hs, GemmCmd.mAt, GemmCmd.nAt, GemmCmd.kAt]
  stalls s a v hs := GemmCtrl.step_of_stalled (.inl hs)
  advances s a v i hs hpos hat hlt := by
    have hbusy : s.state ≠ .idle := by
      intro hidle
      simp [gemmLoop, hidle] at hs
    change GemmFront.AtIndex s.cmdR (i + 1) (s.step a v true)
    rw [GemmCtrl.step_of_busy hbusy a s.cmdR v v]
    exact hat.advance rfl (gemmLoop_positive hpos) hs (gemmLoop_total s.cmdR ▸ hlt) v
  last_iff s i hpos hat := by
    rw [gemmLoop_total]
    exact hat.last_iff rfl (gemmLoop_positive hpos)
  event_eq s i hs hpos hat hi := by
    have hits : s.cmdR.job.its = (gemmLoop.inner s.cmdR).prod := by
      simp [GemmCmd.job, gemmLoop]
    have hclr : s.accClr = s.cmdR.job.clrAt i := hat.accClr_eq hs
    have hlast : s.innerLast = s.cmdR.job.lastAt i :=
      hat.innerLast_eq rfl (gemmLoop_positive hpos)
    change LoopEvent.iter _ s.accClr s.innerLast =
      LoopEvent.nth (gemmLoop.outer s.cmdR) (gemmLoop.inner s.cmdR) i
    rw [hat.digits_eq hi, hclr, hlast, LoopEvent.nth_of_job hits]
    rfl

end Gemm

/-- The loop controllers are sequencers, whatever commands come and whenever the
datapath is ready. -/
theorem loop_sequencers :
    (∀ s : ConvCtrl, s.state = .idle → ∀ pins, convLoop.Sequences s pins) ∧
      ∀ s : GemmCtrl, s.state = .idle → ∀ pins, gemmLoop.Sequences s pins :=
  ⟨fun _ hs pins ↦ convLoop_walks.sequences hs pins,
    fun _ hs pins ↦ gemmLoop_walks.sequences hs pins⟩

/-- One command after reset, with the longest output row and the longest sum. -/
theorem loop_sequencers_longest :
    let conv : ConvCmd := { ConvCtrl.reset.cmdR with
      outH := 1, outW := 65535, outK := 1, filtR := 1, filtS := 1, inC := 1 }
    let gemm : GemmCmd := { GemmCtrl.reset.cmdR with mDim := 1, nDim := 1, kDim := 65535 }
    (∃ u, (convLoop.stream fun t ↦ ⟨conv, t = 0, true⟩).delivered .reset u =
      convLoop.program conv) ∧
    ∃ u, (gemmLoop.stream fun t ↦ ⟨gemm, t = 0, true⟩).delivered .reset u =
      gemmLoop.program gemm := by
  intro conv gemm
  constructor
  · have hpos : ∀ a ∈ [conv], convLoop.Positive a := by
      simp [conv, LoopCtrl.Positive, convLoop, ConvCtrl.reset]
    obtain ⟨u, -, -, hu⟩ | ⟨u, hu⟩ :=
      (loop_sequencers.1 .reset rfl fun t ↦ ⟨conv, t = 0, true⟩).finishes 1 hpos
    · exact ⟨u, hu.trans (List.append_nil _)⟩
    · exact Bool.noConfusion (hu u le_rfl)
  · have hpos : ∀ a ∈ [gemm], gemmLoop.Positive a := by
      simp [gemm, LoopCtrl.Positive, gemmLoop, GemmCtrl.reset]
    obtain ⟨u, -, -, hu⟩ | ⟨u, hu⟩ :=
      (loop_sequencers.2 .reset rfl fun t ↦ ⟨gemm, t = 0, true⟩).finishes 1 hpos
    · exact ⟨u, hu.trans (List.append_nil _)⟩
    · exact Bool.noConfusion (hu u le_rfl)

end LgNpu
