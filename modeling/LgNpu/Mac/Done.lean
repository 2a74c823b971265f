import LgNpu.Mac.Timing
import Mathlib.Tactic.ByContra

/-!
# The done pulse of the multiply-accumulate backends

The controller signals its end a fixed time after it handed the last iteration
to the loader, and the backend repeats the signal in the first cycle from then
on in which `pipe_empty` holds.  The loader, the processing element and the
first two post-processing stages do not count there, so the pulse can come
before the last element is even finished.
-/

namespace LgNpu

/-- The finished elements that are not yet written. -/
def MacPath.held (s : MacPath) : ℕ :=
  s.writer.pending + s.postproc.quant.valid.toNat + s.postproc.relu.valid.toNat +
    s.postproc.bias.valid.toNat + s.ppTriggerR.toNat

theorem MacPath.held_eq_zero {s : MacPath} : s.held = 0 ↔ s.writer.state ≠ .write ∧
    s.postproc.quant.valid = false ∧ s.postproc.relu.valid = false ∧
      s.postproc.bias.valid = false ∧ s.ppTriggerR = false := by
  simp [held, ConvWriter.pending, and_assoc]

/-- The flags of `pipe_empty` are enough for the stages behind the trigger: an
element anywhere there has its address in the queue. -/
theorem PostHolds.pipeEmpty_iff {D : Prop} {c : MacJob} {rd : ℕ → Byte}
    {w : BitVec 12 → Byte} {r n : ℕ} {s : MacPath} (h : PostHolds D c rd w r n s) :
    s.pipeEmpty = true ↔ s.held = 0 ∧ s.writer.state ≠ .ack := by
  have hout := h.addrs.outValid_eq
  rw [h.count] at hout
  rw [MacPath.held_eq_zero]
  simp only [MacPath.pipeEmpty, MacPath.ppOutReady, ConvWriter.inReady, hout]
  cases s.writer.state <;> cases s.postproc.quant.valid <;> cases s.postproc.relu.valid <;>
    cases s.postproc.bias.valid <;> cases s.ppTriggerR <;> simp

/-- On immediate grants: when done is high every write of the command, these
being its addresses, has been granted and none follows; the backend is busy
from acceptance to the last write; and done is high once. -/
structure Backend.DoneMeansWritten {S Cmd : Type} (b : Backend S Cmd) (cmd : Cmd) (x : Sys S)
    (addrs : List Addr) : Prop where
  written : ∀ t, b.done (b.run cmd (fun _ ↦ .all) x t).be = true →
    (b.run cmd (fun _ ↦ .all) x t).log.map Prod.fst = addrs
  last : ∀ t u, b.done (b.run cmd (fun _ ↦ .all) x t).be = true → t ≤ u →
    (b.run cmd (fun _ ↦ .all) x u).log = (b.run cmd (fun _ ↦ .all) x t).log
  busy : ∀ t, 0 < t → (b.run cmd (fun _ ↦ .all) x t).log.map Prod.fst ≠ addrs →
    b.busy (b.run cmd (fun _ ↦ .all) x t).be = true
  once : ∃! t, b.done (b.run cmd (fun _ ↦ .all) x t).be = true

theorem warmFeed_ne_idle {s lat : ℕ} : warmFeed lat s ≠ .idle := by
  match s with
  | 0 => simp [warmFeed]
  | 1 => simp [warmFeed]
  | s + 2 => simp [warmFeed]

namespace MacPath

variable {s : MacPath} (o : FrontOut)

theorem done_eq_true : s.done o = true ↔
    (o.ctrlDone = true ∨ s.ctrlFinished = true) ∧ s.pipeEmpty = true := by
  rw [done, Bool.and_eq_true, Bool.or_eq_true]

theorem ctrlFinished_step {rsp : BeRsp} : (s.step o rsp).ctrlFinished = true ↔
    (o.ctrlDone = true ∨ s.ctrlFinished = true) ∧ ¬s.pipeEmpty = true := by
  change (if s.done o then false else if o.ctrlDone then true else s.ctrlFinished) = true ↔ _
  rw [done]
  cases hd : o.ctrlDone <;> cases s.ctrlFinished <;> cases s.pipeEmpty <;> simp

end MacPath

namespace MacJob

variable (c : MacJob)

/-- The cycle in which the controller signals its end. -/
def endTime : ℕ := 5 * (c.total - 1) + 2

/-- The cycle in which the last element is finished. -/
def lastTime : ℕ := c.emitTime (c.total - 1)

/-- No finished element is anywhere between the trigger and the writer. -/
def ClearAt (u : ℕ) : Prop := ∀ v, c.EmitsAt v → v < u → v + 6 < u

/-- The first clear cycle from the controller's end on. -/
structure DoneAt (u : ℕ) : Prop where
  ended : c.endTime ≤ u
  clear : c.ClearAt u
  first : ∀ v, c.endTime ≤ v → v < u → ¬c.ClearAt v

/-- The controller has ended and the stages have not been clear since. -/
def OwedAt (u : ℕ) : Prop := c.endTime < u ∧ ∀ v, c.endTime ≤ v → v < u → ¬c.ClearAt v

variable {c} {lat u : ℕ}

theorem owedAt_succ : c.OwedAt (u + 1) ↔ (u = c.endTime ∨ c.OwedAt u) ∧ ¬c.ClearAt u := by
  constructor
  · rintro ⟨hlt, hall⟩
    refine ⟨?_, hall u (by omega) (Nat.lt_succ_self u)⟩
    by_cases he : u = c.endTime
    · exact .inl he
    · exact .inr ⟨by omega, fun v hv hvu ↦ hall v hv (by omega)⟩
  · rintro ⟨he | ⟨hlt, hall⟩, hnot⟩
    · refine ⟨by omega, fun v hv hvu ↦ ?_⟩
      rwa [show v = u by omega]
    · refine ⟨by omega, fun v hv hvu ↦ ?_⟩
      rcases Nat.lt_succ_iff_lt_or_eq.mp hvu with h | rfl
      · exact hall v hv h
      · exact hnot

theorem doneAt_iff : c.DoneAt u ↔ (u = c.endTime ∨ c.OwedAt u) ∧ c.ClearAt u := by
  constructor
  · rintro ⟨hend, hclear, hfirst⟩
    refine ⟨?_, hclear⟩
    rcases Nat.eq_or_lt_of_le hend with he | hlt
    · exact .inl he.symm
    · exact .inr ⟨hlt, hfirst⟩
  · rintro ⟨rfl | ⟨hlt, hall⟩, hclear⟩
    · exact ⟨le_rfl, hclear, fun v hv hlt ↦ absurd hv (by omega)⟩
    · exact ⟨hlt.le, hclear, hall⟩

theorem DoneAt.unique {v : ℕ} (hu : c.DoneAt u) (hv : c.DoneAt v) : u = v := by
  rcases lt_trichotomy u v with h | h | h
  · exact absurd hu.clear (hv.first u hu.ended h)
  · exact h
  · exact absurd hv.clear (hu.first v hv.ended h)

theorem emitTime_lt {i j : ℕ} (h : i < j) : c.emitTime i < c.emitTime j := by
  simp only [emitTime]
  split <;> split <;> omega

theorem endTime_lt_lastTime : c.endTime < c.lastTime := by
  simp only [endTime, lastTime, emitTime]
  split <;> omega

theorem emitTime_le_lastTime {i : ℕ} (hi : i < c.total) : c.emitTime i ≤ c.lastTime := by
  rcases Nat.lt_or_ge i (c.total - 1) with hlt | hge
  · exact (emitTime_lt hlt).le
  · rw [lastTime, show i = c.total - 1 by omega]

theorem EmitsAt.le_lastTime (h : c.EmitsAt u) : u ≤ c.lastTime := by
  obtain ⟨i, hi, -, rfl⟩ := h
  exact emitTime_le_lastTime hi

theorem loaderAt_of_lastTime_lt (h : c.lastTime < u) : c.loaderAt u = .idle := by
  obtain ⟨j, τ, hτ, rfl, hdiv, hmod⟩ := slot u
  rw [loaderAt, hdiv, hmod]
  split
  · next hj =>
      rw [lastTime, emitTime] at h
      obtain rfl : j = c.total - 1 := by split at h <;> omega
      split at h
      · next hz =>
          obtain rfl : τ = 4 := by omega
          rw [loaderIn, if_pos hz]
      · omega
  · rfl

theorem emitsAt_lastTime (hc : c.Positive) : c.EmitsAt c.lastTime := by
  have htotal : 0 < c.total := Nat.mul_pos hc.outs hc.its
  refine ⟨c.total - 1, by omega, ?_, rfl⟩
  rw [lastAt, decide_eq_true_eq, Nat.sub_add_cancel htotal]
  exact Nat.mul_mod_left _ _

/-- Past the last element the stages empty. -/
theorem clearAt_of_lt (h : c.lastTime + 6 < u) : c.ClearAt u := by
  intro v hv _
  have := hv.le_lastTime
  omega

theorem not_clearAt (hc : c.Positive) (h : c.lastTime < u) (hu : u ≤ c.lastTime + 6) :
    ¬c.ClearAt u := by
  intro hclear
  have := hclear _ (emitsAt_lastTime hc) h
  omega

theorem exists_doneAt (c : MacJob) : ∃ u, c.DoneAt u := by
  classical
  have hex : ∃ u, c.endTime ≤ u ∧ c.ClearAt u := by
    refine ⟨c.lastTime + 7, ?_, clearAt_of_lt (by omega)⟩
    have := c.endTime_lt_lastTime
    omega
  refine ⟨Nat.find hex, (Nat.find_spec hex).1, (Nat.find_spec hex).2, ?_⟩
  intro v hv hlt hclear
  exact Nat.find_min hex hlt ⟨hv, hclear⟩

/-! ## When the pulse comes after the last write -/

/-- Elements of one product, of which the last is not loaded slower than the
one before it. -/
structure Covered (c : MacJob) : Prop where
  single : c.its = 1
  several : 2 ≤ c.outs
  steady : c.zeroPad (c.outs - 2) = true → c.zeroPad (c.outs - 1) = true

theorem Covered.total (h : Covered c) : c.total = c.outs := by
  rw [MacJob.total, h.single, Nat.mul_one]

theorem Covered.not_clearAt (h : Covered c) (hu : c.endTime ≤ u) (hlt : u ≤ c.lastTime + 6) :
    ¬c.ClearAt u := by
  intro hclear
  have htotal := h.total
  have hlast : ∀ i, c.lastAt i = true := fun i ↦ by simp [lastAt, h.single, Nat.mod_one]
  have hseveral := h.several
  have h1 := hclear _ ⟨c.total - 1, by omega, hlast _, rfl⟩
  have h2 := hclear _ ⟨c.total - 2, by omega, hlast _, rfl⟩
  have hsteady := h.steady
  rw [← htotal] at hsteady
  simp only [lastTime, endTime, emitTime] at h1 h2 hu hlt
  cases hz : c.zeroPad (c.total - 1) with
  | true =>
      rw [hz, if_pos rfl] at h1 hlt
      split at h2 <;> omega
  | false =>
      have hz' : ¬c.zeroPad (c.total - 2) = true := fun hz' ↦
        absurd (hsteady hz') (by simp [hz])
      rw [if_neg hz'] at h2
      rw [hz, if_neg Bool.false_ne_true] at h1 hlt
      omega

/-- If the stages are never clear between the controller's end and the last
write, the element before the last one keeps them busy. -/
theorem covered_of_not_clearAt (hc : c.Positive)
    (h : ∀ u, c.endTime ≤ u → u < c.lastTime + 6 → ¬c.ClearAt u) : Covered c := by
  have hlt := c.endTime_lt_lastTime
  have htotal : 0 < c.total := Nat.mul_pos hc.outs hc.its
  -- what holds up the pulse in a cycle of the last slot is the iteration before it
  have hprev : ∀ u, c.endTime ≤ u → u ≤ 5 * c.total → u ≤ c.lastTime →
      2 ≤ c.total ∧ c.lastAt (c.total - 2) = true ∧ u ≤ c.emitTime (c.total - 2) + 6 := by
    intro u hu hu5 hul
    have hnot := h u hu (by omega)
    rw [ClearAt] at hnot
    push Not at hnot
    obtain ⟨v, ⟨i, hi, hlast, rfl⟩, hvu, hle⟩ := hnot
    have hne : i ≠ c.total - 1 := fun he ↦ by
      rw [he] at hvu
      exact absurd hul (not_le.mpr hvu)
    have hi2 : i = c.total - 2 := by
      rw [endTime] at hu
      rw [emitTime] at hle
      split at hle <;> omega
    subst hi2
    exact ⟨by omega, hlast, hle⟩
  obtain ⟨htwo, hlast, -⟩ := hprev c.endTime le_rfl (by rw [endTime]; omega) hlt.le
  have hits : c.its = 1 := by
    rw [lastAt, decide_eq_true_eq, show c.total - 2 + 1 = c.total - 1 by omega] at hlast
    have hdvd : c.its ∣ c.total - 1 := Nat.dvd_of_mod_eq_zero hlast
    have hdvd' : c.its ∣ c.total := Dvd.intro_left _ rfl
    have hone : c.its ∣ 1 := by
      have := Nat.dvd_sub hdvd' hdvd
      rwa [show c.total - (c.total - 1) = 1 by omega] at this
    exact Nat.dvd_one.mp hone
  have houts : c.total = c.outs := by rw [MacJob.total, hits, Nat.mul_one]
  refine ⟨hits, houts ▸ htwo, fun hz ↦ ?_⟩
  by_contra hz'
  rw [← houts] at hz hz'
  have hend : 5 * c.total ≤ c.lastTime := by
    rw [lastTime, emitTime, if_neg hz']
    omega
  obtain ⟨-, -, hle⟩ := hprev (5 * c.total) (by rw [endTime]; omega) le_rfl hend
  rw [emitTime, if_pos hz] at hle
  omega

/-- The pulse waits for the last write. -/
theorem doneAt_lastTime_le_iff (hc : c.Positive) :
    (∀ u, c.DoneAt u → c.lastTime + 6 ≤ u) ↔ Covered c := by
  constructor
  · intro h
    apply covered_of_not_clearAt hc
    intro u hu hlt hclear
    obtain ⟨v, hv⟩ := c.exists_doneAt
    have hle := h v hv
    exact hv.first u hu (by omega) hclear
  · intro h u hu
    by_contra hlt
    exact h.not_clearAt hu.ended (by omega) hu.clear

/-! ## The controller's end -/

theorem feedAt_eq_done (hc : 0 < c.total) : c.feedAt lat u = .done ↔ u = c.endTime := by
  obtain ⟨j, τ, hτ, rfl, hdiv, hmod⟩ := slot u
  simp only [feedAt, endTime, hdiv, hmod]
  split
  · interval_cases τ <;> simp only [reduceCtorEq, false_iff] <;> try omega
    · split <;> simp only [reduceCtorEq, false_iff] <;> omega
    · split <;> simp only [reduceCtorEq, false_iff, if_true, true_iff] <;> omega
    · split <;> simp only [reduceCtorEq, false_iff, Nat.reduceEqDiff, if_false] <;> omega
    · split <;> simp only [reduceCtorEq, false_iff, Nat.reduceEqDiff, if_false] <;> omega
  · simp only [reduceCtorEq, false_iff]
    omega

theorem feedAt_eq_idle (hc : 0 < c.total) : c.feedAt lat u = .idle ↔ c.endTime < u := by
  obtain ⟨j, τ, hτ, rfl, hdiv, hmod⟩ := slot u
  simp only [feedAt, endTime, hdiv, hmod]
  split
  · interval_cases τ <;> simp only [reduceCtorEq, false_iff] <;> try omega
    · split <;> simp only [reduceCtorEq, false_iff] <;> omega
    · split <;> simp only [reduceCtorEq, false_iff, if_true] <;> omega
    · split <;> simp only [reduceCtorEq, false_iff, Nat.reduceEqDiff, if_false, true_iff] <;> omega
    · split <;> simp only [reduceCtorEq, false_iff, Nat.reduceEqDiff, if_false, true_iff] <;> omega
  · simp only [true_iff]
    omega

end MacJob

section

open MacJob

variable {F Cmd : Type} {fe : MacFront F Cmd} {cmd : Cmd} {c : MacJob} {lat u : ℕ} {k : Track F}
  {D : Prop} {Rest : F → Prop} {At : Feed → F → Prop} {rd : ℕ → Byte}
  {w : BitVec 12 → Byte}

namespace Timed

variable (h : Timed c lat u k)
include h

/-- Elements leave for the writer in five cycles. -/
theorem held_eq_zero : k.path.held = 0 ↔ ∀ v, c.EmitsAt v → v < u → v + 5 < u := by
  rw [MacPath.held_eq_zero, ← Bool.not_eq_true k.path.ppTriggerR,
    ← Bool.not_eq_true k.path.postproc.bias.valid, ← Bool.not_eq_true k.path.postproc.relu.valid,
    ← Bool.not_eq_true k.path.postproc.quant.valid, Ne, h.write, h.quant, h.relu, h.bias, h.trigger]
  constructor
  · rintro ⟨h5, h4, h3, h2, h1⟩ v hv hlt
    by_contra hge
    obtain ⟨d, rfl⟩ : ∃ d, u = v + d := ⟨u - v, by omega⟩
    have hback : ∀ e, v + e - e = v := fun e ↦ Nat.add_sub_cancel v e
    have hd : d ≤ 5 := by omega
    interval_cases d
    · omega
    · exact h1 (by rwa [hback])
    · exact h2 (by rwa [hback])
    · exact h3 (by rwa [hback])
    · exact h4 (by rwa [hback])
    · exact h5 (by rwa [hback])
  · intro hall
    have hno : ∀ d, 0 < d → d ≤ 5 → ¬c.EmitsAt (u - d) := by
      intro d hd hd5 hv
      have hpos : u - d ≠ 0 := fun h0 ↦ not_emitsAt_zero (h0 ▸ hv)
      have := hall _ hv (by omega)
      omega
    refine ⟨?_, ?_, ?_, ?_, ?_⟩ <;> exact hno _ (by decide) (by decide)

variable (hi : MacInv D c At rd w k)
include hi

theorem ctrlDone_iff (hF : Feeds fe cmd c lat Rest At) (hc : 0 < c.total) :
    (fe.out k.sys.be.front).ctrlDone = true ↔ u = c.endTime := by
  rw [hF.ctrlDone _ _ hi.front, decide_eq_true_eq, h.feed, feedAt_eq_done hc]

theorem ctrlBusy_iff (hF : Feeds fe cmd c lat Rest At) (hc : 0 < c.total) :
    (fe.out k.sys.be.front).ctrlBusy = true ↔ u ≤ c.endTime := by
  rw [hF.ctrlBusy _ _ hi.front, decide_eq_true_eq, h.feed, Ne, feedAt_eq_idle hc, not_lt]

theorem pipeEmpty_iff : k.path.pipeEmpty = true ↔ c.ClearAt u := by
  rw [hi.post.pipeEmpty_iff, h.held_eq_zero, Ne, h.ack]
  constructor
  · rintro ⟨hheld, hack⟩ v hv hlt
    have h5 := hheld v hv hlt
    by_contra hge
    obtain rfl : v = u - 6 := by omega
    exact hack hv
  · intro hclear
    refine ⟨fun v hv hlt ↦ by have := hclear v hv hlt; omega, fun hv ↦ ?_⟩
    have hpos : u - 6 ≠ 0 := fun h0 ↦ not_emitsAt_zero (h0 ▸ hv)
    have := hclear _ hv (by omega)
    omega

/-- Once the last element is finished every element is in the stages or
written. -/
theorem length_add_held (hlate : c.lastTime < u) (hc : c.Positive) :
    k.sys.log.length + k.path.held = c.outs := by
  have htotal : 0 < c.total := Nat.mul_pos hc.outs hc.its
  have hlt := c.endTime_lt_lastTime
  have hidle : k.feed = .idle := by rw [h.feed, feedAt_eq_idle htotal]; omega
  have hload : k.path.loader.state = .idle := by
    rw [h.loader]
    exact loaderAt_of_lastTime_lt hlate
  have htaken : k.taken = c.total := by
    cases hi.loader with
    | idle _ hp => rw [hp, hidle]; rfl
    | req hs => exact absurd (hload.symm.trans hs) (by simp)
    | wait hs => exact absurd (hload.symm.trans hs) (by simp)
    | done hs => exact absurd (hload.symm.trans hs) (by simp)
  have hemitted : k.emitted = c.total := by
    cases hi.pe with
    | empty _ hr => rw [hr, htaken]
    | full hv =>
        obtain ⟨i, hlt, ht⟩ := h.pe.mp hv
        have := emitTime_le_lastTime hlt
        omega
  have hfired := hi.post.fired
  rw [hemitted, total, Nat.mul_div_cancel _ hc.its] at hfired
  simp only [MacPath.atTrigger, MacPath.atBias, MacPath.atRelu, MacPath.atQuant] at hfired
  rw [MacPath.held]
  omega

end Timed

/-! ## The run -/

variable {x : Sys (Mac F)} (hF : Feeds fe cmd c lat Rest At) (hpos : c.Positive)
  (hk : c.Keeps lat) (hq : Mac.Quiet Rest x) (hlog : x.log = [])
include hF hpos hk hq hlog

theorem ctrlFinished_iff (u : ℕ) :
    (track fe cmd c lat (fun _ ↦ .all) x (lat + 1 + u)).path.ctrlFinished = true ↔
      c.OwedAt u := by
  have htotal : 0 < c.total := Nat.mul_pos hpos.outs hpos.its
  induction u with
  | zero =>
      have hfin := (track_warm hF hpos hq hlog False (fun _ ↦ 0) (fun _ ↦ .all) le_rfl).2.2.finished
      rw [Nat.add_zero, hfin]
      refine ⟨fun h ↦ absurd h Bool.false_ne_true, fun h ↦ absurd h.1 (Nat.not_lt_zero _)⟩
  | succ u ih =>
      obtain ⟨hinv, htimed⟩ :=
        track_timed hF hpos hq hlog hk (D := False) (fun hd ↦ hd.elim) u
      rw [owedAt_succ, ← htimed.ctrlDone_iff hinv hF htotal, ← htimed.pipeEmpty_iff hinv]
      refine (MacPath.ctrlFinished_step _).trans (and_congr_left fun _ ↦ ?_)
      exact or_congr_right ih

theorem track_done_iff (u : ℕ) :
    (macBackend fe).done (track fe cmd c lat (fun _ ↦ .all) x (lat + 1 + u)).sys.be = true ↔
      c.DoneAt u := by
  have htotal : 0 < c.total := Nat.mul_pos hpos.outs hpos.its
  obtain ⟨hinv, htimed⟩ := track_timed hF hpos hq hlog hk (D := False) (fun hd ↦ hd.elim) u
  rw [doneAt_iff, ← ctrlFinished_iff hF hpos hk hq hlog, ← htimed.ctrlDone_iff hinv hF htotal,
    ← htimed.pipeEmpty_iff hinv]
  exact MacPath.done_eq_true _

/-- The pulse comes once, in the first clear cycle from the controller's end
on. -/
theorem run_done_iff (t : ℕ) :
    (macBackend fe).done ((macBackend fe).run cmd (fun _ ↦ .all) x t).be = true ↔
      ∃ u, t = lat + 2 + u ∧ c.DoneAt u := by
  have hquiet : ∀ s : MacPath, s.Quiet → ∀ o : FrontOut, o.ctrlDone = false →
      s.done o = false := by
    intro s hs o ho
    simp [MacPath.done, ho, hs.finished]
  rcases Nat.lt_or_ge t (lat + 2) with hlt | hge
  · constructor
    · intro hd
      apply absurd hd
      apply Bool.eq_false_iff.mp
      cases t with
      | zero => exact hquiet _ hq.path _ (hF.rest_done _ hq.front)
      | succ t =>
          obtain ⟨hinv, hfeed, hpath⟩ := track_warm hF hpos hq hlog False (fun _ ↦ 0)
            (fun _ ↦ .all) (show t ≤ lat + 1 by omega)
          rw [run_eq_track c lat]
          refine hquiet _ hpath _ ((hF.ctrlDone _ _ hinv.front).trans ?_)
          rw [hfeed]
          exact decide_eq_false warmFeed_ne_done
    · rintro ⟨u, rfl, -⟩
      omega
  · obtain ⟨u, rfl⟩ := Nat.exists_eq_add_of_le hge
    rw [show lat + 2 + u = lat + 1 + u + 1 by omega, run_eq_track c lat,
      track_done_iff hF hpos hk hq hlog]
    constructor
    · exact fun h ↦ ⟨u, by omega, h⟩
    · rintro ⟨v, hv, h⟩
      rwa [show u = v by omega]

theorem length_eq_iff (u : ℕ) :
    (track fe cmd c lat (fun _ ↦ .all) x (lat + 1 + u)).sys.log.length = c.outs ↔
      c.lastTime + 6 ≤ u := by
  have hat := fun v ↦ track_timed hF hpos hq hlog hk (D := False) (fun hd ↦ hd.elim) v
  have hlate := fun v hv ↦ (hat v).2.length_add_held (hat v).1 (show c.lastTime < v from hv) hpos
  constructor
  · intro hlen
    by_contra hlt
    obtain ⟨v, hv⟩ : ∃ v, v = max u (c.lastTime + 1) := ⟨_, rfl⟩
    have hmono := (log_isPrefix (macBackend fe) cmd (fun _ ↦ .all) x
      (show lat + 1 + u + 1 ≤ lat + 1 + v + 1 by omega)).length_le
    rw [run_eq_track c lat, run_eq_track c lat, hlen] at hmono
    have hheld : (track fe cmd c lat (fun _ ↦ .all) x (lat + 1 + v)).path.held = 0 := by
      have := hlate v (by omega)
      omega
    have := (hat v).2.held_eq_zero.mp hheld _ (emitsAt_lastTime hpos) (by omega)
    omega
  · intro hge
    have hheld : (track fe cmd c lat (fun _ ↦ .all) x (lat + 1 + u)).path.held = 0 := by
      apply (hat u).2.held_eq_zero.mpr
      intro v hv _
      have := hv.le_lastTime
      omega
    have := hlate u (by omega)
    omega

/-- The controller is busy until it ends, and then the register behind the
pulse is set until the pulse. -/
theorem track_busy {u : ℕ} (h : u ≤ c.endTime ∨ c.OwedAt u) :
    (macBackend fe).busy (track fe cmd c lat (fun _ ↦ .all) x (lat + 1 + u)).sys.be = true := by
  have htotal : 0 < c.total := Nat.mul_pos hpos.outs hpos.its
  obtain ⟨hinv, htimed⟩ := track_timed hF hpos hq hlog hk (D := False) (fun hd ↦ hd.elim) u
  change (_ || _ || _) = true
  rw [Bool.or_eq_true, Bool.or_eq_true]
  rcases h with hle | howed
  · exact .inl (.inl ((htimed.ctrlBusy_iff hinv hF htotal).mpr hle))
  · exact .inr ((ctrlFinished_iff hF hpos hk hq hlog u).mpr howed)

omit hk in
theorem track_warm_busy {s : ℕ} (hs : s ≤ lat + 1) :
    (macBackend fe).busy (track fe cmd c lat (fun _ ↦ .all) x s).sys.be = true := by
  obtain ⟨hinv, hfeed, -⟩ := track_warm hF hpos hq hlog False (fun _ ↦ 0) (fun _ ↦ .all) hs
  have hbusy := hF.ctrlBusy _ _ hinv.front
  rw [hfeed, decide_eq_true warmFeed_ne_idle] at hbusy
  change (_ || _ || _) = true
  rw [hbusy]
  rfl

/-- The done pulse means that everything is written exactly for the jobs that
keep the stages busy. -/
theorem doneMeansWritten_iff :
    (macBackend fe).DoneMeansWritten cmd x ((List.range c.outs).map c.wrAddr) ↔ c.Covered := by
  have hat := fun v ↦ (track_timed hF hpos hq hlog hk (D := False) (fun hd ↦ hd.elim) v).1
  have hdone := run_done_iff hF hpos hk hq hlog
  have hrun : ∀ u, (macBackend fe).run cmd (fun _ ↦ .all) x (lat + 2 + u) =
      (track fe cmd c lat (fun _ ↦ .all) x (lat + 1 + u)).sys := fun u ↦ by
    rw [track_sys]
    congr 1
    omega
  have hcomplete : ∀ u, ((track fe cmd c lat (fun _ ↦ .all) x (lat + 1 + u)).sys.log.map Prod.fst =
      (List.range c.outs).map c.wrAddr) ↔ c.lastTime + 6 ≤ u := fun u ↦ by
    rw [← length_eq_iff hF hpos hk hq hlog, (hat u).addrs]
    constructor
    · intro h
      simpa using congrArg List.length h
    · intro h
      rw [h]
  constructor
  · intro h
    apply (doneAt_lastTime_le_iff hpos).mp
    intro u hu
    rw [← hcomplete, ← hrun]
    exact h.written _ ((hdone _).mpr ⟨u, rfl, hu⟩)
  · intro hcov
    have hlate := (doneAt_lastTime_le_iff hpos).mpr hcov
    refine ⟨fun t ht ↦ ?_, fun t v ht htv ↦ ?_, fun t hpos' hne ↦ ?_, ?_⟩
    · obtain ⟨u, rfl, hu⟩ := (hdone t).mp ht
      rw [hrun, hcomplete]
      exact hlate u hu
    · obtain ⟨u, rfl, hu⟩ := (hdone t).mp ht
      obtain ⟨d, rfl⟩ := Nat.exists_eq_add_of_le htv
      refine ((log_isPrefix (macBackend fe) cmd (fun _ ↦ .all) x htv).eq_of_length_le ?_).symm
      rw [hrun, (length_eq_iff hF hpos hk hq hlog u).mpr (hlate u hu), Nat.add_assoc, hrun]
      exact (hat _).length_le
    · rcases Nat.lt_or_ge t (lat + 2) with hlt | hge
      · obtain ⟨s, rfl⟩ : ∃ s, t = s + 1 := ⟨t - 1, by omega⟩
        rw [run_eq_track c lat]
        exact track_warm_busy hF hpos hq hlog (by omega)
      · obtain ⟨u, rfl⟩ := Nat.exists_eq_add_of_le hge
        rw [hrun, ne_eq, hcomplete, not_le] at hne
        rw [hrun]
        apply track_busy hF hpos hk hq hlog
        rcases Nat.lt_or_ge c.endTime u with hend | hend
        · exact .inr ⟨hend, fun v hv hvu ↦ hcov.not_clearAt hv (by omega)⟩
        · exact .inl hend
    · obtain ⟨u, hu⟩ := c.exists_doneAt
      refine ⟨lat + 2 + u, (hdone _).mpr ⟨u, rfl, hu⟩, fun t ht ↦ ?_⟩
      obtain ⟨v, rfl, hv⟩ := (hdone t).mp ht
      rw [hv.unique hu]

theorem run_ends : (macBackend fe).Ends cmd (fun _ ↦ .all) x := by
  obtain ⟨u, hu⟩ := c.exists_doneAt
  exact ⟨lat + 2 + u, (run_done_iff hF hpos hk hq hlog _).mpr ⟨u, rfl, hu⟩⟩

end

end LgNpu
