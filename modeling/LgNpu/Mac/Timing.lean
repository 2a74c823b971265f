import LgNpu.Mac.Flow
import Mathlib.Tactic.IntervalCases

/-!
# Timing on immediate grants

When every request is granted at once an iteration takes five cycles, whatever
the data.  Cycles are counted from the one in which the first iteration is on
offer, so that iteration `i` is on offer in cycle `5 * i`; the processing
element emits it three cycles later if it is padding and five otherwise, and a
finished element reaches the writer five cycles after that.
-/

namespace LgNpu

namespace MacJob

variable (c : MacJob)

/-- The cycle in which the processing element emits an iteration. -/
def emitTime (i : ℕ) : ℕ := 5 * i + if c.zeroPad i then 3 else 5

/-- An element is finished in this cycle. -/
def EmitsAt (u : ℕ) : Prop := ∃ i < c.total, c.lastAt i = true ∧ c.emitTime i = u

def feedAt (lat u : ℕ) : Feed :=
  if u / 5 < c.total then
    match u % 5 with
    | 0 => .computing (u / 5) 0
    | 1 => if u / 5 + 1 < c.total then .free (u / 5 + 1) else .drain
    | τ =>
        if u / 5 + 1 < c.total then .computing (u / 5 + 1) (lat + 1 - τ)
        else if τ = 2 then .done
        else .idle
  else .idle

/-- The loader in the cycles after an iteration was offered to it. -/
def loaderIn (padded : Bool) : ℕ → LoaderState
  | 1 => .req
  | 2 => if padded then .done else .wait
  | 3 => if padded then .idle else .wait
  | 4 => if padded then .idle else .done
  | _ => .idle

def loaderAt (u : ℕ) : LoaderState :=
  if u / 5 < c.total then loaderIn (c.zeroPad (u / 5)) (u % 5) else .idle

/-- Latencies for which the addresses are ready when the loader is: padding is
loaded faster than other operands. -/
structure Keeps (c : MacJob) (lat : ℕ) : Prop where
  pos : 0 < lat
  le : lat ≤ 4
  padded : ∀ i, c.zeroPad i = true → lat = 4

variable {c} {lat u : ℕ}

theorem emitTime_pos (i : ℕ) : 0 < c.emitTime i := by
  rw [emitTime]
  split <;> omega

theorem not_emitsAt_zero : ¬c.EmitsAt 0 := by
  rintro ⟨i, -, -, hi⟩
  exact absurd hi (c.emitTime_pos i).ne'

theorem slot (u : ℕ) : ∃ j τ, τ < 5 ∧ u = 5 * j + τ ∧ u / 5 = j ∧ u % 5 = τ :=
  ⟨u / 5, u % 5, Nat.mod_lt _ (by decide), (Nat.div_add_mod u 5).symm, rfl, rfl⟩

theorem loaderAt_slot {j τ : ℕ} (hj : j < c.total) (hτ : τ < 6) :
    c.loaderAt (5 * j + τ) = loaderIn (c.zeroPad j) τ := by
  rcases Nat.lt_or_ge τ 5 with h | h
  · rw [loaderAt, show (5 * j + τ) / 5 = j by omega, show (5 * j + τ) % 5 = τ by omega, if_pos hj]
  · obtain rfl : τ = 5 := by omega
    rw [loaderAt, show (5 * j + 5) % 5 = 0 by omega]
    split <;> rfl

theorem loaderAt_of_ge (hu : c.total ≤ u / 5) : c.loaderAt u = .idle := if_neg hu.not_gt

theorem feedAt_succ (hk : c.Keeps lat) :
    c.feedAt lat (u + 1) = (c.feedAt lat u).step c.total lat (decide (c.loaderAt u = .idle)) := by
  obtain ⟨j, τ, hτ, rfl, hdiv, hmod⟩ := slot u
  obtain ⟨hlat, hle, hpad⟩ := hk
  have hpad' := hpad j
  rcases Nat.lt_or_ge j c.total with hj | hj
  · interval_cases τ
    · have h1 : (5 * j + 0 + 1) / 5 = j := by omega
      have h2 : (5 * j + 0 + 1) % 5 = 1 := by omega
      simp [feedAt, loaderAt, loaderIn, h1, h2, hj, Feed.step]
    · have h1 : (5 * j + 1 + 1) / 5 = j := by omega
      have h2 : (5 * j + 1 + 1) % 5 = 2 := by omega
      simp only [feedAt, loaderAt, loaderIn, hdiv, hmod, h1, h2, hj, if_true]
      split <;> rfl
    · have h1 : (5 * j + 2 + 1) / 5 = j := by omega
      have h2 : (5 * j + 2 + 1) % 5 = 3 := by omega
      simp only [feedAt, loaderAt, loaderIn, hdiv, hmod, h1, h2, hj, if_true]
      split
      · cases hz : c.zeroPad j <;> interval_cases lat <;> simp_all [Feed.step]
      · rfl
    · have h1 : (5 * j + 3 + 1) / 5 = j := by omega
      have h2 : (5 * j + 3 + 1) % 5 = 4 := by omega
      simp only [feedAt, loaderAt, loaderIn, hdiv, hmod, h1, h2, hj, if_true]
      split
      · cases hz : c.zeroPad j <;> interval_cases lat <;> simp_all [Feed.step]
      · rfl
    · have h1 : (5 * j + 4 + 1) / 5 = j + 1 := by omega
      have h2 : (5 * j + 4 + 1) % 5 = 0 := by omega
      simp only [feedAt, loaderAt, loaderIn, hdiv, hmod, h1, h2, hj, if_true]
      split
      · cases hz : c.zeroPad j <;> interval_cases lat <;> simp_all [Feed.step]
      · rfl
  · have h1 : ¬(5 * j + τ + 1) / 5 < c.total := by omega
    simp [feedAt, hdiv, h1, hj.not_gt, Feed.step]

/-- The loader hands an iteration over in the cycle before it is emitted. -/
theorem loaderAt_eq_done :
    c.loaderAt u = .done ↔ ∃ i < c.total, c.emitTime i = u + 1 := by
  obtain ⟨j, τ, hτ, rfl, hdiv, hmod⟩ := slot u
  constructor
  · intro h
    simp only [loaderAt, hdiv, hmod] at h
    split at h
    · next hj =>
        refine ⟨j, hj, ?_⟩
        cases hz : c.zeroPad j <;> interval_cases τ <;> simp_all [emitTime, loaderIn]
    · simp at h
  · rintro ⟨i, hi, htime⟩
    simp only [emitTime] at htime
    cases hz : c.zeroPad i with
    | true =>
        simp only [hz, if_true] at htime
        obtain rfl : i = j := by omega
        obtain rfl : τ = 2 := by omega
        simp [loaderAt, loaderIn, hdiv, hmod, hi, hz]
    | false =>
        simp only [hz, Bool.false_eq_true, if_false] at htime
        obtain rfl : i = j := by omega
        obtain rfl : τ = 4 := by omega
        simp [loaderAt, loaderIn, hdiv, hmod, hi, hz]

/-- While an iteration is emitted the loader is idle and the next one has not
been taken. -/
theorem emitTime_slot (lat : ℕ) {i : ℕ} (hi : i < c.total) :
    c.loaderAt (c.emitTime i) = .idle ∧ (c.feedAt lat (c.emitTime i)).handed c.total = i + 1 := by
  cases hz : c.zeroPad i with
  | true =>
      have hu : c.emitTime i = 5 * i + 3 := by simp [emitTime, hz]
      have h1 : (5 * i + 3) / 5 = i := by omega
      have h2 : (5 * i + 3) % 5 = 3 := by omega
      rw [hu]
      refine ⟨by simp [loaderAt, loaderIn, h1, h2, hz], ?_⟩
      simp only [feedAt, h1, h2, hi, if_true]
      split
      · rfl
      · simp only [Nat.reduceEqDiff, if_false, Feed.handed]
        omega
  | false =>
      have hu : c.emitTime i = 5 * (i + 1) := by
        simp only [emitTime, hz, Bool.false_eq_true, if_false]
        omega
      have h1 : 5 * (i + 1) / 5 = i + 1 := by omega
      have h2 : 5 * (i + 1) % 5 = 0 := by omega
      rw [hu]
      refine ⟨by simp [loaderAt, loaderIn, h1, h2], ?_⟩
      simp only [feedAt, h1, h2]
      split
      · rfl
      · simp only [Feed.handed]
        omega

end MacJob

/-- The control registers in cycle `u`. -/
structure Timed {F : Type} (c : MacJob) (lat u : ℕ) (k : Track F) : Prop where
  feed : k.feed = c.feedAt lat u
  loader : k.path.loader.state = c.loaderAt u
  silent : u % 5 = 1 → u / 5 < c.total →
    k.mem.actBuf.beRdAcceptR = false ∧ k.mem.wtRvalid = false
  fresh : (u % 5 = 1 ∨ u % 5 = 2) → u / 5 < c.total → c.zeroPad (u / 5) = false →
    k.path.loader.actLatched = false ∧ k.path.loader.wtLatched = false
  got : u % 5 = 3 → u / 5 < c.total → c.zeroPad (u / 5) = false →
    k.path.loader.actLatched = true ∧ k.path.loader.wtLatched = true
  pe : k.path.pe.validR = true ↔ ∃ i < c.total, c.emitTime i = u
  trigger : k.path.ppTriggerR = true ↔ c.EmitsAt (u - 1)
  bias : k.path.postproc.bias.valid = true ↔ c.EmitsAt (u - 2)
  relu : k.path.postproc.relu.valid = true ↔ c.EmitsAt (u - 3)
  quant : k.path.postproc.quant.valid = true ↔ c.EmitsAt (u - 4)
  write : k.path.writer.state = .write ↔ c.EmitsAt (u - 5)
  ack : k.path.writer.state = .ack ↔ c.EmitsAt (u - 6)

section Timed

open Mac MacJob

variable {F Cmd : Type} {fe : MacFront F Cmd} {cmd : Cmd} {c : MacJob} {lat u : ℕ} {k : Track F}
  {D : Prop} {Rest : F → Prop} {At : Feed → F → Prop} {rd : ℕ → Byte}
  {w : BitVec 12 → Byte}

namespace Timed

variable (h : Timed c lat u k)
include h

variable (hi : MacInv D c At rd w k)
include hi

/-- What is emitted is the iteration whose time it is. -/
theorem emitted_eq {i : ℕ} (hlt : i < c.total) (ht : c.emitTime i = u) :
    k.path.pe.validR = true ∧ k.emitted = i ∧ k.path.lastInnerD = c.lastAt i ∧
      k.path.loader.state = .idle := by
  have hv : k.path.pe.validR = true := h.pe.mpr ⟨i, hlt, ht⟩
  obtain ⟨hidle, hhanded⟩ := emitTime_slot lat hlt
  rw [ht] at hidle hhanded
  have hstate := h.loader.trans hidle
  have htaken : k.taken = i + 1 := by
    rw [← hhanded, ← h.feed]
    cases hi.loader with
    | idle _ hp => exact hp
    | req hs => exact absurd (hstate.symm.trans hs) (by simp)
    | wait hs => exact absurd (hstate.symm.trans hs) (by simp)
    | done hs => exact absurd (hstate.symm.trans hs) (by simp)
  cases hi.pe with
  | empty hv' => exact absurd (hv.symm.trans hv') (by simp)
  | full _ hr _ hlast =>
      have hem : k.emitted = i := by omega
      exact ⟨hv, hem, hem ▸ hlast, hstate⟩

theorem last_iff : k.path.pe.validR = true ∧ k.path.lastInnerD = true ↔ c.EmitsAt u := by
  constructor
  · rintro ⟨hv, hlast⟩
    obtain ⟨i, hlt, ht⟩ := h.pe.mp hv
    exact ⟨i, hlt, (h.emitted_eq hi hlt ht).2.2.1 ▸ hlast, ht⟩
  · rintro ⟨i, hlt, hlast, ht⟩
    obtain ⟨hv, -, hl, -⟩ := h.emitted_eq hi hlt ht
    exact ⟨hv, hl.trans hlast⟩

/-! ### One cycle -/

omit hi in
/-- The writer takes an element as soon as it is there. -/
theorem writer_step (hfl : k.path.Flowing) :
    ((k.step fe cmd c lat .all).path.writer.state = .write ↔ c.EmitsAt (u + 1 - 5)) ∧
      ((k.step fe cmd c lat .all).path.writer.state = .ack ↔ c.EmitsAt (u + 1 - 6)) := by
  have hnext : (k.step fe cmd c lat .all).path.writer.state = _ :=
    hfl.writer_step (fe.out k.sys.be.front) (rspOf fe .all k.sys) (Bool.and_true _)
  rw [show u + 1 - 5 = u - 4 by omega, show u + 1 - 6 = u - 5 by omega, ← h.quant, ← h.write, hnext]
  cases hq : k.path.postproc.quant.valid with
  | false => cases hs : k.path.writer.state <;> simp [ConvWriter.memReq, hs]
  | true => simp [hfl.quant hq]

theorem post_step (hfl : k.path.Flowing) :
    ((k.step fe cmd c lat .all).path.ppTriggerR = true ↔ c.EmitsAt (u + 1 - 1)) ∧
      ((k.step fe cmd c lat .all).path.postproc.bias.valid = true ↔ c.EmitsAt (u + 1 - 2)) ∧
      ((k.step fe cmd c lat .all).path.postproc.relu.valid = true ↔ c.EmitsAt (u + 1 - 3)) ∧
      ((k.step fe cmd c lat .all).path.postproc.quant.valid = true ↔ c.EmitsAt (u + 1 - 4)) := by
  have htrigger : (k.step fe cmd c lat .all).path.ppTriggerR = _ := hfl.trigger_step _ _
  have hbias : (k.step fe cmd c lat .all).path.postproc.bias.valid = _ := hfl.bias_step _ _
  have hrelu : (k.step fe cmd c lat .all).path.postproc.relu.valid = _ := hfl.relu_step _ _
  have hquant : (k.step fe cmd c lat .all).path.postproc.quant.valid = _ := hfl.quant_step _ _
  rw [htrigger, hquant, hrelu, hbias, Nat.add_sub_cancel, show u + 1 - 2 = u - 1 by omega,
    show u + 1 - 3 = u - 2 by omega, show u + 1 - 4 = u - 3 by omega, Bool.and_eq_true_iff]
  exact ⟨and_comm.trans (h.last_iff hi), h.trigger, h.bias, h.relu⟩

omit hi in
theorem pe_step (hfl : k.path.Flowing) : (k.step fe cmd c lat .all).path.pe.validR = true ↔
    ∃ i < c.total, c.emitTime i = u + 1 := by
  have hnext : (k.step fe cmd c lat .all).path.pe.validR = _ := hfl.pe_step _ _
  rw [← loaderAt_eq_done, ← h.loader, hnext]
  exact decide_eq_true_iff

omit hi in
theorem not_valid (hk : c.Keeps lat) {j τ : ℕ} (hj : j < c.total) (hτ : τ < 5)
    (hu : u = 5 * j + τ) (hpos : 0 < τ) (hidle : loaderIn (c.zeroPad j) τ = .idle) :
    k.feed.valid = false := by
  obtain ⟨-, -, hpad⟩ := hk
  have hz : c.zeroPad j = true := by
    by_contra hz
    interval_cases τ <;> simp_all [loaderIn]
  obtain rfl := hpad j hz
  have hdiv : (5 * j + τ) / 5 = j := by omega
  have hmod : (5 * j + τ) % 5 = τ := by omega
  rw [h.feed, hu]
  simp only [feedAt, hdiv, hmod, hj, if_true]
  interval_cases τ <;> simp_all [loaderIn] <;> split <;> rfl

theorem padded_eq {j : ℕ} (hj : j < c.total) (hu : u = 5 * j + 1) :
    k.path.loader.isZeroPadR = c.zeroPad j := by
  subst hu
  have hs : k.path.loader.state = .req := h.loader.trans (loaderAt_slot hj (by decide))
  have hdiv : (5 * j + 1) / 5 = j := by omega
  have hmod : (5 * j + 1) % 5 = 1 := by omega
  have hhanded : (c.feedAt lat (5 * j + 1)).handed c.total = j + 1 := by
    simp only [feedAt, hdiv, hmod, hj, if_true]
    split
    · rfl
    · simp only [Feed.handed]
      omega
  cases hi.loader with
  | req _ hp _ hz =>
      rw [h.feed, hhanded] at hp
      rw [hz, show k.taken = j by omega]
  | idle hs' => exact absurd (hs.symm.trans hs') (by simp)
  | wait hs' => exact absurd (hs.symm.trans hs') (by simp)
  | done hs' => exact absurd (hs.symm.trans hs') (by simp)

theorem loader_step (hfl : k.path.Flowing) (hF : Feeds fe cmd c lat Rest At) (hk : c.Keeps lat) :
    (k.step fe cmd c lat .all).path.loader.state = c.loaderAt (u + 1) := by
  have hvalid := hF.valid _ _ hi.front
  have hstep : (k.step fe cmd c lat .all).path.loader.state =
      k.path.loader.stateNext (fe.out k.sys.be.front).addrGenValid
        (rspOf fe .all k.sys).actRdGnt (rspOf fe .all k.sys).wtRdGnt k.path.loadPairReady := rfl
  rw [hstep, hvalid, hfl.loadPairReady, rsp_act, rsp_wt hi.calm]
  change k.path.loader.stateNext _ (k.path.loader.actMemReq && true)
    (k.path.loader.wtMemReq && true) _ = _
  rw [Bool.and_true, Bool.and_true]
  obtain ⟨j, τ, hτ, hu, hdiv, hmod⟩ := slot u
  rcases Nat.lt_or_ge j c.total with hj | hj
  · have hstate := h.loader
    have hnv := h.not_valid hk hj hτ hu
    have hfresh := h.fresh
    have hgot := h.got
    rw [hdiv, hmod] at hfresh hgot
    rw [hu, loaderAt_slot hj (by omega)] at hstate
    rw [hu, Nat.add_assoc, loaderAt_slot hj (by omega)]
    interval_cases τ
    · have hval : k.feed.valid = true := by simp [h.feed, hu, feedAt, hj, Feed.valid]
      simp [ConvLoader.stateNext, hstate, loaderIn, hval]
    · have hz := h.padded_eq hi hj hu
      cases hzp : c.zeroPad j with
      | true => simp [ConvLoader.stateNext, hstate, loaderIn, hz, hzp]
      | false =>
          obtain ⟨hla, hlw⟩ := hfresh (.inl rfl) hj hzp
          simp [ConvLoader.stateNext, ConvLoader.actMemReq, ConvLoader.wtMemReq, hstate, loaderIn,
            hz, hzp, hla, hlw]
    · cases hzp : c.zeroPad j with
      | true => simp [ConvLoader.stateNext, hstate, loaderIn, hzp]
      | false =>
          obtain ⟨hla, -⟩ := hfresh (.inr rfl) hj hzp
          simp [ConvLoader.stateNext, hstate, loaderIn, hzp, hla]
    · cases hzp : c.zeroPad j with
      | true =>
          rw [hzp] at hnv
          simp [ConvLoader.stateNext, hstate, loaderIn, hzp, hnv (by decide) rfl]
      | false =>
          obtain ⟨hla, hlw⟩ := hgot rfl hj hzp
          simp [ConvLoader.stateNext, hstate, loaderIn, hzp, hla, hlw]
    · cases hzp : c.zeroPad j with
      | true =>
          rw [hzp] at hnv
          simp [ConvLoader.stateNext, hstate, loaderIn, hzp, hnv (by decide) rfl]
      | false => simp [ConvLoader.stateNext, hstate, loaderIn, hzp]
  · have hfeed : k.feed = .idle := by rw [h.feed, feedAt, if_neg (by omega)]
    have hstate : k.path.loader.state = .idle := h.loader.trans (loaderAt_of_ge (by omega))
    rw [loaderAt_of_ge (by omega)]
    simp [ConvLoader.stateNext, hstate, hfeed, Feed.valid]

theorem operands_step (hF : Feeds fe cmd c lat Rest At) {j τ : ℕ} (hj : j < c.total) (hτ : τ < 4)
    (hu : u = 5 * j + τ) :
    (τ = 0 → (k.step fe cmd c lat .all).mem.actBuf.beRdAcceptR = false ∧
      (k.step fe cmd c lat .all).mem.wtRvalid = false) ∧
    ((τ = 0 ∨ τ = 1) → c.zeroPad j = false →
      (k.step fe cmd c lat .all).path.loader.actLatched = false ∧
      (k.step fe cmd c lat .all).path.loader.wtLatched = false) ∧
    (τ = 2 → c.zeroPad j = false →
      (k.step fe cmd c lat .all).path.loader.actLatched = true ∧
      (k.step fe cmd c lat .all).path.loader.wtLatched = true) := by
  have hdiv : u / 5 = j := by omega
  have hmod : u % 5 = τ := by omega
  have hstate := h.loader
  rw [hu, loaderAt_slot hj (by omega)] at hstate
  have hfresh := h.fresh
  rw [hdiv, hmod] at hfresh
  have hact : (k.step fe cmd c lat .all).mem.actBuf.beRdAcceptR =
      (k.path.loader.actMemReq && true) := rfl
  have hwt : (k.step fe cmd c lat .all).mem.wtRvalid = (k.path.loader.wtMemReq && true) :=
    NpuMemTop.wtRvalid_step hi.calm one_reader
  refine ⟨?_, ?_, ?_⟩
  · rintro rfl
    rw [hact, hwt]
    simp [ConvLoader.actMemReq, ConvLoader.wtMemReq, hstate, loaderIn]
  · rintro (rfl | rfl) hzp
    · have hfeed : k.feed = .computing j 0 := by simp [h.feed, feedAt, hdiv, hmod, hj]
      have hfront := hi.front
      rw [hfeed] at hfront
      have ho := hF.offers _ _ hfront
      have hval : (fe.out k.sys.be.front).addrGenValid = true := hF.valid _ _ hfront
      have hload : (k.step fe cmd c lat .all).path.loader =
          k.path.loader.step _ _ _ _ _ _ _ _ _ _ _ := rfl
      rw [hload]
      simp [ConvLoader.step, ConvLoader.taking, hstate, loaderIn, hval, ho.zeroPad, hzp]
    · obtain ⟨hsa, hsw⟩ := h.silent hmod (hdiv ▸ hj)
      obtain ⟨hla, hlw⟩ := hfresh (.inl rfl) hj hzp
      have hload : (k.step fe cmd c lat .all).path.loader = _ :=
        LgNpu.loader_step fe cmd false .all (.inl hstate)
      rw [hload]
      change (if k.mem.actBuf.beRdAcceptR && !k.path.loader.actLatched then true
        else k.path.loader.actLatched) = false ∧ (if k.mem.wtRvalid && !k.path.loader.wtLatched
        then true else k.path.loader.wtLatched) = false
      rw [hsa, hsw]
      exact ⟨hla, hlw⟩
  · rintro rfl hzp
    obtain ⟨hla, hlw⟩ := hfresh (.inr rfl) hj hzp
    have hs : k.path.loader.state = .wait := by rw [hstate, hzp]; rfl
    have hload : (k.step fe cmd c lat .all).path.loader = _ :=
      LgNpu.loader_step fe cmd false .all (.inr hs)
    rw [hload]
    change (if k.mem.actBuf.beRdAcceptR && !k.path.loader.actLatched then true
      else k.path.loader.actLatched) = true ∧ (if k.mem.wtRvalid && !k.path.loader.wtLatched
      then true else k.path.loader.wtLatched) = true
    cases hi.loader with
    | wait _ _ _ _ _ hgota hgotw =>
        rw [hla] at hgota
        rw [hlw] at hgotw
        simp only [Bool.false_eq_true, false_or] at hgota hgotw
        simp [hla, hlw, hgota, hgotw]
    | idle hs' => exact absurd (hs.symm.trans hs') (by simp)
    | req hs' => exact absurd (hs.symm.trans hs') (by simp)
    | done hs' => exact absurd (hs.symm.trans hs') (by simp)

theorem step (hfl : k.path.Flowing) (hF : Feeds fe cmd c lat Rest At) (hk : c.Keeps lat) :
    Timed c lat (u + 1) (k.step fe cmd c lat .all) := by
  obtain ⟨htrig, hbias, hrelu, hquant⟩ := h.post_step hi hfl
  obtain ⟨hwrite, hack⟩ := h.writer_step hfl
  refine ⟨?_, h.loader_step hi hfl hF hk, fun hm hj ↦ ?_, fun hm hj hz ↦ ?_, fun hm hj hz ↦ ?_,
    h.pe_step hfl, htrig, hbias, hrelu, hquant, hwrite, hack⟩
  · rw [feedAt_succ hk, ← h.feed, ← h.loader]
    rfl
  · have hu : u = 5 * ((u + 1) / 5) + 0 := by omega
    exact (h.operands_step hi hF hj (by decide) hu).1 rfl
  · have hu : u = 5 * ((u + 1) / 5) + ((u + 1) % 5 - 1) := by omega
    exact (h.operands_step hi hF hj (by omega) hu).2.1 (by omega) hz
  · have hu : u = 5 * ((u + 1) / 5) + 2 := by omega
    exact (h.operands_step hi hF hj (by decide) hu).2.2 rfl hz

end Timed

/-! ### The run -/

/-- An operand read does not hit an output write of the same job. -/
def MacJob.Disjoint (c : MacJob) : Prop :=
  ∀ i < c.total, c.zeroPad i = false → ∀ e < c.outs,
    (c.wrAddr e).setWidth 13 ≠ (c.actAddr i).setWidth 13

instance (c : MacJob) : Decidable c.Disjoint :=
  inferInstanceAs (Decidable (∀ i < c.total, c.zeroPad i = false → ∀ e < c.outs,
    (c.wrAddr e).setWidth 13 ≠ (c.actAddr i).setWidth 13))

theorem MacInv.noHazard (h : MacInv D c At rd w k) (hc : c.Disjoint)
    (hreq : k.path.loader.actMemReq = true) :
    k.sys.be.path.loader.actAddrR = c.actAddr k.taken ∧
      ∀ wr ∈ k.sys.log, wr.1.setWidth 13 ≠ k.sys.be.path.loader.actAddrR.setWidth 13 := by
  have hs : k.path.loader.state = .req := by
    by_contra hne
    simp [ConvLoader.actMemReq, hne] at hreq
  have htotal := h.taken_le_total
  have hhanded := Feed.handed_le h.within
  cases h.loader with
  | req _ hp _ hz _ hact =>
      have hzp : c.zeroPad k.taken = false := by
        rw [← hz]
        cases hzr : k.path.loader.isZeroPadR with
        | false => rfl
        | true => simp [ConvLoader.actMemReq, hzr] at hreq
      refine ⟨hact, fun wr hwr ↦ ?_⟩
      have hmem : wr.1 ∈ (List.range k.sys.log.length).map c.wrAddr := by
        rw [← h.addrs]
        exact List.mem_map_of_mem hwr
      obtain ⟨e, he, hwa⟩ := List.mem_map.mp hmem
      have haddr : k.sys.be.path.loader.actAddrR = c.actAddr k.taken := hact
      rw [← hwa, haddr]
      exact hc _ (by omega) hzp _ ((List.mem_range.mp he).trans_le h.length_le)
  | idle hs' => exact absurd (hs.symm.trans hs') (by simp)
  | wait hs' => exact absurd (hs.symm.trans hs') (by simp)
  | done hs' => exact absurd (hs.symm.trans hs') (by simp)

/-- The feed while the first addresses are computed. -/
def warmFeed (lat : ℕ) : ℕ → Feed
  | 0 => .cfg
  | 1 => .free 0
  | s + 2 => .computing 0 (lat - 1 - s)

theorem warmFeed_succ {s total lat : ℕ} (hs : s ≤ lat) (ready : Bool) :
    warmFeed lat (s + 1) = (warmFeed lat s).step total lat ready := by
  match s with
  | 0 => rfl
  | 1 => rfl
  | s + 2 =>
      have hsub : lat - 1 - s = lat - 1 - (s + 1) + 1 := by omega
      change Feed.computing 0 (lat - 1 - (s + 1)) = (Feed.computing 0 (lat - 1 - s)).step _ _ _
      rw [hsub]
      rfl

theorem warmFeed_valid {s lat : ℕ} (hs : s ≤ lat) : (warmFeed lat s).valid = false := by
  match s with
  | 0 => rfl
  | 1 => rfl
  | s + 2 =>
      have hsub : lat - 1 - s = lat - 2 - s + 1 := by omega
      change (Feed.computing 0 (lat - 1 - s)).valid = false
      rw [hsub]
      rfl

theorem warmFeed_ne_done {s lat : ℕ} : warmFeed lat s ≠ .done := by
  match s with
  | 0 => simp [warmFeed]
  | 1 => simp [warmFeed]
  | s + 2 => simp [warmFeed]

theorem MacPath.Quiet.smooth {x : Sys (Mac F)} {g : Grants} {d : Byte} (h : x.be.path.Quiet) :
    Smooth g x D d := by
  refine ⟨fun hc ↦ ?_, fun _ hreq ↦ ?_⟩
  · simp [MacPath.accEn, h.pe] at hc
  · simp [ConvLoader.actMemReq, h.loader] at hreq

variable {x : Sys (Mac F)} (hF : Feeds fe cmd c lat Rest At) (hpos : c.Positive)
  (hq : Mac.Quiet Rest x) (hlog : x.log = [])
include hF hpos hq hlog

/-- Until the first iteration is on offer nothing moves. -/
theorem track_warm (D : Prop) (rd : ℕ → Byte) (gs : ℕ → Grants) {s : ℕ} (hs : s ≤ lat + 1) :
    MacInv D c At rd x.mem.wt (track fe cmd c lat gs x s) ∧
      (track fe cmd c lat gs x s).feed = warmFeed lat s ∧
      (track fe cmd c lat gs x s).path.Quiet := by
  induction s with
  | zero =>
      exact ⟨MacInv.accept hF hq hlog D rd _, rfl,
        hq.path.step (hF.rest_valid _ hq.front) (hF.rest_done _ hq.front) _⟩
  | succ s ih =>
      obtain ⟨hinv, hfeed, hquiet⟩ := ih (by omega)
      refine ⟨hinv.step hF hpos hquiet.smooth, ?_, hquiet.step ?_ ?_ _⟩
      · rw [warmFeed_succ (by omega), ← hfeed]
        rfl
      · exact (hF.valid _ _ hinv.front).trans (by rw [hfeed, warmFeed_valid (by omega)])
      · refine (hF.ctrlDone _ _ hinv.front).trans ?_
        rw [hfeed]
        exact decide_eq_false warmFeed_ne_done

theorem timed_zero (hk : c.Keeps lat) (gs : ℕ → Grants) :
    Timed c lat 0 (track fe cmd c lat gs x (lat + 1)) := by
  obtain ⟨-, hfeed, hquiet⟩ := track_warm hF hpos hq hlog False (fun _ ↦ 0) gs
    (Nat.le_refl (lat + 1))
  have htotal : 0 < c.total := Nat.mul_pos hpos.outs hpos.its
  have none : ∀ n, c.EmitsAt (0 - n) ↔ False := fun n ↦ by
    rw [Nat.zero_sub, iff_false]
    exact not_emitsAt_zero
  obtain ⟨n, rfl⟩ : ∃ n, lat = n + 1 := ⟨lat - 1, by have := hk.pos; omega⟩
  refine ⟨?_, ?_, by simp, by simp, by simp, ?_, ?_, ?_, ?_, ?_, ?_, ?_⟩
  · rw [hfeed]
    simp [warmFeed, feedAt, htotal]
  · rw [hquiet.loader]
    simp [loaderAt, loaderIn]
  · rw [hquiet.pe]
    refine ⟨fun hf ↦ absurd hf Bool.false_ne_true, ?_⟩
    rintro ⟨i, -, hi⟩
    exact absurd hi (c.emitTime_pos i).ne'
  · rw [none, hquiet.trigger]
    simp
  · rw [none, hquiet.bias]
    simp
  · rw [none, hquiet.relu]
    simp
  · rw [none, hquiet.quant]
    simp
  · rw [none, hquiet.writer]
    simp
  · rw [none, hquiet.writer]
    simp

theorem track_timed (hk : c.Keeps lat) (hD : D → c.Disjoint) (u : ℕ) :
    MacInv D c At (c.readsOf x.mem.act) x.mem.wt
        (track fe cmd c lat (fun _ ↦ .all) x (lat + 1 + u)) ∧
      Timed c lat u (track fe cmd c lat (fun _ ↦ .all) x (lat + 1 + u)) := by
  induction u with
  | zero => exact ⟨(track_warm hF hpos hq hlog D _ _ le_rfl).1, timed_zero hF hpos hq hlog hk _⟩
  | succ u ih =>
      obtain ⟨hinv, htimed⟩ := ih
      set k := track fe cmd c lat (fun _ ↦ .all) x (lat + 1 + u) with hk'
      have hreads : D → k.path.loader.actMemReq = true →
          k.sys.mem.act (k.sys.be.path.loader.actAddrR.setWidth 13) =
            c.readsOf x.mem.act k.taken := fun hd hreq ↦ by
        obtain ⟨haddr, hfree⟩ := hinv.noHazard (hD hd) hreq
        have hact : k.sys.mem.act = store x.mem.act k.sys.log := by
          rw [hk', track_sys]
          exact act_eq_store (macBackend fe) cmd (fun _ ↦ .all) hlog _
        rw [hact, store_of_notMem hfree, haddr]
        rfl
      have hfl : k.path.Flowing := by
        rw [hk', Track.path, track_sys]
        exact (hq.flows_run _).path
      exact ⟨hinv.step hF hpos ⟨hfl.noClash, fun hd hreq _ _ ↦ hreads hd hreq⟩,
        htimed.step hinv hfl hF hk⟩

end Timed

end LgNpu
