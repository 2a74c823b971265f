import LgNpu.Mac.Units
import LgNpu.Lib.Stream

/-!
# The operand loader as a stream

`conv_loader` on its own between any producer, any consumer and two memories
that answer each grant in the next cycle.  Requests stay up until data arrives,
so a port may be granted again before its first answer is latched; by the time
a pair is complete no answer is under way any more.
-/

namespace LgNpu

inductive LoadSide
  | act | wt
  deriving DecidableEq

/-- A request of the loader's input port. -/
structure LoadReq where
  actAddr : Addr
  wtAddr : Addr
  zeroPad : Bool

def LoadReq.addr (a : LoadReq) : LoadSide → Addr
  | .act => a.actAddr
  | .wt => a.wtAddr

namespace ConvLoader

variable (s : ConvLoader)

def addr : LoadSide → Addr
  | .act => s.actAddrR
  | .wt => s.wtAddrR

def value : LoadSide → Byte
  | .act => s.actR
  | .wt => s.wtR

def latched : LoadSide → Bool
  | .act => s.actLatched
  | .wt => s.wtLatched

def memReq : LoadSide → Bool
  | .act => s.actMemReq
  | .wt => s.wtMemReq

theorem memReq_eq (p : LoadSide) :
    s.memReq p = (s.state = .req && !s.isZeroPadR && !s.latched p) := by
  cases p <;> rfl

end ConvLoader

/-- The loader with the answers its memories give in this cycle. -/
structure LoadBench where
  loader : ConvLoader
  rsp : LoadSide → Option Byte

/-- What surrounds the loader, cycle by cycle. -/
structure LoadEnv where
  req : ℕ → LoadReq
  loadValid : ℕ → Bool
  pairReady : ℕ → Bool
  /-- The cycles in which a memory grants a request. -/
  grant : LoadSide → ℕ → Bool
  contents : LoadSide → ℕ → Addr → Byte
  /-- The data lines when there is no answer. -/
  noData : LoadSide → ℕ → Byte

namespace LoadEnv

variable (e : LoadEnv) (t : ℕ) (x : LoadBench)

def gnt (p : LoadSide) : Bool := x.loader.memReq p && e.grant p t

def rdata (p : LoadSide) : Byte := (x.rsp p).getD (e.noData p t)

def edge : LoadBench where
  loader := x.loader.step (e.req t).actAddr (e.req t).wtAddr (e.req t).zeroPad (e.loadValid t)
    (e.gnt t x .act) (e.rdata t x .act) (x.rsp .act).isSome
    (e.gnt t x .wt) (e.rdata t x .wt) (x.rsp .wt).isSome (e.pairReady t)
  rsp p := if e.gnt t x p then some (e.contents p t (x.loader.addr p)) else none

def reset : LoadBench := ⟨.reset, fun _ ↦ none⟩

/-- Requests are taken with their cycle, and pairs sent with theirs. -/
def stream : StreamMachine LoadBench (ℕ × LoadReq) (ℕ × (LoadSide → Byte)) where
  step := e.edge
  taken t x := if x.loader.taking (e.loadValid t) then [(t, e.req t)] else []
  sent t x := if x.loader.pairValid && e.pairReady t then [(t, x.loader.value)] else []

def run : ℕ → LoadBench := e.stream.run reset

/-- The port is granted in cycle `t`. -/
def granted (p : LoadSide) (t : ℕ) : Prop := e.gnt t (e.run t) p = true

/-- The contents at the request's address, from a grant between `t₀` and `t`. -/
def Got (p : LoadSide) (t₀ t : ℕ) (a : LoadReq) (v : Byte) : Prop :=
  ∃ u, t₀ < u ∧ u < t ∧ e.granted p u ∧ v = e.contents p u (a.addr p)

/-- The pair of a request: zeros for padding, else what two grants after its
acceptance and before the pair's emission have read for it. -/
def Loaded (a : ℕ × LoadReq) (b : ℕ × (LoadSide → Byte)) : Prop :=
  a.1 < b.1 ∧ ∀ p, if a.2.zeroPad then b.2 p = 0 else e.Got p a.1 b.1 a.2 (b.2 p)

variable {e t x}

theorem Got.mono {p : LoadSide} {t₀ t t' : ℕ} {a : LoadReq} {v : Byte} (h : e.Got p t₀ t a v)
    (ht : t ≤ t') : e.Got p t₀ t' a v := by
  obtain ⟨u, h0, hu, hg, hv⟩ := h
  exact ⟨u, h0, by omega, hg, hv⟩

/-! ## One cycle of a port -/

theorem rsp_edge_of_not_req (hs : x.loader.state ≠ .req) (p : LoadSide) :
    (e.edge t x).rsp p = none := by
  simp [edge, gnt, ConvLoader.memReq_eq, hs]

theorem rsp_edge_of_zeroPad (hz : x.loader.isZeroPadR = true) (p : LoadSide) :
    (e.edge t x).rsp p = none := by
  simp [edge, gnt, ConvLoader.memReq_eq, hz]

section

variable (hs : x.loader.receiving = true)
include hs

theorem not_taking (v : Bool) : x.loader.taking v = false := by
  rw [ConvLoader.receiving] at hs
  cases hstate : x.loader.state <;> simp_all [ConvLoader.taking]

theorem addr_edge (p : LoadSide) : (e.edge t x).loader.addr p = x.loader.addr p := by
  cases p <;> simp [edge, ConvLoader.step, ConvLoader.addr, not_taking hs]

theorem latched_edge (p : LoadSide) :
    (e.edge t x).loader.latched p = (x.loader.latched p || (x.rsp p).isSome) := by
  cases p with
  | act =>
      cases hl : x.loader.actLatched <;>
        simp [edge, ConvLoader.step, ConvLoader.latched, not_taking hs, hs, hl]
  | wt =>
      cases hl : x.loader.wtLatched <;>
        simp [edge, ConvLoader.step, ConvLoader.latched, not_taking hs, hs, hl]

theorem value_edge (p : LoadSide) : (e.edge t x).loader.value p =
    if x.loader.latched p then x.loader.value p else (x.rsp p).getD (x.loader.value p) := by
  cases p with
  | act =>
      cases hl : x.loader.actLatched <;> cases hr : x.rsp .act <;>
        simp [edge, ConvLoader.step, ConvLoader.latched, ConvLoader.value, rdata, not_taking hs,
          hs, hl, hr]
  | wt =>
      cases hl : x.loader.wtLatched <;> cases hr : x.rsp .wt <;>
        simp [edge, ConvLoader.step, ConvLoader.latched, ConvLoader.value, rdata, not_taking hs,
          hs, hl, hr]

end

/-! ## What the loader holds -/

/-- All that is latched or under way belongs to request `a`, taken in `t₀`. -/
structure PortHolds (e : LoadEnv) (t₀ t : ℕ) (a : LoadReq) (x : LoadBench) (p : LoadSide) :
    Prop where
  addr : x.loader.addr p = a.addr p
  latched : x.loader.latched p = true → e.Got p t₀ t a (x.loader.value p)
  rsp : ∀ v, x.rsp p = some v → e.Got p t₀ t a v

inductive Holds (e : LoadEnv) (t : ℕ) (x : LoadBench) : List (ℕ × LoadReq) → Prop
  | idle (hs : x.loader.state = .idle) (hrsp : ∀ p, x.rsp p = none) : Holds e t x []
  | zero {t₀ : ℕ} {a : LoadReq} (hs : x.loader.state = .req) (ht : t₀ < t)
      (hz : x.loader.isZeroPadR = true) (ha : a.zeroPad = true) (hrsp : ∀ p, x.rsp p = none)
      (hval : ∀ p, x.loader.value p = 0) : Holds e t x [(t₀, a)]
  | req {t₀ : ℕ} {a : LoadReq} (hs : x.loader.state = .req) (ht : t₀ < t)
      (hz : x.loader.isZeroPadR = false) (ha : a.zeroPad = false)
      (hport : ∀ p, PortHolds e t₀ t a x p) : Holds e t x [(t₀, a)]
  | wait {t₀ : ℕ} {a : LoadReq} (hs : x.loader.state = .wait) (ht : t₀ < t)
      (hz : x.loader.isZeroPadR = false) (ha : a.zeroPad = false)
      (hport : ∀ p, PortHolds e t₀ t a x p)
      (hany : ∀ p, x.loader.latched p = true ∨ (x.rsp p).isSome = true) : Holds e t x [(t₀, a)]
  | done {t₀ : ℕ} {a : LoadReq} (hs : x.loader.state = .done) (hrsp : ∀ p, x.rsp p = none)
      (hload : e.Loaded (t₀, a) (t, x.loader.value)) : Holds e t x [(t₀, a)]

theorem Loaded.mono {a : ℕ × LoadReq} {t' : ℕ} {v : LoadSide → Byte} (h : e.Loaded a (t, v))
    (ht : t ≤ t') : e.Loaded a (t', v) := by
  refine ⟨h.1.trans_le ht, fun p ↦ ?_⟩
  have hp := h.2 p
  split
  · next hz => simpa [hz] using hp
  · next hz =>
      rw [if_neg hz] at hp
      exact hp.mono ht

theorem PortHolds.edge {t₀ : ℕ} {a : LoadReq} {p : LoadSide} (h : PortHolds e t₀ t a x p)
    (ht : t₀ < t) (hs : x.loader.receiving = true) (hx : x = e.run t) :
    PortHolds e t₀ (t + 1) a (e.edge t x) p where
  addr := (addr_edge hs p).trans h.addr
  latched hl := by
    rw [value_edge hs]
    rw [latched_edge hs] at hl
    cases hold : x.loader.latched p with
    | true => exact (h.latched hold).mono (Nat.le_succ t)
    | false =>
        rw [hold, Bool.false_or, Option.isSome_iff_exists] at hl
        obtain ⟨v, hv⟩ := hl
        rw [if_neg Bool.false_ne_true, hv]
        exact (h.rsp v hv).mono (Nat.le_succ t)
  rsp v hv := by
    by_cases hg : e.gnt t x p = true
    · have hval : e.contents p t (x.loader.addr p) = v := by
        simpa [LoadEnv.edge, hg] using hv
      have hgranted : e.granted p t := by
        rw [granted, ← hx]
        exact hg
      exact ⟨t, ht, Nat.lt_succ_self t, hgranted, by rw [← hval, h.addr]⟩
    · simp [LoadEnv.edge, hg] at hv

/-! ## One cycle of the loader -/

/-- The loader takes a request and starts from nothing. -/
theorem holds_of_taking (hs : x.loader.state = .idle) (hv : e.loadValid t = true) :
    Holds e (t + 1) (e.edge t x) [(t, e.req t)] := by
  have htake : x.loader.taking (e.loadValid t) = true := by simp [ConvLoader.taking, hs, hv]
  have hreq : (e.edge t x).loader.state = .req := by
    simp [edge, ConvLoader.step, ConvLoader.stateNext, hs, hv]
  have hrsp := @rsp_edge_of_not_req e t x (by simp [hs])
  have hpad : (e.edge t x).loader.isZeroPadR = (e.req t).zeroPad := by
    simp [edge, ConvLoader.step, htake]
  have hlatch : ∀ p, (e.edge t x).loader.latched p = (e.req t).zeroPad := by
    rintro (_ | _) <;> simp [edge, ConvLoader.step, ConvLoader.latched, htake]
  cases hz : (e.req t).zeroPad with
  | true =>
      refine .zero hreq (Nat.lt_succ_self t) (hpad.trans hz) hz hrsp ?_
      rintro (_ | _) <;> simp [edge, ConvLoader.step, ConvLoader.value, htake, hz]
  | false =>
      refine .req hreq (Nat.lt_succ_self t) (hpad.trans hz) hz fun p ↦ ⟨?_, ?_, ?_⟩
      · cases p <;> simp [edge, ConvLoader.step, ConvLoader.addr, LoadReq.addr, htake]
      · intro hl
        rw [hlatch, hz] at hl
        exact absurd hl Bool.false_ne_true
      · intro v hv
        rw [hrsp] at hv
        exact absurd hv (Option.some_ne_none v).symm

/-- A pair waits, unchanged, for the consumer. -/
theorem value_of_done (hs : x.loader.state = .done) : (e.edge t x).loader.value =
    x.loader.value := by
  funext p
  cases p <;>
    simp [edge, ConvLoader.step, ConvLoader.value, ConvLoader.taking, ConvLoader.receiving, hs]

theorem not_sent (hs : x.loader.state ≠ .done) : e.stream.sent t x = [] := by
  simp [stream, ConvLoader.pairValid, hs]

theorem not_taken (hs : x.loader.state ≠ .idle) : e.stream.taken t x = [] := by
  simp [stream, ConvLoader.taking, hs]

theorem Holds.edge {q : List (ℕ × LoadReq)} (h : Holds e t x q) (hx : x = e.run t) :
    ∃ d q', q ++ e.stream.taken t x = d ++ q' ∧
      List.Forall₂ e.Loaded d (e.stream.sent t x) ∧ Holds e (t + 1) (e.edge t x) q' := by
  have hstate : (e.edge t x).loader.state = x.loader.stateNext (e.loadValid t) (e.gnt t x .act)
    (e.gnt t x .wt) (e.pairReady t) := rfl
  cases h with
  | idle hs hrsp =>
      have hnext := @rsp_edge_of_not_req e t x (by simp [hs])
      rw [not_sent (by simp [hs])]
      cases hv : e.loadValid t with
      | true =>
          refine ⟨[], [(t, e.req t)], ?_, .nil, holds_of_taking hs hv⟩
          simp [stream, ConvLoader.taking, hs, hv]
      | false =>
          refine ⟨[], [], ?_, .nil, .idle ?_ hnext⟩
          · simp [stream, ConvLoader.taking, hs, hv]
          · simp [hstate, ConvLoader.stateNext, hs, hv]
  | @zero t₀ a hs ht hz ha hrsp hval =>
      have hrec : x.loader.receiving = true := by simp [ConvLoader.receiving, hs]
      have hvals : ∀ p, (e.edge t x).loader.value p = 0 := fun p ↦ by
        rw [value_edge hrec, hrsp, hval]
        simp
      rw [not_sent (by simp [hs]), not_taken (by simp [hs])]
      refine ⟨[], [(t₀, a)], by simp, .nil, .done ?_ (rsp_edge_of_zeroPad hz) ⟨by omega, ?_⟩⟩
      · simp [hstate, ConvLoader.stateNext, hs, hz]
      · intro p
        rw [if_pos ha]
        exact hvals p
  | @req t₀ a hs ht hz ha hport =>
      have hrec : x.loader.receiving = true := by simp [ConvLoader.receiving, hs]
      have hpad : (e.edge t x).loader.isZeroPadR = false := by
        simp [LoadEnv.edge, ConvLoader.step, not_taking hrec, hz]
      have hport' : ∀ p, PortHolds e t₀ (t + 1) a (e.edge t x) p := fun p ↦
        (hport p).edge ht hrec hx
      rw [not_sent (by simp [hs]), not_taken (by simp [hs])]
      refine ⟨[], [(t₀, a)], by simp, .nil, ?_⟩
      by_cases hboth : ∀ p, x.loader.latched p = true ∨ e.gnt t x p = true
      · refine .wait ?_ (by omega) hpad ha hport' fun p ↦ ?_
        · have hact := hboth .act
          have hwt := hboth .wt
          simp only [ConvLoader.latched] at hact hwt
          simp [hstate, ConvLoader.stateNext, hs, hz, hact, hwt]
        · rw [latched_edge hrec]
          rcases hboth p with hl | hg
          · simp [hl]
          · exact Or.inr (by simp [LoadEnv.edge, hg])
      · refine .req ?_ (by omega) hpad ha hport'
        have hnot : ¬((x.loader.actLatched = true ∨ e.gnt t x .act = true) ∧
            (x.loader.wtLatched = true ∨ e.gnt t x .wt = true)) := fun hand ↦
          hboth (by rintro (_ | _); exacts [hand.1, hand.2])
        simp [hstate, ConvLoader.stateNext, hs, hz, hnot]
  | @wait t₀ a hs ht hz ha hport hany =>
      have hrec : x.loader.receiving = true := by simp [ConvLoader.receiving, hs]
      have hpad : (e.edge t x).loader.isZeroPadR = false := by
        simp [LoadEnv.edge, ConvLoader.step, not_taking hrec, hz]
      have hport' : ∀ p, PortHolds e t₀ (t + 1) a (e.edge t x) p := fun p ↦
        (hport p).edge ht hrec hx
      have hlatch : ∀ p, (e.edge t x).loader.latched p = true := fun p ↦ by
        rw [latched_edge hrec, Bool.or_eq_true]
        exact hany p
      rw [not_sent (by simp [hs]), not_taken (by simp [hs])]
      refine ⟨[], [(t₀, a)], by simp, .nil, ?_⟩
      cases hboth : x.loader.actLatched && x.loader.wtLatched with
      | true =>
          refine .done ?_ (rsp_edge_of_not_req (by simp [hs])) ⟨by omega, fun p ↦ ?_⟩
          · simp [hstate, ConvLoader.stateNext, hs, hboth]
          · rw [ha, if_neg Bool.false_ne_true]
            exact (hport' p).latched (hlatch p)
      | false =>
          refine .wait ?_ (by omega) hpad ha hport' fun p ↦ Or.inl (hlatch p)
          simp [hstate, ConvLoader.stateNext, hs, hboth]
  | @done t₀ a hs hrsp hload =>
      have hnext := @rsp_edge_of_not_req e t x (by simp [hs])
      rw [not_taken (by simp [hs])]
      cases hr : e.pairReady t with
      | true =>
          refine ⟨[(t₀, a)], [], by simp, ?_, .idle ?_ hnext⟩
          · simpa [stream, ConvLoader.pairValid, hs, hr] using hload
          · simp [hstate, ConvLoader.stateNext, hs, hr]
      | false =>
          refine ⟨[], [(t₀, a)], by simp, ?_, .done ?_ hnext ?_⟩
          · simp [stream, ConvLoader.pairValid, hs, hr]
          · simp [hstate, ConvLoader.stateNext, hs, hr]
          · rw [value_of_done hs]
            exact hload.mono (Nat.le_succ t)

/-! ## Runs -/

variable (e)

theorem queues : e.stream.Queues (fun t x q ↦ x = e.run t ∧ Holds e t x q) e.Loaded := by
  rintro t x q ⟨hx, hq⟩
  obtain ⟨d, q', hsplit, hsent, hq'⟩ := hq.edge hx
  exact ⟨d, q', hsplit, hsent, hx ▸ rfl, hq'⟩

theorem holds_reset : reset = e.run 0 ∧ Holds e 0 reset [] := ⟨rfl, .idle rfl fun _ ↦ rfl⟩

theorem run_succ (t : ℕ) : e.run (t + 1) = e.edge t (e.run t) := rfl

variable {e}

/-- A request under way is that of the oldest pair not yet delivered, which is
no padding. -/
theorem exists_of_memReq {p : LoadSide} (h : (e.run t).loader.memReq p = true) :
    ∃ d a, e.stream.accepted reset t = d ++ [a] ∧
      d.length = (e.stream.delivered reset t).length ∧ a.2.zeroPad = false ∧
      (e.run t).loader.addr p = a.2.addr p := by
  obtain ⟨d, q, hacc, hdel, -, hq⟩ := e.queues.run e.holds_reset t
  have hq : Holds e t (e.run t) q := hq
  simp only [ConvLoader.memReq_eq, Bool.and_eq_true, decide_eq_true_eq, Bool.not_eq_true'] at h
  obtain ⟨⟨hreq, hpad⟩, -⟩ := h
  cases hq with
  | @req t₀ a _ _ _ ha hport => exact ⟨d, (t₀, a), hacc, hdel.length_eq, ha, (hport p).addr⟩
  | zero _ _ hz => exact absurd (hz.symm.trans hpad) Bool.false_ne_true.symm
  | idle hs => exact LoaderState.noConfusion (hs.symm.trans hreq)
  | wait hs => exact LoaderState.noConfusion (hs.symm.trans hreq)
  | done hs => exact LoaderState.noConfusion (hs.symm.trans hreq)

theorem exists_holds (t : ℕ) : ∃ q, Holds e t (e.run t) q := by
  obtain ⟨d, q, -, -, -, hq⟩ := e.queues.run e.holds_reset t
  exact ⟨q, hq⟩

theorem state_succ (u : ℕ) : (e.run (u + 1)).loader.state =
    (e.run u).loader.stateNext (e.loadValid u) (e.gnt u (e.run u) .act)
      (e.gnt u (e.run u) .wt) (e.pairReady u) := rfl

/-- Waiting ends with the answers that are under way. -/
theorem exists_of_wait (hs : (e.run t).loader.state = .wait) :
    ∃ u, t ≤ u ∧ (e.run u).loader.pairValid = true := by
  have hdone : ∀ u, (e.run u).loader.state = .wait → (∀ p, (e.run u).loader.latched p = true) →
      (e.run (u + 1)).loader.pairValid = true := by
    intro u hu hl
    have hact := hl .act
    have hwt := hl .wt
    simp only [ConvLoader.latched] at hact hwt
    simp [ConvLoader.pairValid, state_succ, ConvLoader.stateNext, hu, hact, hwt]
  have hrec : (e.run t).loader.receiving = true := by simp [ConvLoader.receiving, hs]
  have hlatch : ∀ p, (e.run (t + 1)).loader.latched p = true := by
    obtain ⟨q, hq⟩ := e.exists_holds t
    intro p
    rw [run_succ, latched_edge hrec, Bool.or_eq_true]
    cases hq with
    | wait _ _ _ _ _ hany => exact hany p
    | idle hs' => exact LoaderState.noConfusion (hs.symm.trans hs')
    | zero hs' => exact LoaderState.noConfusion (hs.symm.trans hs')
    | req hs' => exact LoaderState.noConfusion (hs.symm.trans hs')
    | done hs' => exact LoaderState.noConfusion (hs.symm.trans hs')
  cases hboth : (e.run t).loader.actLatched && (e.run t).loader.wtLatched with
  | true =>
      refine ⟨t + 1, by omega, ?_⟩
      simp [ConvLoader.pairValid, state_succ, ConvLoader.stateNext, hs, hboth]
  | false =>
      refine ⟨t + 2, by omega, hdone (t + 1) ?_ hlatch⟩
      simp [state_succ, ConvLoader.stateNext, hs, hboth]

section

variable (hfair : ∀ p, Clocked.Fair (e.grant p))
include hfair

/-- A loader that kept requesting would have both operands latched. -/
theorem exists_wait (hs : (e.run t).loader.state = .req)
    (hz : (e.run t).loader.isZeroPadR = false) :
    ∃ u, t ≤ u ∧ (e.run u).loader.state = .wait := by
  by_contra hnone
  have hstay : ∀ u, t ≤ u → (e.run u).loader.state = .req ∧
      (e.run u).loader.isZeroPadR = false := by
    intro u hu
    induction u, hu using Nat.le_induction with
    | base => exact ⟨hs, hz⟩
    | succ u hu ih =>
        have hrec : (e.run u).loader.receiving = true := by simp [ConvLoader.receiving, ih.1]
        refine ⟨?_, by simp [run_succ, edge, ConvLoader.step, not_taking hrec, ih.2]⟩
        by_contra hne
        refine hnone ⟨u + 1, by omega, ?_⟩
        rw [state_succ, ConvLoader.stateNext, ih.1, ih.2] at hne ⊢
        simp_all
  have hrec : ∀ u, t ≤ u → (e.run u).loader.receiving = true := fun u hu ↦ by
    simp [ConvLoader.receiving, (hstay u hu).1]
  have hkeep : ∀ p u, t ≤ u → (e.run u).loader.latched p = true →
      ∀ v, u ≤ v → (e.run v).loader.latched p = true := by
    intro p u hu hl v hv
    induction v, hv using Nat.le_induction with
    | base => exact hl
    | succ v hv ih => rw [run_succ, latched_edge (hrec v (by omega)), ih, Bool.true_or]
  have hlatched : ∀ p, ∃ u, t ≤ u ∧ (e.run u).loader.latched p = true := by
    intro p
    obtain ⟨u, hu, hg⟩ := hfair p t
    cases hl : (e.run u).loader.latched p with
    | true => exact ⟨u, hu, hl⟩
    | false =>
        have hgnt : e.gnt u (e.run u) p = true := by
          simp [gnt, ConvLoader.memReq_eq, hstay u hu, hl, hg]
        have hrsp : ((e.run (u + 1)).rsp p).isSome = true := by simp [run_succ, edge, hgnt]
        refine ⟨u + 2, by omega, ?_⟩
        rw [run_succ, latched_edge (hrec (u + 1) (by omega)), hrsp, Bool.or_true]
  obtain ⟨u, hu, hact⟩ := hlatched .act
  obtain ⟨v, hv, hwt⟩ := hlatched .wt
  have hact' := hkeep .act u hu hact (max u v) (by omega)
  have hwt' := hkeep .wt v hv hwt (max u v) (by omega)
  obtain ⟨hreq, hpad⟩ := hstay (max u v) (by omega)
  simp only [ConvLoader.latched] at hact' hwt'
  refine hnone ⟨max u v + 1, by omega, ?_⟩
  simp [state_succ, ConvLoader.stateNext, hreq, hpad, hact', hwt']

theorem exists_pairValid {q : List (ℕ × LoadReq)} (h : Holds e t (e.run t) q) (hq : q ≠ []) :
    ∃ u, t ≤ u ∧ (e.run u).loader.pairValid = true := by
  cases h with
  | idle => exact absurd rfl hq
  | zero hs _ hz =>
      refine ⟨t + 1, by omega, ?_⟩
      simp [ConvLoader.pairValid, state_succ, ConvLoader.stateNext, hs, hz]
  | req hs _ hz =>
      obtain ⟨u, hu, hwait⟩ := exists_wait hfair hs hz
      obtain ⟨v, hv, hvalid⟩ := exists_of_wait hwait
      exact ⟨v, by omega, hvalid⟩
  | wait hs => exact exists_of_wait hs
  | done hs => exact ⟨t, le_rfl, by simp [ConvLoader.pairValid, hs]⟩

theorem exists_sent (hready : Clocked.Fair e.pairReady) {q : List (ℕ × LoadReq)}
    (h : Holds e t (e.run t) q) (hq : q ≠ []) : ∃ u, t < u ∧
      (e.stream.delivered reset t).length < (e.stream.delivered reset u).length := by
  obtain ⟨u, hu, hv⟩ := exists_pairValid hfair h hq
  refine StreamMachine.exists_sent (V := fun x ↦ x.loader.pairValid = true) hready ?_ ?_ hu hv
  · intro t x hv hr
    simp [stream, hv, hr]
  · intro t x hv hr
    have hs : x.loader.state = .done := of_decide_eq_true hv
    simp [stream, edge, ConvLoader.step, ConvLoader.stateNext, ConvLoader.pairValid, hs, hr]

end

/-- An answer comes while the request it was granted for is still at hand. -/
theorem eq_of_isSome {p : LoadSide} (h : ((e.run (t + 1)).rsp p).isSome = true) :
    e.stream.accepted reset (t + 1) = e.stream.accepted reset t ∧
      e.stream.delivered reset (t + 1) = e.stream.delivered reset t := by
  have hs : (e.run t).loader.state = .req := by
    by_contra hne
    rw [run_succ, rsp_edge_of_not_req hne] at h
    exact absurd h Bool.false_ne_true
  have htaken : e.stream.taken t (e.run t) = [] := not_taken (by simp [hs])
  have hsent : e.stream.sent t (e.run t) = [] := not_sent (by simp [hs])
  have hacc := @StreamMachine.accepted_succ _ _ _ e.stream reset t
  have hdel := @StreamMachine.delivered_succ _ _ _ e.stream reset t
  rw [show e.stream.run reset t = e.run t from rfl] at hacc hdel
  rw [htaken, List.append_nil] at hacc
  rw [hsent, List.append_nil] at hdel
  exact ⟨hacc, hdel⟩

/-- The stream through `conv_loader`: one pair for each accepted request, in
order, holding what was read for it; memory is asked only for the request at
hand, and answers while it still is; and fair memories and a fair consumer see
every request through. -/
structure Pairs (e : LoadEnv) : Prop where
  exact : ∀ t, ∃ d q, e.stream.accepted reset t = d ++ q ∧ q.length ≤ 1 ∧
    List.Forall₂ e.Loaded d (e.stream.delivered reset t)
  asked : ∀ t p, (e.run t).loader.memReq p = true → ∃ d a,
    e.stream.accepted reset t = d ++ [a] ∧
      d.length = (e.stream.delivered reset t).length ∧ a.2.zeroPad = false ∧
      (e.run t).loader.addr p = a.2.addr p
  answered : ∀ t p, ((e.run (t + 1)).rsp p).isSome = true →
    e.stream.accepted reset (t + 1) = e.stream.accepted reset t ∧
      e.stream.delivered reset (t + 1) = e.stream.delivered reset t
  drains : (∀ p, Clocked.Fair (e.grant p)) → Clocked.Fair e.pairReady → ∀ t, ∃ u,
    List.Forall₂ e.Loaded (e.stream.accepted reset t)
      ((e.stream.delivered reset u).take (e.stream.accepted reset t).length)

theorem Holds.length_le {q : List (ℕ × LoadReq)} (h : Holds e t x q) : q.length ≤ 1 := by
  cases h <;> simp

theorem pairs (e : LoadEnv) : Pairs e where
  exact t := by
    obtain ⟨d, q, hacc, hdel, -, hq⟩ := e.queues.run e.holds_reset t
    exact ⟨d, q, hacc, hq.length_le, hdel⟩
  asked _ _ h := exists_of_memReq h
  answered _ _ h := eq_of_isSome h
  drains hfair hready t :=
    e.queues.drains e.holds_reset (fun _ _ hq hne ↦ exists_sent hfair hready hq.2 hne) t

/-- From memories that do not change, a pair holds the contents at its
addresses. -/
theorem Loaded.eq_of_const {a : ℕ × LoadReq} {b : ℕ × (LoadSide → Byte)} (h : e.Loaded a b)
    {m : LoadSide → Addr → Byte} (hm : ∀ p t, e.contents p t = m p) (p : LoadSide) :
    b.2 p = if a.2.zeroPad then 0 else m p (a.2.addr p) := by
  have hp := h.2 p
  split
  · next hz => simpa [hz] using hp
  · next hz =>
      rw [if_neg hz] at hp
      obtain ⟨u, -, -, -, hv⟩ := hp
      rw [hv, hm]

end LoadEnv

end LgNpu
