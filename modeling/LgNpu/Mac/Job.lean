import LgNpu.Mac.Path
import Mathlib.Data.List.Range
import Mathlib.Logic.Function.Basic

/-!
# Jobs of the multiply-accumulate path

A command asks the datapath for `outs` output elements of `its` products each.
The iterations are numbered through; a front end hands them over in that order,
one at a time, and `Feed` is where it stands.  `Feeds` says that a front end
moves as `Feed` does and presents the job's addresses.
-/

namespace LgNpu

structure MacJob where
  outs : ℕ
  its : ℕ
  actAddr : ℕ → Addr
  wtAddr : ℕ → Addr
  zeroPad : ℕ → Bool
  wrAddr : ℕ → Addr
  biasAddr : ℕ → Addr
  quantShift : BitVec 5
  actMode : ActMode

namespace MacJob

variable (c : MacJob)

def total : ℕ := c.outs * c.its

/-- The iteration starts an element. -/
def clrAt (i : ℕ) : Bool := i % c.its = 0

/-- The iteration ends an element. -/
def lastAt (i : ℕ) : Bool := (i + 1) % c.its = 0

structure Positive (c : MacJob) : Prop where
  outs : 0 < c.outs
  its : 0 < c.its

/-! ## What the job computes -/

variable (rd : ℕ → Byte) (w : BitVec 12 → Byte)

/-- The activation operand, `rd` being the bytes that are read. -/
def actVal (i : ℕ) : Byte := if c.zeroPad i then 0 else rd i

/-- The bytes that are read from a memory nobody writes. -/
def readsOf (m : BitVec 13 → Byte) (i : ℕ) : Byte := m ((c.actAddr i).setWidth 13)

def wtVal (i : ℕ) : Byte := if c.zeroPad i then 0 else w ((c.wtAddr i).setWidth 12)

/-- The accumulator after `i` iterations. -/
def partialSum : ℕ → Acc
  | 0 => 0
  | i + 1 => (if c.clrAt i then 0 else partialSum i) + macProduct (c.actVal rd i) (c.wtVal w i)

def biasVal (e : ℕ) : Byte := w ((c.biasAddr e).setWidth 12)

def biased (e : ℕ) : Acc := biasAdd (c.biasVal w e) (c.partialSum rd w ((e + 1) * c.its))

def activated (e : ℕ) : Acc := activate c.actMode (c.biased rd w e)

def outVal (e : ℕ) : Byte := quantize c.quantShift (c.activated rd w e)

/-- The first `n` writes. -/
def writesUpTo (n : ℕ) : Writes := (List.range n).map fun e ↦ (c.wrAddr e, c.outVal rd w e)

def writes : Writes := c.writesUpTo rd w c.outs

theorem writesUpTo_succ (n : ℕ) : c.writesUpTo rd w (n + 1) =
    c.writesUpTo rd w n ++ [(c.wrAddr n, c.outVal rd w n)] := by
  simp [writesUpTo, List.range_succ]

theorem length_writesUpTo (n : ℕ) : (c.writesUpTo rd w n).length = n := by simp [writesUpTo]

theorem writesUpTo_isPrefix {n : ℕ} (h : n ≤ c.outs) : c.writesUpTo rd w n <+: c.writes rd w := by
  refine List.IsPrefix.map _ ?_
  refine ⟨(List.range (c.outs - n)).map (n + ·), ?_⟩
  rw [← List.range_add, Nat.add_sub_cancel' h]

/-! ## Iterations and elements -/

variable {c}

theorem clrAt_succ_of_last {i : ℕ} (h : c.lastAt i = true) : c.clrAt (i + 1) = true := h

theorem pos_of_not_clrAt {i : ℕ} (h : c.clrAt i = false) : 0 < i := by
  rcases Nat.eq_zero_or_pos i with rfl | hpos
  · simp [clrAt] at h
  · exact hpos

theorem succ_div_of_last (hc : c.Positive) {i : ℕ} (h : c.lastAt i = true) :
    (i + 1) / c.its = i / c.its + 1 ∧ i + 1 = (i / c.its + 1) * c.its := by
  have hmod : (i + 1) % c.its = 0 := of_decide_eq_true h
  have hits := hc.its
  have hdiv := Nat.div_add_mod (i + 1) c.its
  have hq : (i + 1) / c.its = i / c.its + 1 := by
    rw [Nat.succ_div_of_dvd (Nat.dvd_of_mod_eq_zero hmod)]
  refine ⟨hq, ?_⟩
  rw [← hq, Nat.mul_comm]
  omega

theorem succ_div_of_not_last {i : ℕ} (h : c.lastAt i = false) :
    (i + 1) / c.its = i / c.its := by
  refine Nat.succ_div_of_not_dvd fun hdvd ↦ ?_
  exact absurd (decide_eq_true (Nat.mod_eq_zero_of_dvd hdvd)) (Bool.eq_false_iff.mp h)

end MacJob

/-! ## Front ends as feeds -/

/-- Where a front end stands: configuring, about to take iteration `i`,
computing its addresses with `k` edges to go, or past the last iteration. -/
inductive Feed
  | cfg
  | free (i : ℕ)
  | computing (i k : ℕ)
  | drain
  | done
  | idle
  deriving DecidableEq

namespace Feed

/-- One edge; addresses take `lat` edges, and `ready` is the loader's. -/
def step (total lat : ℕ) (ready : Bool) : Feed → Feed
  | cfg => free 0
  | free i => computing i (lat - 1)
  | computing i (k + 1) => computing i k
  | computing i 0 =>
      if ready then (if i + 1 < total then free (i + 1) else drain) else computing i 0
  | drain => done
  | done => idle
  | idle => idle

/-- Addresses are on offer. -/
def valid : Feed → Bool
  | computing _ 0 => true
  | _ => false

def handed (total : ℕ) : Feed → ℕ
  | cfg => 0
  | free i => i
  | computing i _ => i
  | _ => total

def Within (total : ℕ) : Feed → Prop
  | free i => i < total
  | computing i _ => i < total
  | _ => True

theorem Within.step {total lat : ℕ} {p : Feed} (h : p.Within total) (hpos : 0 < total)
    (ready : Bool) : (p.step total lat ready).Within total := by
  cases p with
  | cfg => exact hpos
  | free i => exact h
  | computing i k =>
      cases k with
      | succ k => exact h
      | zero =>
          simp only [Feed.step]
          split
          · split
            · assumption
            · trivial
          · exact h
  | drain => trivial
  | done => trivial
  | idle => trivial

/-- The loader takes an iteration from a feed that offers one. -/
theorem handed_step {total : ℕ} {p : Feed} (lat : ℕ) (h : p.Within total) (ready : Bool) :
    (p.step total lat ready).handed total =
      p.handed total + (p.valid && ready).toNat := by
  cases p with
  | computing i k =>
      cases k with
      | succ k => rfl
      | zero =>
          have hi : i < total := h
          cases ready with
          | false => rfl
          | true =>
              simp only [Feed.step, if_true]
              split
              · rfl
              · simp only [handed, valid, Bool.and_true, Bool.toNat_true]
                omega
  | cfg => rfl
  | free i => rfl
  | drain => rfl
  | done => rfl
  | idle => rfl

theorem handed_le {total : ℕ} {p : Feed} (h : p.Within total) : p.handed total ≤ total := by
  cases p with
  | cfg => exact Nat.zero_le _
  | free i => exact le_of_lt h
  | computing i k => exact le_of_lt h
  | drain => exact le_rfl
  | done => exact le_rfl
  | idle => exact le_rfl

end Feed

/-- Iteration `i` on offer, with its metadata. -/
structure MacJob.Offers (c : MacJob) (i : ℕ) (o : FrontOut) : Prop where
  actAddr : o.actAddr = c.actAddr i
  wtAddr : o.wtAddr = c.wtAddr i
  zeroPad : o.zeroPad = c.zeroPad i
  last : o.lastInnerIterR = c.lastAt i
  clr : o.accClrIterR = c.clrAt i
  wrAddr : c.lastAt i = true → o.wrAddrIterR = c.wrAddr (i / c.its)
  biasAddr : c.lastAt i = true → o.biasAddrIterR = c.biasAddr (i / c.its)

/-- A front end that, given `cmd`, moves as a feed of the job.  `Rest` are the
states in which it takes a command. -/
structure Feeds {F Cmd : Type} (fe : MacFront F Cmd) (cmd : Cmd) (c : MacJob) (lat : ℕ)
    (Rest : F → Prop) (At : Feed → F → Prop) : Prop where
  rest_ready : ∀ f, Rest f → fe.cmdReady f = true
  rest_valid : ∀ f, Rest f → (fe.out f).addrGenValid = false
  rest_done : ∀ f, Rest f → (fe.out f).ctrlDone = false
  rest_busy : ∀ f, Rest f → (fe.out f).ctrlBusy = false
  rest_step : ∀ f ready, Rest f → Rest (fe.step f cmd false ready)
  accept : ∀ f ready, Rest f → At .cfg (fe.step f cmd true ready)
  rest : ∀ f, At .idle f → Rest f
  step : ∀ p f ready, p.Within c.total → At p f →
    At (p.step c.total lat ready) (fe.step f cmd false ready)
  valid : ∀ p f, At p f → (fe.out f).addrGenValid = p.valid
  offers : ∀ i f, At (.computing i 0) f → c.Offers i (fe.out f)
  quantShift : ∀ p f, At p f → (fe.out f).quantShift = c.quantShift
  actMode : ∀ p f, At p f → (fe.out f).actMode = c.actMode
  ctrlDone : ∀ p f, At p f → (fe.out f).ctrlDone = decide (p = .done)
  ctrlBusy : ∀ p f, At p f → (fe.out f).ctrlBusy = decide (p ≠ .idle)

end LgNpu
