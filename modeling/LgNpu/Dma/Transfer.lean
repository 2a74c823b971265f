import LgNpu.Dma.Engine
import LgNpu.Lib.Clocked
import LgNpu.Lib.WriteLog
import Mathlib.Data.List.Infix
import Mathlib.Data.List.Range
import Mathlib.Data.List.Nodup

/-!
# Transfers

An engine between two memories with arbitrary finite delays moves the bytes of
its transfer one after another.  The argument is carried out for the copy loop;
the front end with one engine idle is the copy loop of the other.
-/

namespace LgNpu

/-- A copy loop between two memories. -/
structure Copier (a b : ℕ) where
  engine : DmaEngine a b
  src : MemPort a
  dst : MemPort b

/-- The programmed addresses and length. -/
structure CopyJob (a b : ℕ) where
  src : BitVec a
  dst : BitVec b
  len : BitVec 16

namespace CopyJob

variable {a b : ℕ} (j : CopyJob a b) (m : BitVec a → MmioData)

def srcAt (i : ℕ) : BitVec a := j.src + .ofNat a i

def dstAt (i : ℕ) : BitVec b := j.dst + .ofNat b i

def reads (n : ℕ) : List (Access a) := (List.range n).map fun i ↦ .read (j.srcAt i)

def writes (n : ℕ) : List (Access b) := (List.range n).map fun i ↦ .write (j.dstAt i) (m (j.srcAt i))

/-- The destination after `n` writes. -/
def written (m' : BitVec b → MmioData) (n : ℕ) : BitVec b → MmioData :=
  WriteLog.replay m' ((List.range n).map fun i ↦ (j.dstAt i, m (j.srcAt i)))

theorem reads_succ (n : ℕ) : j.reads (n + 1) = j.reads n ++ [.read (j.srcAt n)] := by
  simp [reads, List.range_succ]

theorem writes_succ (n : ℕ) :
    j.writes m (n + 1) = j.writes m n ++ [.write (j.dstAt n) (m (j.srcAt n))] := by
  simp [writes, List.range_succ]

theorem written_succ (m' : BitVec b → MmioData) (n : ℕ) : j.written m m' (n + 1) =
    Function.update (j.written m m' n) (j.dstAt n) (m (j.srcAt n)) := by
  simp [written, List.range_succ, WriteLog.replay_concat]

theorem srcAt_succ (n : ℕ) : j.srcAt n + 1 = j.srcAt (n + 1) := by
  rw [srcAt, srcAt, BitVec.ofNat_add, ← BitVec.add_assoc]
  rfl

theorem dstAt_succ (n : ℕ) : j.dstAt n + 1 = j.dstAt (n + 1) := by
  rw [dstAt, dstAt, BitVec.ofNat_add, ← BitVec.add_assoc]
  rfl

end CopyJob

namespace Copier

variable {a b : ℕ}

def step (start : Bool) (j : CopyJob a b) (ds dd : PortDelay) (x : Copier a b) : Copier a b where
  engine := x.engine.step start j.src j.dst j.len ds.gnt (x.src.rdata ds) (x.src.rvalid ds) dd.gnt
  src := x.src.step ds x.engine.rdAddr 0 false x.engine.rdReq
  dst := x.dst.step dd x.engine.wrAddr x.engine.wrData x.engine.wrReq x.engine.wrReq

/-- What a transfer may wait for. -/
inductive Signal
  | rdGnt | rsp | wrGnt

/-- Where a transfer stands. -/
inductive Phase
  | rd (i : ℕ)
  | wait (i : ℕ)
  | wr (i : ℕ)
  | done
  | past

namespace Phase

/-- Bytes read and bytes written. -/
def moved (len : ℕ) : Phase → ℕ × ℕ
  | rd i => (i, i)
  | wait i => (i + 1, i)
  | wr i => (i + 1, i)
  | _ => (len, len)

def state : Phase → DmaState
  | rd _ => .rd
  | wait _ => .wait
  | wr _ => .wr
  | done => .done
  | past => .idle

def byte? : Phase → Option ℕ
  | rd i => some i
  | wait i => some i
  | wr i => some i
  | _ => none

def next (len : ℕ) (rdGnt rsp wrGnt : Bool) : Phase → Phase
  | rd i => if rdGnt then wait i else rd i
  | wait i => if rsp then wr i else wait i
  | wr i => if wrGnt then (if i + 1 = len then done else rd (i + 1)) else wr i
  | _ => past

def signal? : Phase → Option Signal
  | rd _ => some .rdGnt
  | wait _ => some .rsp
  | wr _ => some .wrGnt
  | _ => none

def rank (len : ℕ) : Phase → ℕ
  | rd i => 3 * (len - i) + 3
  | wait i => 3 * (len - i) + 2
  | wr i => 3 * (len - i) + 1
  | _ => 0

/-- The response the source owes. -/
def owed (j : CopyJob a b) (m : BitVec a → MmioData) : Phase → Option MmioData
  | wait i => some (m (j.srcAt i))
  | _ => none

end Phase

/-- The loop is at a phase of the transfer from `m` to `m'`. -/
structure At (j : CopyJob a b) (m : BitVec a → MmioData) (m' : BitVec b → MmioData) (p : Phase)
    (x : Copier a b) : Prop where
  state : x.engine.state = p.state
  regs : ∀ i, p.byte? = some i → i < j.len.toNat ∧ x.engine.srcAddrR = j.srcAt i ∧
    x.engine.dstAddrR = j.dstAt i ∧ x.engine.lenR = j.len ∧ x.engine.cntR = .ofNat 16 i
  waiting : x.src.pending = p.owed j m
  data : ∀ i, p = .wr i → x.engine.dataR = m (j.srcAt i)
  srcMem : x.src.mem = m
  srcLog : x.src.log = j.reads (p.moved j.len.toNat).1
  dstMem : x.dst.mem = j.written m m' (p.moved j.len.toNat).2
  dstLog : x.dst.log = j.writes m (p.moved j.len.toNat).2

section Step

variable {j j' : CopyJob a b} {m : BitVec a → MmioData} {m' : BitVec b → MmioData} {p : Phase}
  {x : Copier a b} {ds dd : PortDelay}

theorem lastByte_iff {s : DmaEngine a b} {i : ℕ} (hlt : i < s.lenR.toNat)
    (hcnt : s.cntR = .ofNat 16 i) : s.lastByte = decide (i + 1 = s.lenR.toNat) := by
  have hlen := s.lenR.isLt
  have hsum : (s.cntR + 1).toNat = i + 1 := by
    rw [hcnt, toNat_add_one] <;> rw [BitVec.toNat_ofNat, Nat.mod_eq_of_lt (by omega)]
    omega
  rw [DmaEngine.lastByte, BitVec.ult_eq_decide, hsum, Bool.eq_iff_iff]
  simp only [Bool.not_eq_true', decide_eq_false_iff_not, decide_eq_true_eq]
  omega

theorem src_step_of_idle (h : x.engine.state ≠ .rd) (start : Bool) (j' : CopyJob a b)
    (ds dd : PortDelay) :
    (x.step start j' ds dd).src =
      { x.src with pending := if x.src.rvalid ds then none else x.src.pending } := by
  simp [Copier.step, MemPort.step, DmaEngine.rdReq, h]

theorem dst_step_of_idle (h : x.engine.state ≠ .wr) (start : Bool) (j' : CopyJob a b)
    (ds dd : PortDelay) :
    (x.step start j' ds dd).dst.mem = x.dst.mem ∧ (x.step start j' ds dd).dst.log = x.dst.log := by
  simp [Copier.step, MemPort.step, DmaEngine.wrReq, h]

theorem src_step_of_quiet (h : x.engine.state ≠ .rd) (hp : x.src.pending = none) (start : Bool)
    (j' : CopyJob a b) (ds dd : PortDelay) : (x.step start j' ds dd).src = x.src := by
  have hrv : x.src.rvalid ds = false := by simp [MemPort.rvalid, hp]
  rw [src_step_of_idle h, hrv, if_neg Bool.false_ne_true]

/-- A cycle in which nothing the phase speaks of changes. -/
theorem At.congr {x' : Copier a b} (h : At j m m' p x) (he : x'.engine = x.engine)
    (hs : x'.src = x.src) (hd : x'.dst.mem = x.dst.mem ∧ x'.dst.log = x.dst.log) :
    At j m m' p x' where
  state := he ▸ h.state
  regs := he ▸ h.regs
  waiting := hs ▸ h.waiting
  data := he ▸ h.data
  srcMem := hs ▸ h.srcMem
  srcLog := hs ▸ h.srcLog
  dstMem := hd.1.trans h.dstMem
  dstLog := hd.2.trans h.dstLog

theorem At.step_rd {i : ℕ} (h : At j m m' (.rd i) x) :
    At j m m' (if ds.gnt then .wait i else .rd i) (x.step false j' ds dd) := by
  have hstate : x.engine.state = .rd := h.state
  have hwaiting : x.src.pending = none := h.waiting
  have hdst := dst_step_of_idle (x := x) (by simp [hstate]) false j' ds dd
  cases hg : ds.gnt with
  | false =>
      refine h.congr ?_ ?_ hdst
      · simp [Copier.step, DmaEngine.step, hstate, hg]
      · have hrv : x.src.rvalid ds = false := by simp [MemPort.rvalid, hwaiting]
        simp [Copier.step, MemPort.step, hrv, hg]
  | true =>
      have hengine : (x.step false j' ds dd).engine = { x.engine with state := .wait } := by
        simp [Copier.step, DmaEngine.step, hstate, hg]
      have hport : (x.step false j' ds dd).src =
          { x.src with
            pending := some (m (j.srcAt i)), log := x.src.log ++ [.read (j.srcAt i)] } := by
        simp [Copier.step, MemPort.step, DmaEngine.rdReq, DmaEngine.rdAddr, hstate, hg,
          (h.regs i rfl).2.1, h.srcMem]
      rw [if_pos rfl]
      refine ⟨by rw [hengine]; rfl, fun k hk ↦ ?_, by rw [hport]; rfl,
        fun k hk ↦ absurd hk (by simp), by rw [hport]; exact h.srcMem, ?_,
        hdst.1.trans h.dstMem, hdst.2.trans h.dstLog⟩
      · rw [hengine]
        exact h.regs k hk
      · rw [hport, h.srcLog]
        exact (j.reads_succ i).symm

theorem At.step_wait {i : ℕ} (h : At j m m' (.wait i) x) :
    At j m m' (if ds.rsp then .wr i else .wait i) (x.step false j' ds dd) := by
  have hstate : x.engine.state = .wait := h.state
  have hwaiting : x.src.pending = some (m (j.srcAt i)) := h.waiting
  have hdst := dst_step_of_idle (x := x) (by simp [hstate]) false j' ds dd
  have hport := src_step_of_idle (x := x) (by simp [hstate]) false j' ds dd
  have hrv : x.src.rvalid ds = ds.rsp := by simp [MemPort.rvalid, hwaiting]
  rw [hrv] at hport
  cases hr : ds.rsp with
  | false =>
      rw [hr] at hport
      refine h.congr ?_ hport hdst
      simp [Copier.step, DmaEngine.step, hstate, hrv, hr]
  | true =>
      rw [hr] at hport
      have hengine : (x.step false j' ds dd).engine =
          { x.engine with state := .wr, dataR := m (j.srcAt i) } := by
        simp [Copier.step, DmaEngine.step, MemPort.rdata, hstate, hrv, hr, hwaiting]
      rw [if_pos rfl]
      refine ⟨by rw [hengine]; rfl, fun k hk ↦ ?_, by rw [hport]; rfl, fun k hk ↦ ?_,
        by rw [hport]; exact h.srcMem, by rw [hport]; exact h.srcLog, hdst.1.trans h.dstMem,
        hdst.2.trans h.dstLog⟩
      · rw [hengine]
        exact h.regs k hk
      · obtain rfl : i = k := by simpa using hk
        rw [hengine]

/-- The byte written is the last one, or the next one is read. -/
theorem At.step_wr {i : ℕ} (h : At j m m' (.wr i) x) :
    At j m m' (if dd.gnt then (if i + 1 = j.len.toNat then .done else .rd (i + 1)) else .wr i)
      (x.step false j' ds dd) := by
  have hstate : x.engine.state = .wr := h.state
  have hport := src_step_of_quiet (by simp [hstate]) h.waiting false j' ds dd
  obtain ⟨hlt, hsrc, hdst, hlen, hcnt⟩ := h.regs i rfl
  cases hg : dd.gnt with
  | false =>
      refine h.congr ?_ hport ⟨?_, ?_⟩
      · simp [Copier.step, DmaEngine.step, hstate, hg]
      all_goals simp [Copier.step, MemPort.step, hg]
  | true =>
      have hlast := lastByte_iff (s := x.engine) (by rw [hlen]; exact hlt) hcnt
      rw [hlen] at hlast
      have hengine : (x.step false j' ds dd).engine =
          { x.engine with
            state := if i + 1 = j.len.toNat then .done else .rd
            cntR := x.engine.cntR + 1
            srcAddrR := x.engine.srcAddrR + 1
            dstAddrR := x.engine.dstAddrR + 1 } := by
        simp [Copier.step, DmaEngine.step, hstate, hg, hlast]
      have hmem : (x.step false j' ds dd).dst.mem = j.written m m' (i + 1) := by
        have hold : x.dst.mem = j.written m m' i := h.dstMem
        rw [j.written_succ, ← hold]
        simp [Copier.step, MemPort.step, DmaEngine.wrReq, DmaEngine.wrAddr, DmaEngine.wrData,
          hstate, hg, hdst, h.data i rfl]
      have hlog : (x.step false j' ds dd).dst.log = j.writes m (i + 1) := by
        have hold : x.dst.log = j.writes m i := h.dstLog
        rw [j.writes_succ, ← hold]
        simp [Copier.step, MemPort.step, DmaEngine.wrReq, DmaEngine.wrAddr, DmaEngine.wrData,
          hstate, hg, hdst, h.data i rfl]
      have hreads : (x.step false j' ds dd).src.log = j.reads (i + 1) := hport ▸ h.srcLog
      have hnone : (x.step false j' ds dd).src.pending = none := hport ▸ h.waiting
      rw [if_pos rfl]
      by_cases hend : i + 1 = j.len.toNat
      · rw [if_pos hend]
        rw [hend] at hmem hlog hreads
        refine ⟨?_, fun k hk ↦ absurd hk (by simp [Phase.byte?]), hnone,
          fun k hk ↦ absurd hk (by simp), hport ▸ h.srcMem, hreads, hmem, hlog⟩
        rw [hengine]
        exact if_pos hend
      · rw [if_neg hend]
        refine ⟨?_, fun k hk ↦ ?_, hnone, fun k hk ↦ absurd hk (by simp), hport ▸ h.srcMem, hreads,
          hmem, hlog⟩
        · rw [hengine]
          exact if_neg hend
        · obtain rfl : i + 1 = k := by simpa [Phase.byte?] using hk
          rw [hengine]
          refine ⟨by omega, ?_, ?_, hlen, ?_⟩
          · exact (congrArg (· + 1) hsrc).trans (j.srcAt_succ i)
          · exact (congrArg (· + 1) hdst).trans (j.dstAt_succ i)
          · change x.engine.cntR + 1 = _
            rw [hcnt, BitVec.ofNat_add]
            rfl

theorem At.step_over (h : At j m m' p x) (hp : p = .done ∨ p = .past) :
    At j m m' .past (x.step false j' ds dd) := by
  have hstate : x.engine.state = .done ∨ x.engine.state = .idle := by
    rcases hp with rfl | rfl
    exacts [.inl h.state, .inr h.state]
  have hnone : x.src.pending = none := by
    rcases hp with rfl | rfl <;> exact h.waiting
  have hport := src_step_of_quiet (by rcases hstate with hs | hs <;> simp [hs]) hnone false j' ds dd
  have hdst := dst_step_of_idle (x := x) (by rcases hstate with hs | hs <;> simp [hs]) false j' ds
    dd
  refine ⟨?_, fun k hk ↦ absurd hk (by simp [Phase.byte?]), hport ▸ hnone,
    fun k hk ↦ absurd hk (by simp), hport ▸ h.srcMem, ?_, hdst.1.trans ?_, hdst.2.trans ?_⟩
  · rcases hstate with hs | hs <;> simp [Copier.step, DmaEngine.step, hs, Phase.state]
  · rw [hport]
    rcases hp with rfl | rfl <;> exact h.srcLog
  · rcases hp with rfl | rfl <;> exact h.dstMem
  · rcases hp with rfl | rfl <;> exact h.dstLog

theorem At.step (h : At j m m' p x) :
    At j m m' (p.next j.len.toNat ds.gnt ds.rsp dd.gnt) (x.step false j' ds dd) := by
  cases p with
  | rd i => exact h.step_rd
  | wait i => exact h.step_wait
  | wr i => exact h.step_wr
  | done => exact h.step_over (.inl rfl)
  | past => exact h.step_over (.inr rfl)

/-- A phase waits for its signal and then comes closer to the end. -/
theorem rank_next {len i : ℕ} (hlt : i < len) (hb : p.byte? = some i) (sig : Signal → Bool) :
    (p.next len (sig .rdGnt) (sig .rsp) (sig .wrGnt)).rank len < p.rank len ∨
      ∃ k, p.signal? = some k ∧ sig k = false ∧
        p.next len (sig .rdGnt) (sig .rsp) (sig .wrGnt) = p := by
  cases p with
  | rd k =>
      cases hs : sig .rdGnt with
      | false => exact .inr ⟨_, rfl, hs, rfl⟩
      | true => exact .inl (by simp [Phase.next, Phase.rank])
  | wait k =>
      cases hs : sig .rsp with
      | false => exact .inr ⟨_, rfl, hs, rfl⟩
      | true => exact .inl (by simp [Phase.next, Phase.rank])
  | wr k =>
      cases hs : sig .wrGnt with
      | false => exact .inr ⟨_, rfl, hs, rfl⟩
      | true =>
          refine .inl ?_
          obtain rfl : k = i := by simpa [Phase.byte?] using hb
          simp only [Phase.next, if_true]
          split <;> simp only [Phase.rank] <;> omega
  | done => simp [Phase.byte?] at hb
  | past => simp [Phase.byte?] at hb

theorem At.start (hidle : x.engine.state = .idle) (hpend : x.src.pending = none)
    (hsrc : x.src.log = []) (hdst : x.dst.log = []) (hlen : 0 < j.len.toNat) :
    At j x.src.mem x.dst.mem (.rd 0) (x.step true j ds dd) := by
  obtain ⟨hmem', hlog'⟩ := dst_step_of_idle (x := x) (by simp [hidle]) true j ds dd
  have hport := src_step_of_quiet (by simp [hidle]) hpend true j ds dd
  have hengine : (x.step true j ds dd).engine = { x.engine with
      state := .rd, srcAddrR := j.src, dstAddrR := j.dst, lenR := j.len, cntR := 0 } := by
    simp [Copier.step, DmaEngine.step, hidle]
  refine ⟨by rw [hengine]; rfl, fun i hi ↦ ?_, ?_, fun i hi ↦ absurd hi (by simp), by rw [hport],
    by rw [hport]; exact hsrc, hmem', hlog'.trans hdst⟩
  · obtain rfl : 0 = i := by simpa [Phase.byte?] using hi
    rw [hengine]
    exact ⟨hlen, (BitVec.add_zero _).symm, (BitVec.add_zero _).symm, rfl, rfl⟩
  · rw [hport]
    exact hpend

end Step

/-! ## Whole transfers -/

def phases (len : ℕ) (ds dd : ℕ → PortDelay) : ℕ → Phase
  | 0 => .rd 0
  | t + 1 => (phases len ds dd t).next len (ds (t + 1)).gnt (ds (t + 1)).rsp (dd (t + 1)).gnt

/-- A port that grants and responds again and again. -/
structure FairDelay (d : ℕ → PortDelay) : Prop where
  gnt : Clocked.Fair fun t ↦ (d t).gnt
  rsp : Clocked.Fair fun t ↦ (d t).rsp

theorem fairDelay_of_all {d : ℕ → PortDelay} (hg : ∀ t, (d t).gnt = true)
    (hr : ∀ t, (d t).rsp = true) : FairDelay d :=
  ⟨fun t ↦ ⟨t, le_rfl, hg t⟩, fun t ↦ ⟨t, le_rfl, hr t⟩⟩

section Run

variable {j : CopyJob a b} {m : BitVec a → MmioData} {m' : BitVec b → MmioData}
  {ds dd : ℕ → PortDelay} {len : ℕ}

theorem byte_lt (ds dd : ℕ → PortDelay) (hlen : 0 < len) (t : ℕ) :
    ∀ i, (phases len ds dd t).byte? = some i → i < len := by
  induction t with
  | zero =>
      intro i hi
      obtain rfl : 0 = i := by simpa [phases, Phase.byte?] using hi
      exact hlen
  | succ t ih =>
      intro i hi
      rw [phases] at hi
      cases hp : phases len ds dd t with
      | rd k =>
          have hk := ih k (by rw [hp]; rfl)
          rw [hp, Phase.next] at hi
          split at hi <;> obtain rfl : k = i := by simpa [Phase.byte?] using hi
          all_goals exact hk
      | wait k =>
          have hk := ih k (by rw [hp]; rfl)
          rw [hp, Phase.next] at hi
          split at hi <;> obtain rfl : k = i := by simpa [Phase.byte?] using hi
          all_goals exact hk
      | wr k =>
          have hk := ih k (by rw [hp]; rfl)
          rw [hp, Phase.next] at hi
          split at hi
          · split at hi
            · simp [Phase.byte?] at hi
            · obtain rfl : k + 1 = i := by simpa [Phase.byte?] using hi
              omega
          · obtain rfl : k = i := by simpa [Phase.byte?] using hi
            exact hk
      | done => simp [hp, Phase.next, Phase.byte?] at hi
      | past => simp [hp, Phase.next, Phase.byte?] at hi

theorem moved_le (ds dd : ℕ → PortDelay) (hlen : 0 < len) (t : ℕ) :
    ((phases len ds dd t).moved len).1 ≤ len ∧
    ((phases len ds dd t).moved len).2 ≤ len := by
  have hbyte := byte_lt ds dd hlen t
  cases hp : phases len ds dd t with
  | rd i =>
      have := hbyte i (by rw [hp]; rfl)
      exact ⟨this.le, this.le⟩
  | wait i =>
      have := hbyte i (by rw [hp]; rfl)
      exact ⟨this, this.le⟩
  | wr i =>
      have := hbyte i (by rw [hp]; rfl)
      exact ⟨this, this.le⟩
  | done => exact ⟨le_rfl, le_rfl⟩
  | past => exact ⟨le_rfl, le_rfl⟩

def signals (ds dd : ℕ → PortDelay) (t : ℕ) : Signal → Bool
  | .rdGnt => (ds t).gnt
  | .rsp => (ds t).rsp
  | .wrGnt => (dd t).gnt

theorem fair_signals (hs : FairDelay ds) (hd : FairDelay dd) (i : Signal) :
    Clocked.Fair fun t ↦ signals ds dd (t + 1) i := by
  cases i
  exacts [hs.gnt.succ, hs.rsp.succ, hd.gnt.succ]

/-- Every transfer comes to its end. -/
theorem exists_end (hs : FairDelay ds) (hd : FairDelay dd) (hlen : 0 < len) :
    ∃ t, (phases len ds dd t).byte? = none := by
  have hrank : ∀ t, (phases len ds dd t).byte? ≠ none →
      (phases len ds dd (t + 1)).rank len < (phases len ds dd t).rank len ∨
        ∃ k, (phases len ds dd t).signal? = some k ∧ signals ds dd (t + 1) k = false ∧
          phases len ds dd (t + 1) = phases len ds dd t := by
    intro t hgoal
    obtain ⟨k, hk⟩ := Option.ne_none_iff_exists'.mp hgoal
    exact rank_next (byte_lt ds dd hlen t k hk) hk (signals ds dd (t + 1))
  have hend := Clocked.eventually_of_rank (x := phases len ds dd) wellFounded_lt
    (Phase.rank len) (fun p ↦ p.byte? = none) (fun i p ↦ p.signal? = some i)
    (fun i t ↦ signals ds dd (t + 1) i) (fair_signals hs hd) (fun t hgoal ↦ ?_)
    (fun t i hgoal hi ↦ ?_) 0
  · obtain ⟨t, -, ht⟩ := hend
    exact ⟨t, ht⟩
  · rcases hrank t hgoal with hlt | ⟨i, hi, -⟩
    exacts [.inr (.inl hlt), .inr (.inr ⟨i, hi⟩)]
  · rcases hrank t hgoal with hlt | ⟨i', hi', hsig, hstill⟩
    · exact .inr (.inl hlt)
    · obtain rfl := Option.some.inj (hi.symm.trans hi')
      exact .inr (.inr ⟨hsig, hstill ▸ hi, by rw [hstill]⟩)

/-- The transfer is busy, done for one cycle, and over. -/
theorem phases_shape (hs : FairDelay ds) (hd : FairDelay dd) (hlen : 0 < len) :
    ∃ T, (∀ t, t < T → (phases len ds dd t).byte?.isSome) ∧ phases len ds dd T = .done ∧
      ∀ t, T < t → phases len ds dd t = .past := by
  classical
  have hex := exists_end hs hd hlen
  have hbusy : ∀ t, t < Nat.find hex → (phases len ds dd t).byte?.isSome := fun t ht ↦
    Option.isSome_iff_ne_none.mpr (Nat.find_min hex ht)
  have hnone := Nat.find_spec hex
  have hdone : phases len ds dd (Nat.find hex) = .done := by
    obtain ⟨n, hn⟩ : ∃ n, Nat.find hex = n + 1 := by
      refine ⟨Nat.find hex - 1, (Nat.sub_add_cancel (Nat.pos_of_ne_zero fun h0 ↦ ?_)).symm⟩
      rw [h0] at hnone
      simp [phases, Phase.byte?] at hnone
    have hprev := hbusy n (by omega)
    rw [hn] at hnone ⊢
    rw [phases] at hnone ⊢
    cases hp : phases len ds dd n with
    | rd k => rw [hp, Phase.next] at hnone; split at hnone <;> simp [Phase.byte?] at hnone
    | wait k => rw [hp, Phase.next] at hnone; split at hnone <;> simp [Phase.byte?] at hnone
    | wr k =>
        rw [hp, Phase.next] at hnone
        rw [Phase.next]
        split at hnone
        · next hg =>
            split at hnone
            · next hend => rw [if_pos hg, if_pos hend]
            · simp [Phase.byte?] at hnone
        · simp [Phase.byte?] at hnone
    | done => simp [hp, Phase.byte?] at hprev
    | past => simp [hp, Phase.byte?] at hprev
  refine ⟨Nat.find hex, hbusy, hdone, fun t ht ↦ ?_⟩
  induction t, ht using Nat.le_induction with
  | base =>
      rw [Nat.succ_eq_add_one, phases, hdone]
      rfl
  | succ t _ ih =>
      rw [phases, ih]
      rfl

end Run

/-! ## What a transfer achieves -/

/-- Byte `i` of the source is copied to byte `i` of the destination, in order
and once, and nothing else is accessed; `busy` falls when the last byte has
been accepted and `done` follows for one cycle. -/
structure Moves (j : CopyJob a b) (m : BitVec a → MmioData) (m' : BitVec b → MmioData)
    (src : ℕ → MemPort a) (dst : ℕ → MemPort b) (busy done : ℕ → Bool) (T : ℕ) : Prop where
  busy : ∀ t, busy t = true ↔ 0 < t ∧ t < T
  done : ∀ t, done t = true ↔ t = T
  reads : ∀ t, (src t).log <+: j.reads j.len.toNat
  writes : ∀ t, (dst t).log <+: j.writes m j.len.toNat
  lastByte : ∀ t, (dst t).log.length = j.len.toNat ↔ T ≤ t
  allRead : ∀ t, T ≤ t → (src t).log = j.reads j.len.toNat
  allWritten : ∀ t, T ≤ t → (dst t).log = j.writes m j.len.toNat
  copied : ∀ t, T ≤ t → ∀ i < j.len.toNat, (dst t).mem (j.dstAt i) = m (j.srcAt i)
  frame : ∀ t e, (∀ i < j.len.toNat, j.dstAt i ≠ e) → (dst t).mem e = m' e
  source : ∀ t, (src t).mem = m

/-- An engine that has left the busy states has moved every byte. -/
theorem At.moved_of_not_busy {j : CopyJob a b} {m : BitVec a → MmioData} {m' : BitVec b → MmioData}
    {p : Phase} {x : Copier a b} (h : At j m m' p x) (hb : x.engine.busy = false) (n : ℕ) :
    p.moved n = (n, n) := by
  have hstate := h.state
  cases p with
  | rd i => simp [DmaEngine.busy, hstate, Phase.state] at hb
  | wait i => simp [DmaEngine.busy, hstate, Phase.state] at hb
  | wr i => simp [DmaEngine.busy, hstate, Phase.state] at hb
  | done => rfl
  | past => rfl

section Moves

variable {j : CopyJob a b} {m : BitVec a → MmioData} {m' : BitVec b → MmioData}
  {src : ℕ → MemPort a} {dst : ℕ → MemPort b} {busy done : ℕ → Bool}

theorem length_writes (n : ℕ) : (j.writes m n).length = n := by simp [CopyJob.writes]

/-- Destination addresses do not repeat: a length is at most 16 bits wide. -/
theorem dstAt_inj (hb : 16 ≤ b) {i k : ℕ} (hi : i < j.len.toNat) (hk : k < j.len.toNat)
    (h : j.dstAt i = j.dstAt k) : i = k := by
  have hlen := j.len.isLt
  have hpow : 2 ^ 16 ≤ 2 ^ b := Nat.pow_le_pow_right (by decide) hb
  have hnat := congrArg BitVec.toNat ((BitVec.add_right_inj j.dst).mp h)
  rwa [BitVec.toNat_ofNat, BitVec.toNat_ofNat, Nat.mod_eq_of_lt (by omega),
    Nat.mod_eq_of_lt (by omega)] at hnat

theorem written_apply (hb : 16 ≤ b) {n i : ℕ} (hn : n ≤ j.len.toNat) (hi : i < n) :
    j.written m m' n (j.dstAt i) = m (j.srcAt i) := by
  refine WriteLog.replay_of_mem ?_ (List.mem_map.mpr ⟨i, List.mem_range.mpr hi, rfl⟩)
  rw [List.map_map]
  refine List.Nodup.map_on ?_ List.nodup_range
  intro x hx y hy hxy
  exact dstAt_inj hb ((List.mem_range.mp hx).trans_le hn) ((List.mem_range.mp hy).trans_le hn) hxy

theorem written_of_ne {n : ℕ} {e : BitVec b} (he : ∀ i < n, j.dstAt i ≠ e) :
    j.written m m' n e = m' e := by
  refine WriteLog.replay_of_notMem fun w hw ↦ ?_
  obtain ⟨i, hi, rfl⟩ := List.mem_map.mp hw
  exact he i (List.mem_range.mp hi)

/-- A run that follows the phases moves its bytes. -/
theorem moves_of_at {ds dd : ℕ → PortDelay} (hs : FairDelay ds) (hd : FairDelay dd) (hb : 16 ≤ b)
    (hlen : 0 < j.len.toNat) {x : ℕ → Copier a b}
    (hat : ∀ t, At j m m' (phases j.len.toNat ds dd t) (x (t + 1)))
    (hbusy : ∀ t, busy t = (x t).engine.busy) (hdone : ∀ t, done t = (x t).engine.done)
    (hsrc : ∀ t, src t = (x t).src) (hdst : ∀ t, dst t = (x t).dst)
    (hidle : (x 0).engine.state = .idle) (hm : (x 0).src.mem = m) (hm' : (x 0).dst.mem = m')
    (hslog : (x 0).src.log = []) (hdlog : (x 0).dst.log = []) :
    ∃ T, Moves j m m' src dst busy done T := by
  obtain ⟨T, hbefore, hend, hafter⟩ := phases_shape hs hd hlen
  have hle := moved_le ds dd hlen
  have hlt : ∀ t < T, ((phases j.len.toNat ds dd t).moved j.len.toNat).2 < j.len.toNat := by
    intro t ht
    have hbyte := byte_lt ds dd hlen t
    have hsome := hbefore t ht
    cases hp : phases j.len.toNat ds dd t with
    | rd i => exact hbyte i (by rw [hp]; rfl)
    | wait i => exact hbyte i (by rw [hp]; rfl)
    | wr i => exact hbyte i (by rw [hp]; rfl)
    | done => simp [hp, Phase.byte?] at hsome
    | past => simp [hp, Phase.byte?] at hsome
  have hall : ∀ t, T ≤ t →
      (phases j.len.toNat ds dd t).moved j.len.toNat = (j.len.toNat, j.len.toNat) := by
    intro t ht
    rcases Nat.eq_or_lt_of_le ht with rfl | ht
    · rw [hend]
      rfl
    · rw [hafter t ht]
      rfl
  refine ⟨T + 1, fun t ↦ ?_, fun t ↦ ?_, fun t ↦ ?_, fun t ↦ ?_, fun t ↦ ?_, fun t ht ↦ ?_,
    fun t ht ↦ ?_, fun t ht i hi ↦ ?_, fun t e he ↦ ?_, fun t ↦ ?_⟩
  · rw [hbusy]
    cases t with
    | zero => simp [DmaEngine.busy, hidle]
    | succ t =>
        have hstate := (hat t).state
        rcases Nat.lt_trichotomy t T with ht | rfl | ht
        · have hsome := hbefore t ht
          have : (x (t + 1)).engine.busy = true := by
            cases hp : phases j.len.toNat ds dd t <;>
              simp_all [DmaEngine.busy, Phase.state, Phase.byte?]
          simp [this, ht]
        · simp [DmaEngine.busy, hstate, hend, Phase.state]
        · simp [DmaEngine.busy, hstate, hafter t ht, Phase.state, ht.le]
  · rw [hdone]
    cases t with
    | zero => simp [DmaEngine.done, hidle]
    | succ t =>
        have hstate := (hat t).state
        rcases Nat.lt_trichotomy t T with ht | rfl | ht
        · have hsome := hbefore t ht
          have : (x (t + 1)).engine.done = false := by
            cases hp : phases j.len.toNat ds dd t <;>
              simp_all [DmaEngine.done, Phase.state, Phase.byte?]
          simp [this, ht.ne]
        · simp [DmaEngine.done, hstate, hend, Phase.state]
        · simp [DmaEngine.done, hstate, hafter t ht, Phase.state, ht.ne']
  · rw [hsrc]
    cases t with
    | zero =>
        rw [hslog]
        exact List.nil_prefix
    | succ t =>
        rw [(hat t).srcLog]
        exact WriteLog.map_range_isPrefix _ (hle t).1
  · rw [hdst]
    cases t with
    | zero =>
        rw [hdlog]
        exact List.nil_prefix
    | succ t =>
        rw [(hat t).dstLog]
        exact WriteLog.map_range_isPrefix _ (hle t).2
  · rw [hdst]
    cases t with
    | zero =>
        rw [hdlog, List.length_nil]
        omega
    | succ t =>
        rw [(hat t).dstLog, length_writes]
        rcases Nat.lt_or_ge t T with ht | ht
        · have := hlt t ht
          omega
        · rw [hall t ht]
          simp [ht]
  · rw [hsrc]
    obtain ⟨n, rfl⟩ : ∃ n, t = n + 1 := ⟨t - 1, by omega⟩
    rw [(hat n).srcLog, hall n (by omega)]
  · rw [hdst]
    obtain ⟨n, rfl⟩ : ∃ n, t = n + 1 := ⟨t - 1, by omega⟩
    rw [(hat n).dstLog, hall n (by omega)]
  · rw [hdst]
    obtain ⟨n, rfl⟩ : ∃ n, t = n + 1 := ⟨t - 1, by omega⟩
    rw [(hat n).dstMem, hall n (by omega)]
    exact written_apply hb le_rfl hi
  · rw [hdst]
    cases t with
    | zero => rw [hm']
    | succ t =>
        rw [(hat t).dstMem]
        exact written_of_ne fun i hi ↦ he i (hi.trans_le (hle t).2)
  · rw [hsrc]
    cases t with
    | zero => exact hm
    | succ t => exact (hat t).srcMem

end Moves

end Copier

/-! ## The front end between its memories -/

structure DmaSys where
  front : NpuDmaFrontend
  ext : MemPort 32
  loc : MemPort 20

/-- One cycle of the configuration registers and of both memories. -/
structure DmaIn where
  cfg : DmaCfg
  ext : PortDelay
  loc : PortDelay

namespace DmaSys

variable (i : DmaIn) (x : DmaSys)

def extRsp : ExtRsp := ⟨i.ext.gnt, x.ext.rdata i.ext, x.ext.rvalid i.ext⟩

def bufRsp : HostRsp := ⟨i.loc.gnt, x.loc.rdata i.loc, x.loc.rvalid i.loc⟩

def step : DmaSys where
  front := x.front.step i.cfg (x.extRsp i) (x.bufRsp i)
  ext := x.ext.step i.ext x.front.extReq.addr x.front.extReq.wdata x.front.extReq.wr
    x.front.extReq.req
  loc := x.loc.step i.loc x.front.bufReq.addr x.front.bufReq.wdata x.front.bufReq.wr
    x.front.bufReq.req

def run (ins : ℕ → DmaIn) (x : DmaSys) : ℕ → DmaSys := Clocked.run (fun t ↦ step (ins t)) x

theorem run_succ (ins : ℕ → DmaIn) (t : ℕ) : run ins x (t + 1) = (run ins x t).step (ins t) := rfl

/-- Both engines idle and no response owed; the accesses are counted from
here. -/
structure Idle : Prop where
  reader : x.front.reader.state = .idle
  writer : x.front.writer.state = .idle
  extPending : x.ext.pending = none
  locPending : x.loc.pending = none
  extLog : x.ext.log = []
  locLog : x.loc.log = []

def readCopier : Copier 32 20 := ⟨x.front.reader, x.ext, x.loc⟩

def writeCopier : Copier 20 32 := ⟨x.front.writer, x.loc, x.ext⟩

/-- The transfer programmed, as a copy to the local buffer. -/
def readJob (c : DmaCfg) : CopyJob 32 20 := ⟨c.extAddr, c.locAddr, c.len⟩

/-- The transfer programmed, as a copy from the local buffer. -/
def writeJob (c : DmaCfg) : CopyJob 20 32 := ⟨c.locAddr, c.extAddr, c.len⟩

variable {i x}

theorem port_step_congr {a : ℕ} {p : MemPort a} {d : PortDelay} {addr addr' : BitVec a}
    {wdata wdata' : MmioData} {wr wr' req : Bool}
    (h : req = true → addr = addr' ∧ wr = wr' ∧ (wr = true → wdata = wdata')) :
    p.step d addr wdata wr req = p.step d addr' wdata' wr' req := by
  cases req with
  | false => simp [MemPort.step]
  | true =>
      obtain ⟨rfl, rfl, hw⟩ := h rfl
      cases wr with
      | false => simp [MemPort.step]
      | true => rw [hw rfl]

/-- With the writer idle the front end is the reader. -/
theorem readCopier_step (hw : x.front.writer.state = .idle)
    (hs : (i.cfg.start && i.cfg.dir) = false) :
    (x.step i).front.writer.state = .idle ∧
      (x.step i).readCopier =
        x.readCopier.step (i.cfg.start && !i.cfg.dir) (readJob i.cfg) i.ext i.loc := by
  refine ⟨by simp [step, NpuDmaFrontend.step, DmaEngine.step, hw, hs], ?_⟩
  have hext : (x.step i).ext = x.ext.step i.ext x.front.reader.rdAddr 0 false
      x.front.reader.rdReq := by
    have hreq : x.front.extReq.req = x.front.reader.rdReq := by
      cases hr : x.front.reader.state <;>
        simp [NpuDmaFrontend.extReq, DmaEngine.busy, DmaEngine.rdReq, DmaEngine.wrReq, hw, hr]
    have hbusy : x.front.reader.rdReq = true → x.front.reader.busy = true := by
      cases hr : x.front.reader.state <;> simp [DmaEngine.rdReq, DmaEngine.busy, hr]
    rw [step, hreq]
    exact port_step_congr fun h ↦ ⟨by simp [NpuDmaFrontend.extReq, hbusy h],
      by simp [NpuDmaFrontend.extReq, DmaEngine.busy, hw], by
        simp [NpuDmaFrontend.extReq, DmaEngine.busy, hw]⟩
  have hloc : (x.step i).loc = x.loc.step i.loc x.front.reader.wrAddr x.front.reader.wrData
      x.front.reader.wrReq x.front.reader.wrReq := by
    have hreq : x.front.bufReq.req = x.front.reader.wrReq := by
      simp [NpuDmaFrontend.bufReq, DmaEngine.rdReq, hw]
    have hbusy : x.front.reader.wrReq = true → x.front.reader.busy = true := by
      cases hr : x.front.reader.state <;> simp [DmaEngine.wrReq, DmaEngine.busy, hr]
    rw [step, hreq]
    exact port_step_congr fun h ↦ ⟨by simp [NpuDmaFrontend.bufReq, hbusy h], rfl, fun _ ↦ rfl⟩
  rw [readCopier, hext, hloc]
  rfl

/-- With the reader idle the front end is the writer. -/
theorem writeCopier_step (hr : x.front.reader.state = .idle)
    (hs : (i.cfg.start && !i.cfg.dir) = false) :
    (x.step i).front.reader.state = .idle ∧
      (x.step i).writeCopier =
        x.writeCopier.step (i.cfg.start && i.cfg.dir) (writeJob i.cfg) i.loc i.ext := by
  refine ⟨by simp [step, NpuDmaFrontend.step, DmaEngine.step, hr, hs], ?_⟩
  have hnot : x.front.reader.busy = false := by simp [DmaEngine.busy, hr]
  have hloc : (x.step i).loc = x.loc.step i.loc x.front.writer.rdAddr 0 false
      x.front.writer.rdReq := by
    have hreq : x.front.bufReq.req = x.front.writer.rdReq := by
      simp [NpuDmaFrontend.bufReq, DmaEngine.wrReq, hr]
    rw [step, hreq]
    exact port_step_congr fun _ ↦ ⟨by simp [NpuDmaFrontend.bufReq, hnot],
      by simp [NpuDmaFrontend.bufReq, DmaEngine.wrReq, hr], by
        simp [NpuDmaFrontend.bufReq, DmaEngine.wrReq, hr]⟩
  have hext : (x.step i).ext = x.ext.step i.ext x.front.writer.wrAddr x.front.writer.wrData
      x.front.writer.wrReq x.front.writer.wrReq := by
    have hreq : x.front.extReq.req = x.front.writer.wrReq := by
      simp [NpuDmaFrontend.extReq, hnot]
    have hbusy : x.front.writer.wrReq = true → x.front.writer.busy = true := by
      cases hw : x.front.writer.state <;> simp [DmaEngine.wrReq, DmaEngine.busy, hw]
    rw [step, hreq]
    exact port_step_congr fun h ↦ ⟨by simp [NpuDmaFrontend.extReq, hnot],
      by simp [NpuDmaFrontend.extReq, hbusy h], by simp [NpuDmaFrontend.extReq, hbusy h]⟩
  rw [writeCopier, hext, hloc]
  rfl

section Run

variable {ins : ℕ → DmaIn} (hidle : x.Idle) (hstart : ∀ t, (ins t).cfg.start = decide (t = 0))
include hidle hstart

theorem readCopier_run (hdir : (ins 0).cfg.dir = false) (t : ℕ) :
    (run ins x t).front.writer.state = .idle ∧
      (run ins x (t + 1)).readCopier = (run ins x t).readCopier.step (decide (t = 0))
        (readJob (ins t).cfg) (ins t).ext (ins t).loc := by
  have hno : ∀ t, ((ins t).cfg.start && (ins t).cfg.dir) = false := fun t ↦ by
    rw [hstart]
    cases t with
    | zero => rw [hdir, Bool.and_false]
    | succ t => simp
  have hgo : ∀ t, ((ins t).cfg.start && !(ins t).cfg.dir) = decide (t = 0) := fun t ↦ by
    rw [hstart]
    cases t with
    | zero => rw [hdir]; rfl
    | succ t => simp
  have hw : ∀ t, (run ins x t).front.writer.state = .idle := fun t ↦ by
    induction t with
    | zero => exact hidle.writer
    | succ t ih => exact (readCopier_step ih (hno t)).1
  refine ⟨hw t, ?_⟩
  rw [← hgo t]
  exact (readCopier_step (hw t) (hno t)).2

theorem writeCopier_run (hdir : (ins 0).cfg.dir = true) (t : ℕ) :
    (run ins x t).front.reader.state = .idle ∧
      (run ins x (t + 1)).writeCopier = (run ins x t).writeCopier.step (decide (t = 0))
        (writeJob (ins t).cfg) (ins t).loc (ins t).ext := by
  have hno : ∀ t, ((ins t).cfg.start && !(ins t).cfg.dir) = false := fun t ↦ by
    rw [hstart]
    cases t with
    | zero => rw [hdir]; rfl
    | succ t => simp
  have hgo : ∀ t, ((ins t).cfg.start && (ins t).cfg.dir) = decide (t = 0) := fun t ↦ by
    rw [hstart]
    cases t with
    | zero => rw [hdir, Bool.and_true]
    | succ t => simp
  have hr : ∀ t, (run ins x t).front.reader.state = .idle := fun t ↦ by
    induction t with
    | zero => exact hidle.reader
    | succ t ih => exact (writeCopier_step ih (hno t)).1
  refine ⟨hr t, ?_⟩
  rw [← hgo t]
  exact (writeCopier_step (hr t) (hno t)).2

omit hidle hstart in
/-- A copy loop started in cycle 0 follows the phases. -/
theorem at_run {a b : ℕ} {y : ℕ → Copier a b} {jobs : ℕ → CopyJob a b} {ds dd : ℕ → PortDelay}
    (hrun : ∀ t, y (t + 1) = (y t).step (decide (t = 0)) (jobs t) (ds t) (dd t))
    (h0 : (y 0).engine.state = .idle) (hpend : (y 0).src.pending = none)
    (hsrc : (y 0).src.log = []) (hdst : (y 0).dst.log = []) (hlen : 0 < (jobs 0).len.toNat)
    (t : ℕ) : Copier.At (jobs 0) (y 0).src.mem (y 0).dst.mem
      (Copier.phases (jobs 0).len.toNat ds dd t) (y (t + 1)) := by
  induction t with
  | zero =>
      rw [hrun]
      exact Copier.At.start h0 hpend hsrc hdst hlen
  | succ t ih =>
      rw [hrun]
      exact ih.step

/-- A transfer of one byte or more, whatever the delays of both memories and
whatever is written to the address and length registers meanwhile. -/
theorem transfer_moves (hext : Copier.FairDelay fun t ↦ (ins t).ext)
    (hloc : Copier.FairDelay fun t ↦ (ins t).loc) (hlen : 0 < (ins 0).cfg.len.toNat) :
    ∃ T, if (ins 0).cfg.dir then
        Copier.Moves (writeJob (ins 0).cfg) x.loc.mem x.ext.mem (fun t ↦ (run ins x t).loc)
          (fun t ↦ (run ins x t).ext) (fun t ↦ (run ins x t).front.dmaBusy)
          (fun t ↦ (run ins x t).front.dmaDone) T
      else
        Copier.Moves (readJob (ins 0).cfg) x.ext.mem x.loc.mem (fun t ↦ (run ins x t).ext)
          (fun t ↦ (run ins x t).loc) (fun t ↦ (run ins x t).front.dmaBusy)
          (fun t ↦ (run ins x t).front.dmaDone) T := by
  cases hdir : (ins 0).cfg.dir with
  | false =>
      have hrun := readCopier_run hidle hstart hdir
      have hat := at_run (y := fun t ↦ (run ins x t).readCopier)
        (fun t ↦ (hrun t).2) hidle.reader hidle.extPending
        hidle.extLog hidle.locLog hlen
      refine Copier.moves_of_at (x := fun t ↦ (run ins x t).readCopier) hext hloc (by decide) hlen
        hat (fun t ↦ ?_) (fun t ↦ ?_) (fun _ ↦ rfl) (fun _ ↦ rfl) hidle.reader rfl rfl
        hidle.extLog hidle.locLog
      · rw [NpuDmaFrontend.dmaBusy, DmaEngine.busy_of_idle (hrun t).1, Bool.or_false]
        rfl
      · rw [NpuDmaFrontend.dmaDone, DmaEngine.done_of_idle (hrun t).1, Bool.or_false]
        rfl
  | true =>
      have hrun := writeCopier_run hidle hstart hdir
      have hat := at_run (y := fun t ↦ (run ins x t).writeCopier)
        (fun t ↦ (hrun t).2) hidle.writer hidle.locPending
        hidle.locLog hidle.extLog hlen
      refine Copier.moves_of_at (x := fun t ↦ (run ins x t).writeCopier) hloc hext (by decide) hlen
        hat (fun t ↦ ?_) (fun t ↦ ?_) (fun _ ↦ rfl) (fun _ ↦ rfl) hidle.writer rfl rfl
        hidle.locLog hidle.extLog
      · rw [NpuDmaFrontend.dmaBusy, DmaEngine.busy_of_idle (hrun t).1, Bool.false_or]
        rfl
      · rw [NpuDmaFrontend.dmaDone, DmaEngine.done_of_idle (hrun t).1, Bool.false_or]
        rfl

end Run

/-- Three bytes to the local buffer, from memories that grant and answer at
once. -/
def threeBytes (t : ℕ) : DmaIn where
  cfg := ⟨16, 0x20000, 3, decide (t = 0), false⟩
  ext := ⟨true, true, 0⟩
  loc := ⟨true, true, 0⟩

/-- Out of reset; external byte `a` holds the low byte of `a`. -/
def countingExt : DmaSys where
  front := .reset
  ext := ⟨fun a ↦ a &&& 0xFF, none, []⟩
  loc := ⟨fun _ ↦ 0, none, []⟩

theorem transfer_moves_three : ∃ T, if (threeBytes 0).cfg.dir then
      Copier.Moves (writeJob (threeBytes 0).cfg) countingExt.loc.mem countingExt.ext.mem
        (fun t ↦ (run threeBytes countingExt t).loc) (fun t ↦ (run threeBytes countingExt t).ext)
        (fun t ↦ (run threeBytes countingExt t).front.dmaBusy)
        (fun t ↦ (run threeBytes countingExt t).front.dmaDone) T
    else
      Copier.Moves (readJob (threeBytes 0).cfg) countingExt.ext.mem countingExt.loc.mem
        (fun t ↦ (run threeBytes countingExt t).ext) (fun t ↦ (run threeBytes countingExt t).loc)
        (fun t ↦ (run threeBytes countingExt t).front.dmaBusy)
        (fun t ↦ (run threeBytes countingExt t).front.dmaDone) T :=
  transfer_moves ⟨rfl, rfl, rfl, rfl, rfl, rfl⟩ (fun _ ↦ rfl)
    (Copier.fairDelay_of_all (fun _ ↦ rfl) fun _ ↦ rfl)
    (Copier.fairDelay_of_all (fun _ ↦ rfl) fun _ ↦ rfl) (by decide)

end DmaSys

end LgNpu
