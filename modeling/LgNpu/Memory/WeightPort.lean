import LgNpu.Memory
import LgNpu.Lib.Clocked

/-!
# Sharing the weight port

The router reads weights and biases through one port of the weight buffer.  A
bias pulse that collides with a weight request is put off by one cycle; a
further pulse in that cycle has nowhere to go.
-/

namespace LgNpu

/-- What reaches the router in each cycle. -/
structure RouterTraffic where
  host : ℕ → HostReq
  be : ℕ → BeReq

namespace RouterTraffic

variable (r : RouterTraffic) (act : BitVec 13 → Byte) (wt : BitVec 12 → Byte)

def run : ℕ → NpuMemTop :=
  Clocked.run (fun t s ↦ s.step (r.host t) (r.be t)) (NpuMemTop.reset act wt)

def rsp (t : ℕ) : BeRsp := (r.run act wt t).beRsp (r.be t)

def bias (t : ℕ) : Bool := (r.be t).biasRdReq

def wtReq (t : ℕ) : Bool := (r.be t).wtRdReq

/-- A weight request is held, with its address, until it is granted. -/
def Held : Prop := ∀ t, r.wtReq t = true → (r.rsp act wt t).wtRdGnt = false →
  r.wtReq (t + 1) = true ∧ (r.be (t + 1)).wtRdAddr = (r.be t).wtRdAddr

/-- The router's own assertion. -/
def Asserted : Prop := ∀ t, r.bias t = true → r.wtReq t = true →
  (r.run act wt t).biasPendingR = false

/-- Every bias pulse of cycle `t` has the response of cycle `due t` to itself,
and every granted weight request that of the next cycle.  A response carries
the contents in the cycle before it. -/
structure Served (due : ℕ → ℕ) : Prop where
  bias_answered : ∀ t, r.bias t = true → t < due t ∧
    (r.rsp act wt (due t)).biasRdRvalid = true ∧
    (r.rsp act wt (due t)).biasRdRdata =
      (r.run act wt (due t - 1)).wt ((r.be t).biasRdAddr.setWidth 12)
  bias_once : ∀ u, (r.rsp act wt u).biasRdRvalid = true → ∃! t, r.bias t = true ∧ due t = u
  wt_answered : ∀ t, (r.rsp act wt t).wtRdGnt = true →
    (r.rsp act wt (t + 1)).wtRdRvalid = true ∧
    (r.rsp act wt (t + 1)).wtRdRdata = (r.run act wt t).wt ((r.be t).wtRdAddr.setWidth 12)
  wt_once : ∀ u, (r.rsp act wt u).wtRdRvalid = true → ∃ t, u = t + 1 ∧
    (r.rsp act wt t).wtRdGnt = true
  wt_granted : ∀ t, r.wtReq t = true → ∃ u, t ≤ u ∧ (r.rsp act wt u).wtRdGnt = true ∧
    (r.be u).wtRdAddr = (r.be t).wtRdAddr

/-- The cycle of the response to a bias pulse: one later when a weight request
takes the port first. -/
def slot (t : ℕ) : ℕ := if r.wtReq t then t + 2 else t + 1

/-- No bias pulse follows at once on one that was put off. -/
def Spaced : Prop := ∀ t, r.bias t = true → r.wtReq t = true → r.bias (t + 1) = false

end RouterTraffic

namespace NpuMemTop

variable (s : NpuMemTop) (h : HostReq) (q : BeReq)

/-! ## One cycle of the shared port -/

theorem wtIssueBias_eq : s.wtIssueBias q = (s.biasPendingR || (q.biasRdReq && !q.wtRdReq)) := rfl

theorem wtRdGnt_beRsp : (s.beRsp q).wtRdGnt = (q.wtRdReq && !s.biasPendingR) := by
  cases hp : s.biasPendingR <;> cases hb : q.biasRdReq <;> cases hw : q.wtRdReq <;>
    simp [beRsp, wtBeReq, wtIssueBias, hp, hb, hw]

theorem biasPending_step :
    (s.step h q).biasPendingR = (q.biasRdReq && q.wtRdReq && !s.biasPendingR) := by
  cases hp : s.biasPendingR <;> cases hb : q.biasRdReq <;> cases hw : q.wtRdReq <;>
    simp [step, wtBeReq, wtIssueBias, hp, hb, hw]

theorem biasAddrPending_step (hnext : (s.step h q).biasPendingR = true) :
    (s.step h q).biasAddrPendingR = q.biasRdAddr.setWidth 12 := by
  rw [biasPending_step, Bool.and_eq_true, Bool.and_eq_true, Bool.not_eq_true'] at hnext
  simp [step, hnext]

theorem biasRdRvalid_step (q' : BeReq) :
    ((s.step h q).beRsp q').biasRdRvalid = s.wtIssueBias q := by
  cases hp : s.biasPendingR <;> cases hb : q.biasRdReq <;> cases hw : q.wtRdReq <;>
    simp [beRsp, step, NpuWeightBuffer.step, wtBeReq, wtIssueBias, hp, hb, hw]

theorem wtRdRvalid_step (q' : BeReq) :
    ((s.step h q).beRsp q').wtRdRvalid = (s.beRsp q).wtRdGnt := by
  cases hp : s.biasPendingR <;> cases hb : q.biasRdReq <;> cases hw : q.wtRdReq <;>
    simp [beRsp, step, NpuWeightBuffer.step, wtBeReq, wtIssueBias, hp, hb, hw]

theorem bRdata_step (hreq : s.wtBeReq q = true) :
    (s.step h q).wtBuf.sram.bRdata = s.wt (s.wtBeAddr q) :=
  if_pos hreq

end NpuMemTop

namespace RouterTraffic

variable {r : RouterTraffic} {act : BitVec 13 → Byte} {wt : BitVec 12 → Byte}

theorem run_succ (t : ℕ) :
    r.run act wt (t + 1) = (r.run act wt t).step (r.host t) (r.be t) := rfl

/-- A bias read is pending just when the last cycle put one off. -/
theorem Asserted.pending_succ (ha : r.Asserted act wt) (t : ℕ) :
    (r.run act wt (t + 1)).biasPendingR = (r.bias t && r.wtReq t) := by
  have hfree := ha t
  rw [run_succ, NpuMemTop.biasPending_step]
  cases hb : (r.be t).biasRdReq <;> cases hw : (r.be t).wtRdReq <;> simp_all [bias, wtReq]

theorem biasRdRvalid_succ (t : ℕ) : (r.rsp act wt (t + 1)).biasRdRvalid =
    ((r.run act wt t).biasPendingR || (r.bias t && !r.wtReq t)) :=
  NpuMemTop.biasRdRvalid_step _ _ _ _

theorem wtRdGnt_eq (t : ℕ) :
    (r.rsp act wt t).wtRdGnt = (r.wtReq t && !(r.run act wt t).biasPendingR) :=
  NpuMemTop.wtRdGnt_beRsp _ _

/-- A bias pulse that meets no weight request is issued at once, or lost when
another is pending. -/
theorem rdata_of_issued {t : ℕ} (hb : r.bias t = true) (hw : r.wtReq t = false)
    (hp : (r.run act wt t).biasPendingR = false) : (r.rsp act wt (t + 1)).biasRdRdata =
      (r.run act wt t).wt ((r.be t).biasRdAddr.setWidth 12) := by
  have hissue : (r.run act wt t).wtIssueBias (r.be t) = true := by
    rw [NpuMemTop.wtIssueBias_eq, hp, show (r.be t).biasRdReq = true from hb,
      show (r.be t).wtRdReq = false from hw]
    rfl
  have hreq : (r.run act wt t).wtBeReq (r.be t) = true := by simp [NpuMemTop.wtBeReq, hissue]
  have haddr : (r.run act wt t).wtBeAddr (r.be t) = (r.be t).biasRdAddr.setWidth 12 := by
    simp [NpuMemTop.wtBeAddr, hissue, hp]
  exact haddr ▸ NpuMemTop.bRdata_step _ (r.host t) _ hreq

theorem rdata_of_pending {t : ℕ} (hp : (r.run act wt (t + 1)).biasPendingR = true) :
    (r.rsp act wt (t + 2)).biasRdRdata =
      (r.run act wt (t + 1)).wt ((r.be t).biasRdAddr.setWidth 12) := by
  have hissue : (r.run act wt (t + 1)).wtIssueBias (r.be (t + 1)) = true := by
    rw [NpuMemTop.wtIssueBias_eq, hp, Bool.true_or]
  have hreq : (r.run act wt (t + 1)).wtBeReq (r.be (t + 1)) = true := by
    simp [NpuMemTop.wtBeReq, hissue]
  have haddr : (r.run act wt (t + 1)).wtBeAddr (r.be (t + 1)) =
      (r.be t).biasRdAddr.setWidth 12 := by
    rw [NpuMemTop.wtBeAddr, hissue, if_pos rfl, hp, if_pos rfl]
    exact NpuMemTop.biasAddrPending_step _ _ _ hp
  exact haddr ▸ NpuMemTop.bRdata_step _ (r.host (t + 1)) _ hreq

theorem rdata_of_granted {t : ℕ} (hg : (r.rsp act wt t).wtRdGnt = true) :
    (r.rsp act wt (t + 1)).wtRdRdata =
      (r.run act wt t).wt ((r.be t).wtRdAddr.setWidth 12) := by
  rw [wtRdGnt_eq, Bool.and_eq_true, Bool.not_eq_true'] at hg
  have hw : (r.be t).wtRdReq = true := hg.1
  have hissue : (r.run act wt t).wtIssueBias (r.be t) = false := by
    simp [NpuMemTop.wtIssueBias, hg.2, hw]
  have hreq : (r.run act wt t).wtBeReq (r.be t) = true := by simp [NpuMemTop.wtBeReq, hw]
  have haddr : (r.run act wt t).wtBeAddr (r.be t) = (r.be t).wtRdAddr.setWidth 12 := by
    simp [NpuMemTop.wtBeAddr, hissue]
  exact haddr ▸ NpuMemTop.bRdata_step _ (r.host t) _ hreq

/-! ## Whole runs -/

section

variable (hheld : r.Held act wt) (ha : r.Asserted act wt)
include ha

theorem Spaced.free (hs : r.Spaced) {t : ℕ} (hb : r.bias t = true) :
    (r.run act wt t).biasPendingR = false := by
  cases t with
  | zero => rfl
  | succ t =>
      rw [ha.pending_succ, Bool.and_eq_false_iff]
      by_contra hboth
      simp only [not_or, Bool.not_eq_false] at hboth
      rw [hs t hboth.1 hboth.2] at hb
      exact Bool.false_ne_true hb

theorem Spaced.bias_answered (hs : r.Spaced) {t : ℕ} (hb : r.bias t = true) :
    (r.rsp act wt (r.slot t)).biasRdRvalid = true ∧
    (r.rsp act wt (r.slot t)).biasRdRdata =
      (r.run act wt (r.slot t - 1)).wt ((r.be t).biasRdAddr.setWidth 12) := by
  cases hw : r.wtReq t with
  | false =>
      rw [slot, hw, if_neg Bool.false_ne_true]
      refine ⟨?_, rdata_of_issued hb hw (hs.free ha hb)⟩
      rw [biasRdRvalid_succ, hb, hw]
      exact Bool.or_true _
  | true =>
      have hp : (r.run act wt (t + 1)).biasPendingR = true := by
        rw [ha.pending_succ, hb, hw]
        rfl
      rw [slot, hw, if_pos rfl]
      refine ⟨?_, rdata_of_pending hp⟩
      rw [biasRdRvalid_succ, hp, Bool.true_or]

theorem Spaced.bias_once (hs : r.Spaced) {u : ℕ}
    (hu : (r.rsp act wt u).biasRdRvalid = true) : ∃! t, r.bias t = true ∧ r.slot t = u := by
  obtain _ | v := u
  · exact absurd hu Bool.false_ne_true
  rw [biasRdRvalid_succ, Bool.or_eq_true, Bool.and_eq_true, Bool.not_eq_true'] at hu
  have hslot : ∀ t, r.slot t = v + 1 →
      r.wtReq t = true ∧ t + 1 = v ∨ r.wtReq t = false ∧ t = v := by
    intro t ht
    rw [slot] at ht
    cases hw : r.wtReq t
    · rw [hw, if_neg Bool.false_ne_true] at ht
      exact Or.inr ⟨rfl, by omega⟩
    · rw [hw, if_pos rfl] at ht
      exact Or.inl ⟨rfl, by omega⟩
  rcases hu with hp | ⟨hb, hw⟩
  · obtain _ | w := v
    · exact absurd hp Bool.false_ne_true
    have hpend := hp
    rw [ha.pending_succ, Bool.and_eq_true] at hp
    refine ⟨w, ⟨hp.1, by rw [slot, hp.2, if_pos rfl]⟩, ?_⟩
    rintro t ⟨hb, ht⟩
    rcases hslot t ht with ⟨-, hv⟩ | ⟨-, rfl⟩
    · omega
    · rw [hs w hp.1 hp.2] at hb
      exact absurd hb Bool.false_ne_true
  · refine ⟨v, ⟨hb, by rw [slot, hw, if_neg Bool.false_ne_true]⟩, ?_⟩
    rintro t ⟨hbt, ht⟩
    rcases hslot t ht with ⟨hwt, rfl⟩ | ⟨-, hv⟩
    · rw [hs t hbt hwt] at hb
      exact absurd hb Bool.false_ne_true
    · exact hv

include hheld in
/-- A weight request waits for one pending bias read at most. -/
theorem Held.granted {t : ℕ} (hw : r.wtReq t = true) : ∃ u, t ≤ u ∧
    (r.rsp act wt u).wtRdGnt = true ∧ (r.be u).wtRdAddr = (r.be t).wtRdAddr := by
  cases hg : (r.rsp act wt t).wtRdGnt with
  | true => exact ⟨t, le_rfl, hg, rfl⟩
  | false =>
      obtain ⟨hnext, haddr⟩ := hheld t hw hg
      have hp : (r.run act wt t).biasPendingR = true := by
        rw [wtRdGnt_eq, hw] at hg
        simpa using hg
      have hb : r.bias t = false := by
        by_contra hb
        rw [ha t (Bool.eq_true_of_not_eq_false hb) hw] at hp
        exact Bool.false_ne_true hp
      refine ⟨t + 1, Nat.le_succ t, ?_, haddr⟩
      rw [wtRdGnt_eq, hnext, ha.pending_succ, hb]
      rfl

include hheld in
theorem Spaced.served (hs : r.Spaced) : r.Served act wt r.slot where
  bias_answered t hb := ⟨by rw [slot]; split <;> omega, hs.bias_answered ha hb⟩
  bias_once _ hu := hs.bias_once ha hu
  wt_answered t hg := ⟨(NpuMemTop.wtRdRvalid_step _ _ _ _).trans hg, rdata_of_granted hg⟩
  wt_once u hu := by
    obtain _ | t := u
    · exact absurd hu Bool.false_ne_true
    · exact ⟨t, rfl, (NpuMemTop.wtRdRvalid_step _ _ _ _).symm.trans hu⟩
  wt_granted _ hw := Held.granted hheld ha hw

omit ha in
/-- Two pulses that fall into one slot cannot both be answered there. -/
theorem Served.spaced (ha : r.Asserted act wt) (h : r.Served act wt r.slot) : r.Spaced := by
  intro t hb hw
  by_contra hnext
  have hb' : r.bias (t + 1) = true := Bool.eq_true_of_not_eq_false hnext
  have hp : (r.run act wt (t + 1)).biasPendingR = true := by
    rw [ha.pending_succ, hb, hw]
    rfl
  have hw' : r.wtReq (t + 1) = false := by
    by_contra hw'
    rw [ha (t + 1) hb' (Bool.eq_true_of_not_eq_false hw')] at hp
    exact Bool.false_ne_true hp
  have hslot : r.slot t = t + 2 := by rw [slot, hw, if_pos rfl]
  have hslot' : r.slot (t + 1) = t + 2 := by rw [slot, hw', if_neg Bool.false_ne_true]
  have hvalid := (h.bias_answered t hb).2.1
  rw [hslot] at hvalid
  have hsame := (h.bias_once (t + 2) hvalid).unique ⟨hb, hslot⟩ ⟨hb', hslot'⟩
  omega

end

/-- Each bias pulse is answered in its slot and each weight request in the
cycle after its grant, nothing being lost, if and only if no bias pulse follows
at once on one that was put off. -/
theorem served_iff (r : RouterTraffic) (act : BitVec 13 → Byte) (wt : BitVec 12 → Byte)
    (hheld : r.Held act wt) (ha : r.Asserted act wt) : r.Served act wt r.slot ↔ r.Spaced :=
  ⟨Served.spaced ha, Spaced.served hheld ha⟩

/-! ## A lost pulse -/

/-- A weight request in cycle 0 and `n` bias pulses from then on. -/
def pulses (n : ℕ) : RouterTraffic where
  host _ := .idle
  be t := ⟨0, false, 3, t = 0, 0, 0, false, if t = 0 then 8 else 9, t < n⟩

theorem pulses_held (n : ℕ) (act : BitVec 13 → Byte) (wt : BitVec 12 → Byte) :
    (pulses n).Held act wt := by
  intro t hw hg
  obtain rfl : t = 0 := of_decide_eq_true hw
  rw [wtRdGnt_eq] at hg
  exact absurd hg.symm Bool.false_ne_true

theorem pulses_asserted (n : ℕ) (act : BitVec 13 → Byte) (wt : BitVec 12 → Byte) :
    (pulses n).Asserted act wt := by
  intro t _ hw
  obtain rfl : t = 0 := of_decide_eq_true hw
  rfl

theorem onePulse_served :
    (pulses 1).Served (fun _ ↦ 0) (fun a ↦ a.setWidth 8) (pulses 1).slot := by
  refine (served_iff _ _ _ (pulses_held 1 _ _) (pulses_asserted 1 _ _)).mpr fun t _ hw ↦ ?_
  obtain rfl : t = 0 := of_decide_eq_true hw
  rfl

/-- Two pulses keep to the router's assertion, and no assignment of responses
serves both. -/
theorem twoPulses_not_served :
    (pulses 2).Held (fun _ ↦ 0) (fun _ ↦ 0) ∧ (pulses 2).Asserted (fun _ ↦ 0) (fun _ ↦ 0) ∧
      ¬ ∃ due, (pulses 2).Served (fun _ ↦ 0) (fun _ ↦ 0) due := by
  have ha := pulses_asserted 2 (fun _ ↦ 0) (fun _ ↦ 0)
  refine ⟨pulses_held 2 _ _, ha, ?_⟩
  rintro ⟨due, h⟩
  have hat : ∀ t, (pulses 2).bias t = true → due t = 2 := by
    intro t hb
    have hvalid := (h.bias_answered t hb).2.1
    have hlt := (h.bias_answered t hb).1
    obtain ⟨v, hv⟩ : ∃ v, due t = v + 1 := ⟨due t - 1, by omega⟩
    rw [hv] at hvalid ⊢
    rw [biasRdRvalid_succ, Bool.or_eq_true] at hvalid
    rcases hvalid with hp | hnow
    · obtain _ | w := v
      · exact absurd hp Bool.false_ne_true
      rw [ha.pending_succ, Bool.and_eq_true] at hp
      have hw : w = 0 := of_decide_eq_true hp.2
      omega
    · have hboth : decide (v < 2) = true ∧ decide (v = 0) = false := by
        simpa [bias, wtReq, pulses] using hnow
      have hlt2 := of_decide_eq_true hboth.1
      have hne := of_decide_eq_false hboth.2
      omega
  have hvalid := (h.bias_answered 0 rfl).2.1
  rw [hat 0 rfl] at hvalid
  have hsame := (h.bias_once 2 hvalid).unique ⟨rfl, hat 0 rfl⟩ ⟨rfl, hat 1 rfl⟩
  omega

end RouterTraffic

end LgNpu
