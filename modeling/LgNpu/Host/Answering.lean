import LgNpu.Host.Transaction

/-!
# One descriptor from doorbell to answer

A doorbell rung at rest is answered by a push or by an error pulse, after which
the front end is at rest again.
-/

namespace LgNpu

namespace FrontEnd

/-- A bus cycle that is not for the front end. -/
theorem step_of_elsewhere {m : Mmio} (hr : m.rings = false)
    (hw : (m.writes && m.isCmdQueue) = false) (s : FrontEnd) (rdReady : Bool) :
    s.step m rdReady = s.step .idle rdReady := by
  have hidle : Mmio.idle.rings = false ∧ (Mmio.idle.writes && Mmio.idle.isCmdQueue) = false :=
    ⟨rfl, rfl⟩
  simp only [step, NpuRegBlock.step, hr, hw, hidle, Bool.false_eq_true, if_false]

/-- The descriptor `d` has been rung and not yet answered; nothing is queued. -/
def Answering (d : BitVec 4 → MmioData) (s : FrontEnd) : Prop :=
  ∃ x : Session, x.front = s ∧ x.Inv [] ∧ x.rung = [d] ∧ x.outcomes = [] ∧ x.popped = []

variable {d : BitVec 4 → MmioData} {s : FrontEnd} {m : Mmio}

theorem outcome_of_idle (h : s.decode.state = .idle) : s.outcome = [] := by
  simp [outcome, NpuCmdDecode.cmdValid, NpuCmdDecode.decodeErr, h]

theorem cmdValid_of_decodeErr {s : NpuCmdDecode} (h : s.decodeErr = true) : s.cmdValid = false := by
  simp only [NpuCmdDecode.decodeErr, Bool.and_eq_true] at h
  simp [NpuCmdDecode.cmdValid, h]

theorem rings_elsewhere (h : m.rings = true) :
    (m.writes && m.isCmdQueue) = false ∧ m.addr = regDoorbell := by
  simp only [Mmio.rings, Bool.and_eq_true, beq_iff_eq] at h
  obtain ⟨⟨-, -⟩, haddr⟩ := h
  refine ⟨?_, haddr⟩
  have hq : m.isCmdQueue = false := by
    rw [Mmio.isCmdQueue, haddr]
    rfl
  rw [hq, Bool.and_false]

/-- A doorbell rung at rest is for the words in the window. -/
theorem AtRest.answering (h : s.AtRest) (hq : s.queue.Holds []) (hr : m.rings = true) :
    (s.step m true).Answering s.regs.cmdMem := by
  obtain ⟨hw, haddr⟩ := rings_elsewhere hr
  let x : Session := ⟨s, fun i ↦ some (s.regs.cmdMem i), [], [], []⟩
  have hx := Session.Inv.start h hq
  have hinv : x.Inv [] :=
    ⟨hx.bell, hx.one, fun i d hd ↦ Option.some.inj hd, hx.pending, hx.queue⟩
  have hcareful : x.Careful m := by
    refine ⟨fun _ ↦ ⟨h, fun _ ↦ rfl⟩, fun hwr hc ↦ ?_, fun _ hctrl ↦ ?_⟩
    · rw [hwr, hc] at hw
      exact absurd hw (by decide)
    · rw [haddr] at hctrl
      exact absurd hctrl (by decide)
  refine ⟨x.step m true, rfl, hinv.step hcareful, ?_, ?_, ?_⟩
  · change [] ++ (if m.rings then [x.descriptor] else []) = _
    rw [hr]
    rfl
  · exact outcome_of_idle h.decode
  · change (if s.queue.rdValid && true then [s.queue.rdData] else []) = []
    simp [Fifo.rdValid, hq.empty_iff.mpr rfl]

theorem Answering.queue (h : s.Answering d) : s.queue.Holds [] := by
  obtain ⟨x, rfl, hinv, -, hout, hpop⟩ := h
  obtain ⟨ys, hys, hexp⟩ := hinv.queue
  rw [hout, hpop] at hexp
  have hnil : ys = [] := hexp.symm
  rwa [hnil] at hys

/-- A cycle brings the answer nearer, or it is the answer. -/
theorem Answering.step (h : s.Answering d) :
    ((s.step .idle true).Answering d ∧ s.decode.decodeErr = false ∧
        Link.stepsLeft (s.step .idle true) < Link.stepsLeft s) ∨
      (s.step .idle true).AtRest ∧ s.decode.decodeErr = badOpcode d ∧
        (s.step .idle true).queue.Holds (if badOpcode d then [] else [packCmd d]) := by
  have hempty := h.queue
  obtain ⟨x, rfl, hinv, hrung, hout, hpop⟩ := h
  have hnext : Session.Inv _ (x.step .idle true) := hinv.step (Session.careful_idle x)
  have hrung' : (x.step .idle true).rung = [d] := by
    rw [Session.rung_step true rfl, hrung]
  have hpop' : (x.step .idle true).popped = [] := by
    change x.popped ++ (if x.front.queue.rdValid && true then [x.front.queue.rdData] else []) = []
    simp [hpop, Fifo.rdValid, hempty.empty_iff.mpr rfl]
  have hout' : (x.step .idle true).outcomes = x.front.outcome := by
    change x.outcomes ++ x.front.outcome = _
    rw [hout, List.nil_append]
  have hfull : x.front.queue.full = false := Bool.eq_false_iff.mpr fun hf ↦
    absurd (hempty.full_iff.mp hf) (by decide)
  by_cases hnone : x.front.outcome = []
  · left
    refine ⟨⟨x.step .idle true, rfl, hnext, hrung', hout'.trans hnone, hpop'⟩, ?_, ?_⟩
    · refine Bool.eq_false_iff.mpr fun he ↦ ?_
      simp [outcome, he, cmdValid_of_decodeErr he] at hnone
    · have hdue : x.link.expected ≠ x.link.outcomes := by
        change x.rung.map outcomeOf ≠ x.outcomes
        rw [hrung, hout]
        exact List.cons_ne_nil _ _
      rcases Link.progress .idle true hinv.link hdue with hne | hlt | ⟨hw, -⟩
      · exact absurd hnone hne
      · exact hlt
      · exact absurd (hfull.symm.trans hw.2.2) Bool.false_ne_true
  · right
    obtain ⟨fs, hfs, hexp⟩ := hnext.pending
    obtain ⟨o, os, ho⟩ := List.exists_cons_of_ne_nil hnone
    rw [hrung', hout', ho, List.append_assoc] at hexp
    obtain ⟨rfl, hrest⟩ := List.cons.inj hexp
    obtain ⟨rfl, hholds⟩ := List.append_eq_nil_iff.mp hrest.symm
    obtain ⟨hdec, rfl⟩ := List.append_eq_nil_iff.mp hholds
    refine ⟨⟨?_, ?_, ?_⟩, ?_, ?_⟩
    · cases hfs with
      | idle _ hd => exact hd
    · cases hfs with
      | idle hs _ => exact hs
    · cases hst : (x.step .idle true).front.decode.state with
      | idle => exact hst
      | check => simp [decodeHolds, hst] at hdec
      | valid => simp [decodeHolds, hst] at hdec
    · cases he : x.front.decode.decodeErr with
      | true =>
          rw [outcome, cmdValid_of_decodeErr he, he, outcomeOf] at ho
          cases hb : badOpcode d <;> simp [hb] at ho ⊢
      | false =>
          rw [outcome, he, outcomeOf] at ho
          cases hb : badOpcode d <;> simp [hb] at ho ⊢
          split at ho <;> simp at ho
    · obtain ⟨ys, hys, hqueue⟩ := hnext.queue
      rw [hout', ho, hpop'] at hqueue
      have hys' : ys = if badOpcode d then [] else [packCmd d] := by
        rw [← List.nil_append ys, ← hqueue, outcomeOf]
        cases badOpcode d <;> rfl
      rwa [hys'] at hys

end FrontEnd

end LgNpu
