import LgNpu.Device.Calls

/-!
# A host that waits

Legal calls can always be made: a host that makes the accesses of a call one
after the other, waits for the answer and nine more cycles and goes on with the
next call is patient.
-/

namespace LgNpu

open Copier Clocked

namespace Call

variable (c : Call)

/-- The accesses of a call, cycle by cycle, beside a prompt external memory. -/
def issue (t : ℕ) : MachineIn := ⟨(c.writes[t]?).getD .idle, ⟨true, true, 0⟩, 0, 0, 0⟩

/-- The last access of a call is its request. -/
theorem exists_request : ∃ l r, c.writes = l ++ [r] ∧ NpuShell.noSoftReset r ∧
    ∀ m ∈ l, NpuShell.noSoftReset m ∧ m.rings = false ∧ m.startsDma = false := by
  cases c with
  | dma d =>
      refine ⟨_, _, (rfl : _ = (dmaProgram d.extAddr d.locAddr d.len d.ctl).take 3 ++ [_]),
        fun h ↦ absurd h Bool.false_ne_true, fun m hm ↦ ?_⟩
      simp only [dmaProgram, List.take_succ_cons, List.take_zero, List.mem_cons, List.not_mem_nil,
        or_false] at hm
      rcases hm with rfl | rfl | rfl <;>
        exact ⟨fun h ↦ absurd h Bool.false_ne_true, rfl, rfl⟩
  | submit words =>
      refine ⟨_, _, rfl, fun h ↦ absurd h Bool.false_ne_true, fun m hm ↦ ?_⟩
      have hreg := Mmio.not_isReg_of_loads (NpuTb.loads_submitWords words m hm)
      exact ⟨Mmio.noSoftReset_of_not_isReg hreg, Mmio.rings_of_not_isReg hreg,
        Mmio.startsDma_of_not_isReg hreg⟩

theorem alters_of_mem : ∀ m ∈ c.writes, m.alters = true := by
  cases c with
  | dma d =>
      intro m hm
      simp only [writes, dmaProgram, List.mem_cons, List.not_mem_nil, or_false] at hm
      rcases hm with rfl | rfl | rfl | rfl <;> rfl
  | submit words =>
      intro m hm
      rw [writes, List.mem_append, List.mem_singleton] at hm
      rcases hm with hm | rfl
      · rw [Mmio.alters, NpuTb.loads_submitWords words m hm]
        rfl
      · rfl

theorem accesses_issue (n : ℕ) : accesses (fun t ↦ (c.issue t).host) n = c.writes.take n := by
  induction n with
  | zero => rfl
  | succ n ih =>
      rw [accesses_succ, ih, List.take_add_one]
      congr 1
      cases hm : c.writes[n]? with
      | none => simp [issue, hm, Mmio.idle]
      | some m =>
          have halters := c.alters_of_mem m (List.mem_of_getElem? hm)
          have hvalid : m.valid = true := by
            by_contra hv
            rw [Mmio.not_alters_of_invalid (Bool.eq_false_iff.mpr hv)] at halters
            exact Bool.false_ne_true halters
          simp [issue, hm, hvalid]

theorem filter_accesses_issue (n : ℕ) :
    (accesses (fun t ↦ (c.issue t).host) n).filter Mmio.alters = c.writes.take n := by
  rw [accesses_issue, List.filter_eq_self]
  exact fun m hm ↦ c.alters_of_mem m (List.mem_of_mem_take hm)

theorem issue_idle {t : ℕ} (h : c.writes.length ≤ t) : (c.issue t).host = .idle := by
  rw [issue, List.getElem?_eq_none h]
  rfl

variable {c}

theorem issue_of_lt {l : List Mmio} {r : Mmio} {t : ℕ} (hl : c.writes = l ++ [r])
    (ht : t < l.length) : (c.issue t).host = l[t] := by
  simp [issue, hl, List.getElem?_append_left ht, ht]

theorem issue_last {l : List Mmio} {r : Mmio} (hl : c.writes = l ++ [r]) :
    (c.issue l.length).host = r := by simp [issue, hl]

end Call

namespace Machine

variable {x : Machine} {a : IdealMachine} {c : Call}

theorem Rest.patient {i : MachineIn} (h : x.Rest a) (hq : 9 ≤ x.hw.quiet)
    (hm : NpuShell.noSoftReset i.host) : Patient i x a :=
  ⟨hm, fun _ ↦ h.hw.events, fun _ ↦ ⟨h.hw.events, hq⟩, fun _ ↦ ⟨h.hw.events, hq⟩,
    fun _ ↦ ⟨h.hw.events, hq⟩⟩

section Issue

variable (hx : x.Rest a) (hq : 9 ≤ x.hw.quiet)
include hx hq

/-- Before its request a call finds the pair at rest. -/
theorem rest_before {l : List Mmio} {r : Mmio} (hl : c.writes = l ++ [r])
    (hquiet : ∀ m ∈ l, NpuShell.noSoftReset m ∧ m.rings = false ∧ m.startsDma = false) {t : ℕ}
    (ht : t ≤ l.length) : (x.run c.issue t).Rest (a.run (fun t ↦ (c.issue t).host) t) ∧
      9 ≤ (x.run c.issue t).hw.quiet := by
  have hstays := @Rest.stays x a c.issue 0 t hx fun i hi ↦ by
    have hlt : i < l.length := hi.trans_le ht
    rw [Nat.zero_add, Call.issue_of_lt hl hlt]
    exact hquiet l[i] (List.getElem_mem hlt)
  rw [Nat.zero_add] at hstays
  exact ⟨hstays.1, hstays.2.symm ▸ Nat.le_add_right_of_le hq⟩

theorem patient_issue (t : ℕ) :
    Patient (c.issue t) (x.run c.issue t) (a.run (fun t ↦ (c.issue t).host) t) := by
  obtain ⟨l, r, hl, hreset, hquiet⟩ := c.exists_request
  rcases Nat.lt_or_ge l.length t with ht | ht
  · have hidle : (c.issue t).host = .idle := c.issue_idle (by simpa [hl] using ht)
    exact (Polite.of_mild (hidle ▸ Mmio.mild_idle)).patient
  · obtain ⟨hrest, hcalm⟩ := rest_before hx hq hl hquiet ht
    refine hrest.patient hcalm ?_
    rcases Nat.lt_or_eq_of_le ht with hlt | rfl
    · rw [Call.issue_of_lt hl hlt]
      exact (hquiet _ (List.getElem_mem hlt)).1
    · rw [Call.issue_last hl]
      exact hreset

/-- Some time after a legal call the pair is at rest again, and has been for
nine cycles. -/
theorem exists_rest (hlegal : c.Legal a.memories) : ∃ u, c.writes.length ≤ u ∧
    (x.run c.issue u).Rest (a.run (fun t ↦ (c.issue t).host) u) ∧
      9 ≤ (x.run c.issue u).hw.quiet := by
  have hprefix : ∀ n, (accesses (fun t ↦ (c.issue t).host) n).filter Mmio.alters <+:
      [c].flatMap Call.writes := by
    intro n
    rw [c.filter_accesses_issue, List.flatMap_singleton]
    exact List.take_prefix _ _
  have hok := obliged_of_calls hprefix ⟨hlegal, trivial⟩ (patient_issue hx hq)
  obtain ⟨u, hu, hrest⟩ :=
    returns hx hok (fairDelay_of_all (fun _ ↦ rfl) fun _ ↦ rfl) c.writes.length
  have hstays := @Rest.stays x a c.issue u 9 hrest fun i _ ↦ by
    rw [c.issue_idle (hu.trans (Nat.le_add_right u i))]
    exact ⟨Mmio.mild_idle.noReset, rfl, rfl⟩
  exact ⟨u + 9, Nat.le_add_right_of_le hu, hstays.1, hstays.2.symm ▸ Nat.le_add_left 9 _⟩

end Issue

/-- Patience with the first half and with the second is patience. -/
theorem patient_splice {u : ℕ} {f g : ℕ → MachineIn}
    (hf : ∀ t, Patient (f t) (x.run f t) (a.run (fun t ↦ (f t).host) t))
    (hg : ∀ t, Patient (g t) ((x.run f u).run g t)
      ((a.run (fun t ↦ (f t).host) u).run (fun t ↦ (g t).host) t)) (t : ℕ) :
    Patient (splice u f g t) (x.run (splice u f g) t)
      (a.run (fun t ↦ (splice u f g t).host) t) := by
  rcases Nat.lt_or_ge t u with ht | ht
  · have hrun : x.run (splice u f g) t = x.run f t := run_splice ht.le
    have hideal : a.run (fun t ↦ (splice u f g t).host) t = a.run (fun t ↦ (f t).host) t :=
      @run_splice _ _ u t f g (fun i ↦ IdealMachine.step i.host) a ht.le
    rw [hrun, hideal, splice_of_lt ht]
    exact hf t
  · obtain ⟨k, rfl⟩ := Nat.exists_eq_add_of_le ht
    have hrun : x.run (splice u f g) (u + k) = (x.run f u).run g k := run_splice_add
    have hideal : a.run (fun t ↦ (splice u f g t).host) (u + k) =
        (a.run (fun t ↦ (f t).host) u).run (fun t ↦ (g t).host) k :=
      @run_splice_add _ _ u k f g (fun i ↦ IdealMachine.step i.host) a
    rw [hrun, hideal, splice_add]
    exact hg k

theorem accesses_splice {u t : ℕ} {f g : ℕ → MachineIn} :
    accesses (fun t ↦ (splice u f g t).host) (u + t) =
      accesses (fun t ↦ (f t).host) u ++ accesses (fun t ↦ (g t).host) t := by
  induction t with
  | zero =>
      rw [Nat.add_zero, accesses, List.append_nil]
      exact accesses_congr fun _ hlt ↦ congrArg MachineIn.host (splice_of_lt hlt).symm
  | succ t ih =>
      rw [← Nat.add_assoc, accesses_succ, ih, splice_add, accesses_succ, List.append_assoc]

/-- One call after the other. -/
theorem exists_makes {cs : List Call} (hx : x.Rest a) (hq : 9 ≤ x.hw.quiet)
    (hlegal : Call.AllLegal a.memories cs) :
    ∃ ins n, (∀ t, (ins t).ext = ⟨true, true, 0⟩) ∧ Makes cs ins n x a := by
  induction cs generalizing x a with
  | nil =>
      refine ⟨fun _ ↦ ⟨.idle, ⟨true, true, 0⟩, 0, 0, 0⟩, 0, fun _ ↦ rfl, fun _ ↦ ?_,
        fairDelay_of_all (fun _ ↦ rfl) fun _ ↦ rfl, rfl, fun _ _ ↦ rfl⟩
      exact (Polite.of_mild Mmio.mild_idle).patient
  | cons c cs ih =>
      obtain ⟨u, hu, hrest, hcalm⟩ := exists_rest hx hq hlegal.1
      have hmem : (a.run (fun t ↦ (c.issue t).host) u).memories = c.effect a.memories := by
        have hheld := congrArg IdealMachine.memories
          (@IdealMachine.held_run a (fun t ↦ (c.issue t).host) u)
        rw [c.filter_accesses_issue, List.take_of_length_le hu] at hheld
        exact hheld.trans (IdealMachine.memories_after_writes c)
      obtain ⟨ins, n, hprompt, hmakes⟩ := ih hrest hcalm (hmem ▸ hlegal.2)
      have hsplice : ∀ t, (splice u c.issue ins t).ext = ⟨true, true, 0⟩ := by
        intro t
        rw [splice]
        split
        · rfl
        · exact hprompt _
      refine ⟨splice u c.issue ins, u + n, hsplice,
        patient_splice (patient_issue hx hq) hmakes.patient, ?_, ?_, fun t ht ↦ ?_⟩
      · exact fairDelay_of_all (fun t ↦ by rw [hsplice]) fun t ↦ by rw [hsplice]
      · rw [accesses_splice, List.filter_append, hmakes.calls, c.filter_accesses_issue,
          List.take_of_length_le hu, List.flatMap_cons]
      · obtain ⟨k, rfl⟩ := Nat.exists_eq_add_of_le ht
        rw [Nat.add_assoc, splice_add]
        exact hmakes.later _ (Nat.le_add_right _ _)

end Machine

end LgNpu
