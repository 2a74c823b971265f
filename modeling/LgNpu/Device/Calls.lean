import LgNpu.Device.Offload
import LgNpu.Dma.Driver
import LgNpu.Tb.Programs

/-!
# Calls of the driver

A transfer is four register writes and a submission sixteen words and a
doorbell.  Whatever else a patient host does with the registers, a sequence of
calls leaves in the two memories what the calls do one after the other.
-/

namespace LgNpu

open NpuCore Copier

/-! ## Accesses that matter -/

namespace Mmio

variable (m : Mmio)

/-- A write to a buffer, to the window, to the doorbell or to a register of the
DMA. -/
def alters : Bool := m.loads || m.rings || m.writesReg regDmaExtAddr || m.writesReg regDmaLocAddr ||
  m.writesReg regDmaLen || m.writesReg regDmaCtrl

variable {m}

theorem alters_eq_false_iff : m.alters = false ↔ m.loads = false ∧ m.rings = false ∧
    m.writesReg regDmaExtAddr = false ∧ m.writesReg regDmaLocAddr = false ∧
      m.writesReg regDmaLen = false ∧ m.writesReg regDmaCtrl = false := by
  simp only [alters, Bool.or_eq_false_iff, and_assoc]

theorem startsDma_of_not_alters (h : m.alters = false) : m.startsDma = false := by
  obtain ⟨-, -, -, -, -, hctrl⟩ := alters_eq_false_iff.mp h
  rw [startsDma, hctrl, Bool.false_and]

theorem not_alters_of_invalid (h : m.valid = false) : m.alters = false := by
  simp [alters, loads, rings, writesReg, writes, h]

end Mmio

namespace IdealMachine

/-- The ideal pair after the accesses of a program. -/
def after (a : IdealMachine) (ms : List Mmio) : IdealMachine := ms.foldl (fun a m ↦ a.step m) a

/-- What lasts of a cycle. -/
def held (a : IdealMachine) : IdealMachine := { a with cfg := a.cfg.held }

variable {a : IdealMachine} {m : Mmio} {ms : List Mmio}

theorem after_append (ms' : List Mmio) : a.after (ms ++ ms') = (a.after ms).after ms' := by
  rw [after, List.foldl_append]
  rfl

theorem after_concat : a.after (ms ++ [m]) = (a.after ms).step m := after_append [m]

theorem step_held : a.held.step m = a.step m := rfl

theorem held_toIdeal : a.held.toIdeal = a.toIdeal := rfl

theorem cfg_after_held : a.held.cfg.after m = a.cfg.after m := rfl

theorem step_of_not_alters (h : m.alters = false) : a.step m = a.held := by
  have hd := Mmio.startsDma_of_not_alters h
  obtain ⟨hloads, hr, hext, hloc, hlen, hctrl⟩ := Mmio.alters_eq_false_iff.mp h
  have hcfg : a.cfg.after m = a.cfg.held := by
    simp [DmaCfg.after, DmaCfg.held, hext, hloc, hlen, hctrl]
  have hideal : a.toIdeal.step m = a.toIdeal := by
    cases hw : m.writes with
    | false => simp [Ideal.step, hr, hw]
    | true =>
        simp only [Mmio.loads, hw, Bool.true_and, Bool.or_eq_false_iff] at hloads
        have hnone : locate m.addr = none := by
          have hbuf := hloads.1
          rw [NpuShell.isBuf_eq] at hbuf
          exact Option.not_isSome_iff_eq_none.mp (by simp [hbuf])
        simp [Ideal.step, hr, hw, hloads.2, hnone]
  rw [step_of_not_starts hd, hideal, hcfg]
  rfl

/-- Only the accesses that matter matter. -/
theorem held_run {host : ℕ → Mmio} (n : ℕ) : (a.run host n).held =
    (a.after ((accesses host n).filter Mmio.alters)).held := by
  induction n with
  | zero => rfl
  | succ n ih =>
      change ((a.run host n).step (host n)).held = _
      rw [← step_held, ih, step_held, accesses_succ, List.filter_append, after_append]
      cases hv : (host n).valid with
      | false =>
          rw [step_of_not_alters (Mmio.not_alters_of_invalid hv)]
          rfl
      | true =>
          cases hm : (host n).alters with
          | false =>
              rw [step_of_not_alters hm, if_pos rfl, List.filter_cons_of_neg (by simp [hm])]
              rfl
          | true =>
              rw [if_pos rfl, List.filter_cons_of_pos hm]
              rfl

end IdealMachine

/-! ## Calls -/

/-- The buffers and the external memory. -/
abbrev Memories := Sram × (BitVec 32 → MmioData)

def IdealMachine.memories (a : IdealMachine) : Memories := (a.sram, a.ext)

/-- The transfer that the registers hold after a request. -/
def LgnpuIoctlDma.cfg (d : LgnpuIoctlDma) : DmaCfg :=
  ⟨d.extAddr, d.locAddr.setWidth 20, d.len.setWidth 16, true, d.fromDevice⟩

/-- A call of `lgnpu_dma_transfer` or `lgnpu_cmd_submit`. -/
inductive Call
  | dma (d : LgnpuIoctlDma)
  | submit (words : NpuCmdDesc)

namespace Call

/-- The accesses of a call that matter. -/
def writes : Call → List Mmio
  | dma d => dmaProgram d.extAddr d.locAddr d.len d.ctl
  | submit words => NpuTb.submitWords words ++ [.write regDoorbell 1]

def effect (s : Memories) : Call → Memories
  | dma d => d.cfg.copy s.1 s.2
  | submit words => (s.1.exec words, s.2)

def Legal (s : Memories) : Call → Prop
  | dma d => d.cfg.Proper
  | submit words => s.1.Servable words

/-- Each call is legal after those before it. -/
def AllLegal (s : Memories) : List Call → Prop
  | [] => True
  | c :: cs => c.Legal s ∧ AllLegal (c.effect s) cs

theorem AllLegal.append {s : Memories} {cs cs' : List Call} (h : AllLegal s (cs ++ cs')) :
    AllLegal (cs.foldl effect s) cs' := by
  induction cs generalizing s with
  | nil => exact h
  | cons c cs ih => exact ih h.2

end Call

namespace IdealMachine

variable {a : IdealMachine}

theorem after_of_not_starts {ms : List Mmio} (h : ∀ m ∈ ms, m.startsDma = false) :
    (a.after ms).toIdeal = a.toIdeal.after ms ∧ (a.after ms).ext = a.ext := by
  induction ms generalizing a with
  | nil => exact ⟨rfl, rfl⟩
  | cons m ms ih =>
      have hm := h m List.mem_cons_self
      obtain ⟨hideal, hext⟩ := @ih (a.step m) fun m' hm' ↦ h m' (List.mem_cons_of_mem _ hm')
      rw [toIdeal_step hm] at hideal
      exact ⟨hideal, hext.trans (ext_step hm)⟩

theorem cfg_after (ms : List Mmio) : (a.after ms).cfg = ms.foldl DmaCfg.after a.cfg := by
  induction ms generalizing a with
  | nil => rfl
  | cons m ms ih =>
      change ((a.step m).after ms).cfg = _
      rw [ih, cfg_step]
      rfl

/-- Before the doorbell the words are in the window. -/
theorem after_submitWords (words : NpuCmdDesc) :
    (a.after (NpuTb.submitWords words)).toIdeal = { a.toIdeal with window := words } ∧
      (a.after (NpuTb.submitWords words)).ext = a.ext := by
  have hno : ∀ m ∈ NpuTb.submitWords words, m.startsDma = false := fun m hm ↦
    Mmio.startsDma_of_not_isReg (Mmio.not_isReg_of_loads (NpuTb.loads_submitWords words m hm))
  obtain ⟨hideal, hext⟩ := @after_of_not_starts a _ hno
  exact ⟨hideal.trans (Ideal.after_submitWords words), hext⟩

/-- Before the start three registers are set. -/
theorem after_dmaProgram (d : LgnpuIoctlDma) :
    (a.after ((dmaProgram d.extAddr d.locAddr d.len d.ctl).take 3)).toIdeal = a.toIdeal ∧
      (a.after ((dmaProgram d.extAddr d.locAddr d.len d.ctl).take 3)).ext = a.ext ∧
      (a.after ((dmaProgram d.extAddr d.locAddr d.len d.ctl).take 3)).cfg.after
        (.write regDmaCtrl d.ctl) = d.cfg := by
  refine ⟨rfl, rfl, ?_⟩
  have hstart := d.ctl_start
  have hdir : d.ctl[1] = d.fromDevice := d.ctl_dir
  simp [cfg_after, dmaProgram, DmaCfg.after, LgnpuIoctlDma.cfg, Mmio.writesReg, Mmio.writes,
    Mmio.isReg, Mmio.write, regDmaExtAddr, regDmaLocAddr, regDmaLen, regDmaCtrl, cmdQueueBase,
    hstart, hdir]

theorem memories_after_writes (c : Call) : (a.after c.writes).memories = c.effect a.memories := by
  cases c with
  | dma d =>
      obtain ⟨hideal, hext, hcfg⟩ := @after_dmaProgram a d
      have hsram := congrArg Ideal.sram hideal
      have hsplit : dmaProgram d.extAddr d.locAddr d.len d.ctl =
          (dmaProgram d.extAddr d.locAddr d.len d.ctl).take 3 ++ [.write regDmaCtrl d.ctl] := rfl
      have hstarts : (Mmio.write regDmaCtrl d.ctl).startsDma = true := d.ctl_start
      rw [Call.writes, hsplit, after_concat, step_of_starts hstarts, hcfg, hext, hsram]
      rfl
  | submit words =>
      obtain ⟨hideal, hext⟩ := @after_submitWords a words
      have hno : (Mmio.write regDoorbell 1).startsDma = false := by decide
      have hrings : (Mmio.write regDoorbell 1).rings = true := by decide
      rw [Call.writes, after_concat, step_of_not_starts hno, hideal, hext,
        Ideal.step_of_rings hrings]
      rfl

theorem memories_after_calls (cs : List Call) :
    (a.after (cs.flatMap Call.writes)).memories = cs.foldl Call.effect a.memories := by
  induction cs generalizing a with
  | nil => rfl
  | cons c cs ih =>
      rw [List.flatMap_cons, after_append, ih, memories_after_writes, List.foldl_cons]

end IdealMachine

/-! ## A patient host -/

/-- An access in the middle of a sequence of programs is in one of them. -/
theorem exists_of_prefix_flatMap {α β : Type*} {f : α → List β} {cs : List α} {l : List β} {m : β}
    (h : l ++ [m] <+: cs.flatMap f) :
    ∃ cs' c cs'' l', cs = cs' ++ c :: cs'' ∧ l = cs'.flatMap f ++ l' ∧ l' ++ [m] <+: f c := by
  induction cs generalizing l with
  | nil => simp at h
  | cons c cs ih =>
      rw [List.flatMap_cons] at h
      rcases List.prefix_or_prefix_of_prefix h (List.prefix_append _ _) with hin | ⟨r, hr⟩
      · exact ⟨[], c, cs, l, rfl, rfl, hin⟩
      · rcases List.eq_nil_or_concat r with rfl | ⟨l₁, m', rfl⟩
        · rw [List.append_nil] at hr
          exact ⟨[], c, cs, l, rfl, rfl, hr ▸ List.prefix_refl _⟩
        · rw [List.concat_eq_append, ← List.append_assoc] at hr
          obtain ⟨rfl, hm⟩ := List.append_inj' hr rfl
          obtain rfl := List.singleton_inj.mp hm
          rw [List.append_assoc, List.prefix_append_right_inj] at h
          obtain ⟨cs', c', cs'', l', rfl, rfl, hin⟩ := ih h
          exact ⟨c :: cs', c', cs'', l', rfl, by rw [List.flatMap_cons, List.append_assoc], hin⟩

namespace Call

variable {c : Call} {l : List Mmio} {m : Mmio}

/-- A doorbell is the last access of a submission. -/
theorem of_rings (h : l ++ [m] <+: c.writes) (hr : m.rings = true) :
    ∃ words, c = submit words ∧ l = NpuTb.submitWords words := by
  have hmem : m ∈ c.writes := h.subset (by simp)
  cases c with
  | dma d =>
      simp only [writes, dmaProgram, List.mem_cons, List.not_mem_nil, or_false] at hmem
      rcases hmem with rfl | rfl | rfl | rfl <;> exact absurd hr Bool.false_ne_true
  | submit words =>
      refine ⟨words, rfl, ?_⟩
      rcases List.prefix_concat_iff.mp h with heq | hin
      · exact (List.append_inj' heq rfl).1
      · have hload := NpuTb.loads_submitWords words m (hin.subset (by simp))
        rw [Mmio.rings_of_not_isReg (Mmio.not_isReg_of_loads hload)] at hr
        exact absurd hr Bool.false_ne_true

/-- A start is the last access of a transfer. -/
theorem of_startsDma (h : l ++ [m] <+: c.writes) (hd : m.startsDma = true) :
    ∃ d, c = dma d ∧ l = (dmaProgram d.extAddr d.locAddr d.len d.ctl).take 3 ∧
      m = .write regDmaCtrl d.ctl := by
  have hmem : m ∈ c.writes := h.subset (by simp)
  cases c with
  | dma d =>
      refine ⟨d, rfl, ?_⟩
      have hlast : (dma d).writes =
        (dmaProgram d.extAddr d.locAddr d.len d.ctl).take 3 ++ [.write regDmaCtrl d.ctl] := rfl
      rw [hlast] at h
      rcases List.prefix_concat_iff.mp h with heq | hin
      · obtain ⟨hl, hm⟩ := List.append_inj' heq rfl
        exact ⟨hl, List.singleton_inj.mp hm⟩
      · have hbefore : m ∈ (dmaProgram d.extAddr d.locAddr d.len d.ctl).take 3 :=
          hin.subset (by simp)
        simp only [dmaProgram, List.take_succ_cons, List.take_zero, List.mem_cons,
          List.not_mem_nil, or_false] at hbefore
        rcases hbefore with rfl | rfl | rfl <;> exact absurd hd Bool.false_ne_true
  | submit words =>
      rw [writes, List.mem_append, List.mem_singleton] at hmem
      rcases hmem with hmem | rfl
      · have hload := NpuTb.loads_submitWords words m hmem
        rw [Mmio.startsDma_of_not_isReg (Mmio.not_isReg_of_loads hload)] at hd
        exact absurd hd Bool.false_ne_true
      · exact absurd hd Bool.false_ne_true

end Call

namespace Machine

/-- A host that starts a transfer, rings a doorbell or touches a buffer only
when everything before has been answered, the last one nine cycles ago. -/
structure Patient (i : MachineIn) (x : Machine) (a : IdealMachine) : Prop where
  noReset : NpuShell.noSoftReset i.host
  window : (i.host.writes && i.host.isCmdQueue) = true → x.hw.events = a.rung
  rings : i.host.rings = true → x.hw.events = a.rung ∧ 9 ≤ x.hw.quiet
  buffers : (i.host.valid && i.host.isBuf) = true → x.hw.events = a.rung ∧ 9 ≤ x.hw.quiet
  starts : i.host.startsDma = true → x.hw.events = a.rung ∧ 9 ≤ x.hw.quiet

variable {x : Machine} {a : IdealMachine} {ins : ℕ → MachineIn} {cs : List Call}

section Calls

variable (hcalls : ∀ n, (accesses (fun t ↦ (ins t).host) n).filter Mmio.alters <+:
  cs.flatMap Call.writes)
include hcalls

/-- An access that matters belongs to a call. -/
theorem exists_call {t : ℕ} (hv : (ins t).host.valid = true) (hm : (ins t).host.alters = true) :
    ∃ cs' c cs'' l, cs = cs' ++ c :: cs'' ∧
      (accesses (fun t ↦ (ins t).host) t).filter Mmio.alters = cs'.flatMap Call.writes ++ l ∧
      l ++ [(ins t).host] <+: c.writes := by
  have hnext := hcalls (t + 1)
  rw [accesses_succ, hv, if_pos rfl, List.filter_append, List.filter_cons_of_pos hm] at hnext
  exact exists_of_prefix_flatMap hnext

variable (hlegal : Call.AllLegal a.memories cs)
include hlegal

/-- A doorbell finds a legal command in the window. -/
theorem servable_of_calls {t : ℕ} (hr : (ins t).host.rings = true) :
    (a.run (fun t ↦ (ins t).host) t).sram.Servable (a.run (fun t ↦ (ins t).host) t).window := by
  have hv : (ins t).host.valid = true := by
    simp only [Mmio.rings, Mmio.writes, Bool.and_eq_true] at hr
    exact hr.1.1.1
  obtain ⟨cs', c, cs'', l, rfl, hacc, hin⟩ := exists_call hcalls hv (by simp [Mmio.alters, hr])
  obtain ⟨words, rfl, rfl⟩ := Call.of_rings hin hr
  have hwords := (@IdealMachine.after_submitWords (a.after (cs'.flatMap Call.writes)) words).1
  have hideal := congrArg IdealMachine.toIdeal
    (@IdealMachine.held_run a (fun t ↦ (ins t).host) t)
  rw [hacc, IdealMachine.after_append, IdealMachine.held_toIdeal, IdealMachine.held_toIdeal,
    hwords] at hideal
  have hok : (cs'.foldl Call.effect a.memories).1.Servable words := hlegal.append.1
  rw [← IdealMachine.memories_after_calls] at hok
  rw [hideal]
  exact hok

/-- A start finds a proper transfer in the registers. -/
theorem proper_of_calls {t : ℕ} (hd : (ins t).host.startsDma = true) :
    ((a.run (fun t ↦ (ins t).host) t).cfg.after (ins t).host).Proper := by
  have hm : (ins t).host.alters = true := by
    simp only [Mmio.startsDma, Bool.and_eq_true] at hd
    simp [Mmio.alters, hd.1]
  have hv : (ins t).host.valid = true := by
    simp only [Mmio.startsDma, Mmio.writesReg, Mmio.writes, Bool.and_eq_true] at hd
    exact hd.1.1.1.1
  obtain ⟨cs', c, cs'', l, rfl, hacc, hin⟩ := exists_call hcalls hv hm
  obtain ⟨d, rfl, rfl, hctrl⟩ := Call.of_startsDma hin hd
  have hcfg := (@IdealMachine.after_dmaProgram (a.after (cs'.flatMap Call.writes)) d).2.2
  have hregs := congrArg (fun b : IdealMachine ↦ b.cfg.after (ins t).host)
    (@IdealMachine.held_run a (fun t ↦ (ins t).host) t)
  simp only [IdealMachine.cfg_after_held] at hregs
  have hok : d.cfg.Proper := hlegal.append.1
  rwa [hregs, hacc, IdealMachine.after_append, hctrl, hcfg]

/-- A patient host that makes legal calls is polite. -/
theorem obliged_of_calls
    (hpatient : ∀ t, Patient (ins t) (x.run ins t) (a.run (fun t ↦ (ins t).host) t)) :
    Obliged ins x a := by
  intro t
  obtain ⟨hreset, hwindow, hrings, hbuf, hstarts⟩ := hpatient t
  exact ⟨hreset, hwindow,
    fun hr ↦ ⟨(hrings hr).1, (hrings hr).2, servable_of_calls hcalls hlegal hr⟩, hbuf,
    fun hd ↦ ⟨(hstarts hd).1, (hstarts hd).2, proper_of_calls hcalls hlegal hd⟩⟩

end Calls

/-- Without a request the pair stays at rest. -/
theorem Rest.step_of_not_requests {i : MachineIn} (h : x.Rest a)
    (hm : NpuShell.noSoftReset i.host) (hr : i.host.rings = false) (hd : i.host.startsDma = false) :
    (x.step i).Rest (a.step i.host) := by
  have hhw : Watched.Rest (x.step i).hw (a.toIdeal.step i.host) :=
    Watched.Rest.step_of_not_rings (i := x.devIn i) h.hw hm hd hr
  rw [← IdealMachine.toIdeal_step hd] at hhw
  have hext := ext_step (i := i) h.hw.ready.dma h.pending
  refine ⟨hhw, cfg_step h.hw.ready.stable h.cfg, ?_, hext ▸ h.pending⟩
  rw [hext, h.ext, IdealMachine.ext_step hd]

/-- It stays at rest as long as none is made, and every cycle counts. -/
theorem Rest.stays {u k : ℕ} (h : (x.run ins u).Rest (a.run (fun t ↦ (ins t).host) u))
    (hno : ∀ i < k, NpuShell.noSoftReset (ins (u + i)).host ∧ (ins (u + i)).host.rings = false ∧
      (ins (u + i)).host.startsDma = false) :
    (x.run ins (u + k)).Rest (a.run (fun t ↦ (ins t).host) (u + k)) ∧
      (x.run ins (u + k)).hw.quiet = (x.run ins u).hw.quiet + k := by
  induction k with
  | zero => exact ⟨h, rfl⟩
  | succ k ih =>
      obtain ⟨hrest, hquiet⟩ := ih fun i hi ↦ hno i (Nat.lt_succ_of_lt hi)
      obtain ⟨hm, hr, hd⟩ := hno k (Nat.lt_succ_self k)
      have hnext := @Watched.Rest.quiet_step _ _
        ((x.run ins (u + k)).devIn (ins (u + k))) hrest.hw
      exact ⟨hrest.step_of_not_requests hm hr hd, hnext.trans (congrArg (· + 1) hquiet)⟩

/-- A patient host beside a fair external memory makes the calls, and after
cycle `n` no access that matters. -/
structure Makes (cs : List Call) (ins : ℕ → MachineIn) (n : ℕ) (x : Machine) (a : IdealMachine) :
    Prop where
  patient : ∀ t, Patient (ins t) (x.run ins t) (a.run (fun t ↦ (ins t).host) t)
  ext : FairDelay fun t ↦ (ins t).ext
  calls : (accesses (fun t ↦ (ins t).host) n).filter Mmio.alters = cs.flatMap Call.writes
  later : ∀ t, n ≤ t → (ins t).host.alters = false

/-- Some time after its last access a patient host finds in the two memories
what its calls do one after the other. -/
theorem calls_carried_out (hx : x.Rest a) {n : ℕ} (hmakes : Makes cs ins n x a)
    (hlegal : Call.AllLegal (x.hw.dev.core.mem.contents, x.ext.mem) cs) :
    ∃ U, ∀ u, U ≤ u → ((x.run ins u).hw.dev.core.mem.contents, (x.run ins u).ext.mem) =
      cs.foldl Call.effect (x.hw.dev.core.mem.contents, x.ext.mem) := by
  obtain ⟨hpatient, hext, hcalls, hend⟩ := hmakes
  have hstart : a.memories = (x.hw.dev.core.mem.contents, x.ext.mem) :=
    Prod.ext hx.hw.sram.symm hx.ext.symm
  have hlater : ∀ t, n ≤ t →
      (accesses (fun t ↦ (ins t).host) t).filter Mmio.alters = cs.flatMap Call.writes := by
    intro t ht
    induction t, ht using Nat.le_induction with
    | base => exact hcalls
    | succ t ht ih =>
        rw [accesses_succ, List.filter_append, ih]
        split <;> simp [hend t ht]
  have hprefix : ∀ t, (accesses (fun t ↦ (ins t).host) t).filter Mmio.alters <+:
      cs.flatMap Call.writes := by
    intro t
    rcases Nat.le_total n t with ht | ht
    · exact hlater t ht ▸ List.prefix_refl _
    · exact hcalls ▸ (accesses_isPrefix ht).filter _
  have hok := obliged_of_calls hprefix (hstart ▸ hlegal) hpatient
  obtain ⟨U, hU, hrest⟩ := returns hx hok hext n
  have hstays : ∀ u, U ≤ u → (x.run ins u).Rest (a.run (fun t ↦ (ins t).host) u) := by
    intro u hu
    obtain ⟨k, rfl⟩ := Nat.exists_eq_add_of_le hu
    refine (hrest.stays fun i _ ↦ ?_).1
    have hno := hend (U + i) (hU.trans (Nat.le_add_right U i))
    exact ⟨(hpatient (U + i)).noReset, (Mmio.alters_eq_false_iff.mp hno).2.1,
      Mmio.startsDma_of_not_alters hno⟩
  refine ⟨U, fun u hu ↦ ?_⟩
  have hmem := congrArg IdealMachine.memories (@IdealMachine.held_run a (fun t ↦ (ins t).host) u)
  rw [hlater u (hU.trans hu)] at hmem
  rw [(hstays u hu).hw.sram, (hstays u hu).ext, ← hstart, ← IdealMachine.memories_after_calls]
  exact hmem

theorem Polite.patient {i : MachineIn} (h : Polite i x a) : Patient i x a :=
  ⟨h.noReset, h.window, fun hr ↦ ⟨(h.rings hr).1, (h.rings hr).2.1⟩, h.buffers,
    fun hd ↦ ⟨(h.starts hd).1, (h.starts hd).2.1⟩⟩

theorem calls_carried_out_startByte : ∃ U, ∀ u, U ≤ u →
    ((sevens.run startByte u).hw.dev.core.mem.contents, (sevens.run startByte u).ext.mem) =
      [Call.dma ShellSys.oneByte].foldl Call.effect
        (sevens.hw.dev.core.mem.contents, sevens.ext.mem) := by
  refine calls_carried_out (n := 4) rest_sevens ⟨fun t ↦ (obliged_startByte t).patient,
    fairDelay_of_all (fun _ ↦ rfl) fun _ ↦ rfl, rfl, ?_⟩ ⟨⟨by decide, by decide⟩, trivial⟩
  intro t ht
  obtain ⟨k, rfl⟩ := Nat.exists_eq_add_of_le' ht
  rfl

end Machine

end LgNpu
