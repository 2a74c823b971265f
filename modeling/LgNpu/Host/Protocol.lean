import LgNpu.Host.FrontEnd
import LgNpu.Lib.Clocked
import Mathlib.Data.Prod.Lex
import Mathlib.Data.List.GetD
import Mathlib.Data.List.Infix

/-!
# Submitting commands

A host that follows `lgnpu_cmd_submit` on the bus, with any delays, and what
becomes of its doorbells.  The window is a single buffer and the doorbell and
`desc_done` are one-cycle pulses; `CleanRun` names the runs in which none of
the three is hit at the wrong moment, and in those every doorbell is answered
exactly once, in order, with the words written before it.
-/

namespace LgNpu

/-! ## The host -/

/-- Where the host stands: whether `STATUS` allowed it to go on, and the words
written since the last doorbell. -/
structure Host where
  gate : Bool
  words : List MmioData

namespace Host

def init : Host := ⟨false, []⟩

/-- What the host may put on the bus: words in ascending order once `STATUS`
was seen without `QUEUE_FULL`, then the doorbell; any access elsewhere but a
reset. -/
structure Allows (h : Host) (m : Mmio) : Prop where
  rings : m.rings = true → h.gate = true ∧ h.words.length = 16
  window : m.writes = true → m.isCmdQueue = true → h.gate = true ∧ h.words.length < 16 ∧
    m.addr = cmdQueueBase + .ofNat 20 (4 * h.words.length)
  noReset : m.writes = true → m.addr ≠ regCtrl

def next (h : Host) (m : Mmio) (queueFull : Bool) : Host :=
  if m.rings then ⟨false, []⟩
  else if m.writes && m.isCmdQueue then ⟨h.gate, h.words ++ [m.wdata]⟩
  else if m.valid && !m.wr && m.addr == regStatus then ⟨!queueFull, h.words⟩
  else h

def descriptor (h : Host) (i : BitVec 4) : MmioData := h.words.getD i.toNat 0

end Host

/-- What a descriptor should lead to. -/
def outcomeOf (d : BitVec 4 → MmioData) : Outcome :=
  if badOpcode d then .decodeErr else .push (packCmd d)

/-! ## Host and device -/

structure Link where
  front : FrontEnd
  host : Host
  /-- One entry for each doorbell so far. -/
  expected : List Outcome
  /-- The pushes and error pulses so far. -/
  outcomes : List Outcome

namespace Link

def reset (cmdMem : BitVec 4 → MmioData) (mem : BitVec 2 → ConvCmd) : Link :=
  ⟨.reset cmdMem mem, .init, [], []⟩

def step (m : Mmio) (rdReady : Bool) (x : Link) : Link where
  front := x.front.step m rdReady
  host := x.host.next m x.front.queueFull
  expected := x.expected ++ if m.rings then [outcomeOf x.host.descriptor] else []
  outcomes := x.outcomes ++ x.front.outcome

def run (ms : ℕ → Mmio) (pops : ℕ → Bool) (x : Link) : ℕ → Link :=
  Clocked.run (fun t ↦ step (ms t) (pops t)) x

theorem run_succ (ms : ℕ → Mmio) (pops : ℕ → Bool) (x : Link) (t : ℕ) :
    run ms pops x (t + 1) = (run ms pops x t).step (ms t) (pops t) := rfl

def Obeys (ms : ℕ → Mmio) (pops : ℕ → Bool) (x : Link) : Prop :=
  ∀ t, (run ms pops x t).host.Allows (ms t)

/-- Doorbells are answered in order, none twice, and each in the end. -/
structure Delivers (ms : ℕ → Mmio) (pops : ℕ → Bool) (x : Link) : Prop where
  sound : ∀ t, (run ms pops x t).outcomes <+: (run ms pops x t).expected
  complete : ∀ t, ∃ u, (run ms pops x t).expected <+: (run ms pops x u).outcomes

end Link

/-! ## Clean runs -/

/-- A word of the window that belongs to a submission and has not been read. -/
def FrontEnd.Unread (s : FrontEnd) (i : BitVec 4) : Prop :=
  s.regs.doorbellR = true ∨ (s.fetch.state ≠ .idle ∧ s.fetch.wordCnt.toNat < i.toNat)

/-- A cycle in which the doorbell finds the fetch idle, a finished descriptor
finds the decoder idle, and no unread word is overwritten. -/
structure FrontEnd.Clean (s : FrontEnd) (m : Mmio) : Prop where
  fetchIdle : s.regs.doorbellR = true → s.fetch.state = .idle
  decodeIdle : s.descDone = true → s.decode.state = .idle
  window : ∀ i, s.Unread i → (s.step m false).regs.cmdMem i = s.regs.cmdMem i

/-- Every cycle is clean and the scheduler takes commands again and again. -/
structure Link.CleanRun (ms : ℕ → Mmio) (pops : ℕ → Bool) (x : Link) : Prop where
  clean : ∀ t, (run ms pops x t).front.Clean (ms t)
  pops : Clocked.Fair pops

/-! ## What is under way -/

namespace FrontEnd

/-- The submission in the fetch stage. -/
inductive FetchHolds (s : FrontEnd) : List Outcome → Prop
  | idle (hs : s.fetch.state = .idle) (hd : s.regs.doorbellR = false) : FetchHolds s []
  | rung (hs : s.fetch.state = .idle) (hd : s.regs.doorbellR = true) :
      FetchHolds s [outcomeOf s.regs.cmdMem]
  | read (d : BitVec 4 → MmioData) (hs : s.fetch.state = .read) (hd : s.regs.doorbellR = false)
      (hregs : ∀ i, i.toNat < s.fetch.wordCnt.toNat → s.decode.descRegs i = d i)
      (hmem : ∀ i, s.fetch.wordCnt.toNat ≤ i.toNat → s.regs.cmdMem i = d i) :
      FetchHolds s [outcomeOf d]
  | wait (d : BitVec 4 → MmioData) (hs : s.fetch.state = .wait) (hd : s.regs.doorbellR = false)
      (hv : s.regs.fetchRvalidR = true) (hword : s.regs.fetchRdataR = d s.fetch.wordCnt)
      (hregs : ∀ i, i.toNat < s.fetch.wordCnt.toNat → s.decode.descRegs i = d i)
      (hmem : ∀ i, s.fetch.wordCnt.toNat < i.toNat → s.regs.cmdMem i = d i) :
      FetchHolds s [outcomeOf d]

def decodeHolds (s : FrontEnd) : List Outcome :=
  match s.decode.state with
  | .idle => []
  | .check => [outcomeOf s.decode.descRegs]
  | .valid => [if s.decode.errR then .decodeErr else .push s.decode.cmdR]

variable {s : FrontEnd} {m : Mmio} {rdReady : Bool} {fs : List Outcome}

/-- What the decoder held and what it is handed either leaves or stays. -/
theorem decode_step (rdReady : Bool) (hc : s.Clean m) : s.outcome ++ (s.step m rdReady).decodeHolds =
    s.decodeHolds ++
      if s.descDone then [outcomeOf (s.step m rdReady).decode.descRegs] else [] := by
  cases hs : s.decode.state with
  | idle =>
      have hout : s.outcome = [] := by
        simp [outcome, NpuCmdDecode.cmdValid, NpuCmdDecode.decodeErr, hs]
      have hst : (s.step m rdReady).decode.state = if s.descDone then .check else .idle := by
        simp [step, NpuCmdDecode.step, hs]
      rw [hout, decodeHolds, decodeHolds, hs, hst]
      cases s.descDone <;> rfl
  | check =>
      have hdone : s.descDone = false :=
        Bool.eq_false_iff.mpr fun h ↦ by simp [hc.decodeIdle h] at hs
      simp [outcome, NpuCmdDecode.cmdValid, NpuCmdDecode.decodeErr, decodeHolds, step,
        NpuCmdDecode.step, outcomeOf, hs, hdone]
  | valid =>
      have hdone : s.descDone = false :=
        Bool.eq_false_iff.mpr fun h ↦ by simp [hc.decodeIdle h] at hs
      cases herr : s.decode.errR <;> cases hroom : s.queue.wrReady <;>
        simp [outcome, NpuCmdDecode.cmdValid, NpuCmdDecode.decodeErr, decodeHolds, step,
          NpuCmdDecode.step, hs, hdone, herr, hroom]

theorem cmdMem_step (hc : s.Clean m) {i : BitVec 4} (hi : s.Unread i) :
    (s.step m rdReady).regs.cmdMem i = s.regs.cmdMem i := hc.window i hi

theorem toNat_wordCnt_succ (h : s.fetch.wordCnt ≠ 15) :
    (s.fetch.wordCnt + 1).toNat = s.fetch.wordCnt.toNat + 1 := by
  have hlt := s.fetch.wordCnt.isLt
  have hne : s.fetch.wordCnt.toNat ≠ 15 := fun h' ↦ h (BitVec.eq_of_toNat_eq h')
  exact toNat_add_one (by omega)

theorem rings_not_window (h : m.rings = true) : (m.writes && m.isCmdQueue) = false := by
  rw [Mmio.rings, Bool.and_eq_true, Bool.and_eq_true] at h
  simp [Mmio.isCmdQueue, show m.addr.ult cmdQueueBase = true from h.1.2]

theorem cmdMem_step_rings (h : m.rings = true) : (s.step m rdReady).regs.cmdMem = s.regs.cmdMem := by
  simp [step, NpuRegBlock.step, rings_not_window h]

/-- The submission in the fetch stage stays there until it is handed to the
decoder, and a doorbell finds the stage empty. -/
theorem fetch_step (h : s.FetchHolds fs) (hc : s.Clean m)
    (hnext : (s.step m rdReady).regs.doorbellR = true → (s.step m rdReady).fetch.state = .idle) :
    ∃ fs', (s.step m rdReady).FetchHolds fs' ∧
      fs ++ (if m.rings then [outcomeOf s.regs.cmdMem] else []) =
        (if s.descDone then [outcomeOf (s.step m rdReady).decode.descRegs] else []) ++ fs' := by
  have hbell : (s.step m rdReady).regs.doorbellR = m.rings := rfl
  -- A stage that is free after the edge takes the doorbell, if there is one.
  have hfree : (s.step m rdReady).fetch.state = .idle → (s.step m rdReady).FetchHolds
      (if m.rings then [outcomeOf s.regs.cmdMem] else []) := by
    intro hidle
    cases hr : m.rings with
    | false => exact .idle hidle (hbell.trans hr)
    | true =>
        rw [if_pos rfl, ← cmdMem_step_rings hr]
        exact .rung hidle (hbell.trans hr)
  have hquiet : (s.step m rdReady).fetch.state ≠ .idle → m.rings = false :=
    fun hbusy ↦ Bool.eq_false_iff.mpr fun hr ↦ hbusy (hnext hr)
  cases h with
  | idle hs hd =>
      refine ⟨_, hfree (by rw [fetch_step_idle m rdReady hs hd]), ?_⟩
      rw [descDone_eq_false (by simp [hs])]
      rfl
  | rung hs hd =>
      have hf := fetch_step_rung m rdReady hs hd
      have hr := hquiet (by simp [hf])
      refine ⟨_, .read s.regs.cmdMem (by rw [hf]) (hbell.trans hr) ?_ ?_, ?_⟩
      · rw [hf]
        exact fun i hi ↦ absurd hi (Nat.not_lt_zero _)
      · exact fun i _ ↦ cmdMem_step hc (.inl hd)
      · rw [descDone_eq_false (by simp [hs]), hr]
        rfl
  | read d hs hd hregs hmem =>
      obtain ⟨hf, hv, hdata⟩ := fetch_step_read m rdReady hs
      have hr := hquiet (by simp [hf])
      have hregs' := descRegs_step m rdReady (s := s) (by simp [hs])
      refine ⟨_, .wait d (by rw [hf]) (hbell.trans hr) hv ?_ ?_ ?_, ?_⟩
      · rw [hdata, hmem _ le_rfl, hf]
      · rw [hf, hregs']
        exact hregs
      · rw [hf]
        exact fun i hi ↦ (cmdMem_step hc (.inr ⟨by simp [hs], hi⟩)).trans (hmem i hi.le)
      · rw [descDone_eq_false (by simp [hs]), hr]
        rfl
  | wait d hs hd hv hword hregs hmem =>
      have hf := fetch_step_wait m rdReady hs hv
      have hregs' := descRegs_step_wait m rdReady hs hv
      have hupd : ∀ i, i.toNat ≤ s.fetch.wordCnt.toNat →
          (s.step m rdReady).decode.descRegs i = d i := by
        intro i hi
        rw [hregs']
        rcases eq_or_ne i s.fetch.wordCnt with rfl | hne
        · rw [Function.update_self, hword]
        · rw [Function.update_of_ne hne]
          exact hregs i (lt_of_le_of_ne hi fun h ↦ hne (BitVec.eq_of_toNat_eq h))
      by_cases hlast : s.fetch.wordCnt = 15
      · have hall : (s.step m rdReady).decode.descRegs = d := by
          refine funext fun i ↦ hupd i ?_
          have hi := i.isLt
          have h15 : s.fetch.wordCnt.toNat = 15 := congrArg BitVec.toNat hlast
          omega
        refine ⟨_, hfree (by rw [hf, if_pos hlast]), ?_⟩
        rw [descDone_wait hs hv, decide_eq_true hlast, if_pos rfl, hall]
      · have hr := hquiet (by rw [hf, if_neg hlast]; exact FetchState.noConfusion)
        have hsucc := toNat_wordCnt_succ hlast
        refine ⟨_, .read d (by rw [hf, if_neg hlast]) (hbell.trans hr) ?_ ?_, ?_⟩
        · rw [hf]
          exact fun i hi ↦ hupd i (by dsimp only at hi; omega)
        · rw [hf]
          intro i hi
          dsimp only at hi
          exact (cmdMem_step hc (.inr ⟨by simp [hs], by omega⟩)).trans (hmem i (by omega))
        · rw [descDone_wait hs hv, decide_eq_false hlast, hr]
          rfl

end FrontEnd

namespace Link

/-- Every doorbell has been answered or its submission is under way. -/
structure Inv (x : Link) : Prop where
  length_le : x.host.words.length ≤ 16
  words : ∀ i : BitVec 4, i.toNat < x.host.words.length →
    x.front.regs.cmdMem i = x.host.descriptor i
  queue : ∃ xs, x.front.queue.Holds xs
  pending : ∃ fs, x.front.FetchHolds fs ∧ x.expected = x.outcomes ++ x.front.decodeHolds ++ fs

variable {x : Link} {m : Mmio} {rdReady : Bool}

theorem Inv.reset (cmdMem : BitVec 4 → MmioData) (mem : BitVec 2 → ConvCmd) :
    Inv (reset cmdMem mem) where
  length_le := Nat.zero_le _
  words _ h := absurd h (Nat.not_lt_zero _)
  queue := ⟨[], Fifo.holds_nil⟩
  pending := ⟨[], .idle rfl rfl, rfl⟩

/-- A doorbell rung by the protocol finds the descriptor in the window. -/
theorem Inv.cmdMem_eq (h : Inv x) (hlen : x.host.words.length = 16) :
    x.front.regs.cmdMem = x.host.descriptor := by
  refine funext fun i ↦ h.words i ?_
  have hi := i.isLt
  omega

theorem windowIdx_word {n : ℕ} (h : n < 16) :
    (windowIdx (cmdQueueBase + .ofNat 20 (4 * n))).toNat = n := by
  have hall : ∀ n < 16, (windowIdx (cmdQueueBase + .ofNat 20 (4 * n))).toNat = n := by decide
  exact hall n h

/-- The words the host has written since the doorbell stand in the window. -/
theorem Inv.words_step (h : Inv x) (ha : x.host.Allows m) :
    (x.step m rdReady).host.words.length ≤ 16 ∧
      ∀ i : BitVec 4, i.toNat < (x.step m rdReady).host.words.length →
        (x.step m rdReady).front.regs.cmdMem i = (x.step m rdReady).host.descriptor i := by
  by_cases hr : m.rings = true
  · have hwords : (x.step m rdReady).host.words = [] := by simp [step, Host.next, hr]
    rw [hwords]
    exact ⟨Nat.zero_le _, fun i hi ↦ absurd hi (Nat.not_lt_zero _)⟩
  · cases hw : m.writes && m.isCmdQueue with
    | false =>
        have hwords : (x.step m rdReady).host.words = x.host.words := by
          simp only [step, Host.next, hr, hw, Bool.false_eq_true, if_false]
          split <;> rfl
        have hmem : (x.step m rdReady).front.regs.cmdMem = x.front.regs.cmdMem := by
          simp [step, FrontEnd.step, NpuRegBlock.step, hw]
        rw [hwords, hmem]
        refine ⟨h.length_le, fun i hi ↦ ?_⟩
        rw [h.words i hi, Host.descriptor, Host.descriptor, hwords]
    | true =>
        obtain ⟨hwr, hq⟩ := Bool.and_eq_true_iff.mp hw
        obtain ⟨-, hlt, haddr⟩ := ha.window hwr hq
        have hwords : (x.step m rdReady).host.words = x.host.words ++ [m.wdata] := by
          simp [step, Host.next, hr, hw]
        have hmem : (x.step m rdReady).front.regs.cmdMem =
            Function.update x.front.regs.cmdMem (windowIdx m.addr) m.wdata := by
          simp [step, FrontEnd.step, NpuRegBlock.step, hw]
        have hidx := windowIdx_word hlt
        rw [← haddr] at hidx
        rw [hmem, hwords, List.length_append, List.length_singleton]
        refine ⟨hlt, fun i hi ↦ ?_⟩
        rw [Host.descriptor, hwords]
        rcases Nat.lt_succ_iff_lt_or_eq.mp hi with hold | hnew
        · rw [Function.update_of_ne, h.words i hold, Host.descriptor, List.getD_append _ _ _ _ hold]
          intro heq
          rw [heq, hidx] at hold
          exact lt_irrefl _ hold
        · have heq : i = windowIdx m.addr := BitVec.eq_of_toNat_eq (hnew.trans hidx.symm)
          rw [heq, Function.update_self, ← heq, hnew, List.getD_append_right _ _ _ _ le_rfl,
            Nat.sub_self]
          rfl

theorem Inv.step (h : Inv x) (ha : x.host.Allows m) (hc : x.front.Clean m)
    (hnext : (x.step m rdReady).front.regs.doorbellR = true →
      (x.step m rdReady).front.fetch.state = .idle) : Inv (x.step m rdReady) := by
  obtain ⟨hlen, hwords⟩ := h.words_step ha
  refine ⟨hlen, hwords, ?_, ?_⟩
  · obtain ⟨xs, hxs⟩ := h.queue
    exact ⟨_, hxs.step _ _ _⟩
  · obtain ⟨fs, hfs, hexp⟩ := h.pending
    obtain ⟨fs', hfs', hmove⟩ := FrontEnd.fetch_step hfs hc hnext
    refine ⟨fs', hfs', ?_⟩
    have hdec := FrontEnd.decode_step rdReady hc
    have hring : (if m.rings then [outcomeOf x.host.descriptor] else []) =
        if m.rings then [outcomeOf x.front.regs.cmdMem] else [] := by
      cases hr : m.rings with
      | false => rfl
      | true => rw [h.cmdMem_eq (ha.rings hr).2]
    calc (x.step m rdReady).expected
        = x.outcomes ++ x.front.decodeHolds ++
            (fs ++ if m.rings then [outcomeOf x.front.regs.cmdMem] else []) := by
          rw [Link.step, hexp, hring, List.append_assoc]
      _ = x.outcomes ++ (x.front.decodeHolds ++ if x.front.descDone then
            [outcomeOf (x.front.step m rdReady).decode.descRegs] else []) ++ fs' := by
          rw [hmove, List.append_assoc, List.append_assoc, List.append_assoc]
      _ = (x.step m rdReady).outcomes ++ (x.step m rdReady).front.decodeHolds ++ fs' := by
          rw [← hdec]
          simp only [Link.step, List.append_assoc]

section Run

variable {ms : ℕ → Mmio} {pops : ℕ → Bool} {cmdMem : BitVec 4 → MmioData}
  {mem : BitVec 2 → ConvCmd}

theorem inv_run (hobeys : Obeys ms pops (.reset cmdMem mem))
    (hclean : CleanRun ms pops (.reset cmdMem mem)) (t : ℕ) :
    Inv (run ms pops (.reset cmdMem mem) t) := by
  induction t with
  | zero => exact .reset cmdMem mem
  | succ t ih => exact ih.step (hobeys t) (hclean.clean t) (hclean.clean (t + 1)).fetchIdle

end Run

/-! ## Progress -/

/-- Cycles until the oldest submission is answered, waits for room apart. -/
def stepsLeft (s : FrontEnd) : ℕ :=
  match s.decode.state with
  | .valid => if s.queue.full then 1 else 0
  | .check => 2
  | .idle =>
      match s.fetch.state with
      | .idle => 40
      | .read => 4 + 2 * (15 - s.fetch.wordCnt.toNat)
      | .wait => 3 + 2 * (15 - s.fetch.wordCnt.toNat)

/-- The decoder holds a command and the queue has no room for it. -/
def waitsForRoom (s : FrontEnd) : Prop :=
  s.decode.state = .valid ∧ s.decode.errR = false ∧ s.queue.full = true

theorem outcome_step_length (m : Mmio) (rdReady : Bool) : (x.step m rdReady).outcomes.length =
    x.outcomes.length + x.front.outcome.length := List.length_append

/-- While a submission is under way, an edge answers it, brings the answer
nearer, or finds the queue full; then only a pop matters. -/
theorem progress (m : Mmio) (rdReady : Bool) (h : Inv x) (hpend : x.expected ≠ x.outcomes) :
    x.front.outcome ≠ [] ∨ stepsLeft (x.step m rdReady).front < stepsLeft x.front ∨
      waitsForRoom x.front ∧ rdReady = false ∧ waitsForRoom (x.step m rdReady).front ∧
        stepsLeft (x.step m rdReady).front = stepsLeft x.front := by
  cases hs : x.front.decode.state with
  | valid =>
      cases herr : x.front.decode.errR with
      | true => exact .inl (by simp [FrontEnd.outcome, NpuCmdDecode.cmdValid,
          NpuCmdDecode.decodeErr, hs, herr])
      | false =>
          cases hfull : x.front.queue.full with
          | false => exact .inl (by simp [FrontEnd.outcome, NpuCmdDecode.cmdValid, Fifo.wrReady,
              hs, herr, hfull])
          | true =>
              have hst : (x.step m rdReady).front.decode.state = .valid := by
                simp [step, FrontEnd.step, NpuCmdDecode.step, Fifo.wrReady, hs, herr, hfull]
              have herr' : (x.step m rdReady).front.decode.errR = false := by
                simp [step, FrontEnd.step, NpuCmdDecode.step, hs, herr]
              obtain ⟨xs, hxs⟩ := h.queue
              have hnext := hxs.step x.front.decode.cmdR x.front.decode.cmdValid rdReady
              rw [hfull, Bool.not_true, Bool.and_false, if_neg Bool.false_ne_true,
                List.append_nil] at hnext
              have hlen := hxs.full_iff.mp hfull
              cases rdReady with
              | true =>
                  have hroom : (x.step m true).front.queue.full = false := by
                    refine Bool.eq_false_iff.mpr fun hf ↦ ?_
                    have hlen' := hnext.full_iff.mp hf
                    rw [if_pos rfl, List.length_tail] at hlen'
                    omega
                  refine .inr (.inl ?_)
                  rw [stepsLeft, hst, stepsLeft, hs]
                  simp [hroom, hfull]
              | false =>
                  have hroom : (x.step m false).front.queue.full = true :=
                    hnext.full_iff.mpr hlen
                  refine .inr (.inr ⟨⟨hs, herr, hfull⟩, rfl, ⟨hst, herr', hroom⟩, ?_⟩)
                  rw [stepsLeft, hst, stepsLeft, hs, hroom, hfull]
  | check =>
      have hst : (x.step m rdReady).front.decode.state = .valid := by
        simp [step, FrontEnd.step, NpuCmdDecode.step, hs]
      refine .inr (.inl ?_)
      simp only [stepsLeft, hs, hst]
      split <;> omega
  | idle =>
      have hst : (x.step m rdReady).front.decode.state =
          if x.front.descDone then .check else .idle := by
        simp [step, FrontEnd.step, NpuCmdDecode.step, hs]
      refine .inr (.inl ?_)
      obtain ⟨fs, hfs, hexp⟩ := h.pending
      cases hfs with
      | idle =>
          rw [FrontEnd.decodeHolds, hs, List.append_nil, List.append_nil] at hexp
          exact absurd hexp hpend
      | rung hf hd =>
          have hf' := FrontEnd.fetch_step_rung m rdReady hf hd
          rw [FrontEnd.descDone_eq_false (by simp [hf]), if_neg Bool.false_ne_true] at hst
          change (x.step m rdReady).front.fetch = _ at hf'
          simp [stepsLeft, hs, hst, hf, hf']
      | read d hf =>
          obtain ⟨hf', -, -⟩ := FrontEnd.fetch_step_read m rdReady hf
          rw [FrontEnd.descDone_eq_false (by simp [hf]), if_neg Bool.false_ne_true] at hst
          change (x.step m rdReady).front.fetch = _ at hf'
          simp [stepsLeft, hs, hst, hf, hf']
      | wait d hf hd hv =>
          have hf' := FrontEnd.fetch_step_wait m rdReady hf hv
          change (x.step m rdReady).front.fetch = _ at hf'
          rw [FrontEnd.descDone_wait hf hv] at hst
          by_cases hlast : x.front.fetch.wordCnt = 15
          · rw [decide_eq_true hlast, if_pos rfl] at hst
            simp only [stepsLeft, hs, hst, hf]
            omega
          · rw [decide_eq_false hlast, if_neg Bool.false_ne_true] at hst
            rw [if_neg hlast] at hf'
            have hsucc := FrontEnd.toNat_wordCnt_succ hlast
            have hlt := x.front.fetch.wordCnt.isLt
            have hne : x.front.fetch.wordCnt.toNat ≠ 15 := fun h' ↦
              hlast (BitVec.eq_of_toNat_eq h')
            simp only [stepsLeft, hs, hst, hf, hf', hsucc]
            omega

/-- Answers still due, of `N`, then the cycles to the next one. -/
def rank (N : ℕ) (x : Link) : ℕ ×ₗ ℕ := toLex (N - x.outcomes.length, stepsLeft x.front)

theorem rank_step {N : ℕ} (m : Mmio) (rdReady : Bool) (h : Inv x)
    (hpend : x.expected ≠ x.outcomes) (hN : x.outcomes.length < N) :
    rank N (x.step m rdReady) < rank N x ∨
      rdReady = false ∧ waitsForRoom x.front ∧ waitsForRoom (x.step m rdReady).front ∧
        rank N (x.step m rdReady) = rank N x := by
  have hlen := outcome_step_length (x := x) m rdReady
  by_cases hout : x.front.outcome = []
  · rw [hout, List.length_nil, Nat.add_zero] at hlen
    rcases progress m rdReady h hpend with hne | hlt | ⟨hw, hpop, hw', heq⟩
    · exact absurd hout hne
    · exact .inl (Prod.Lex.toLex_lt_toLex.mpr (.inr ⟨by rw [hlen], hlt⟩))
    · exact .inr ⟨hpop, hw, hw', by rw [rank, rank, hlen, heq]⟩
  · have hpos := List.length_pos_iff.mpr hout
    exact .inl (Prod.Lex.toLex_lt_toLex.mpr (.inl (by omega)))

/-- In a clean run every doorbell is answered exactly once, in order, with the
words written before it. -/
theorem delivers {ms : ℕ → Mmio} {pops : ℕ → Bool} {cmdMem : BitVec 4 → MmioData}
    {mem : BitVec 2 → ConvCmd} (hobeys : Obeys ms pops (.reset cmdMem mem))
    (hclean : CleanRun ms pops (.reset cmdMem mem)) : Delivers ms pops (.reset cmdMem mem) := by
  have hinv := inv_run hobeys hclean
  have hsound : ∀ t, (run ms pops (.reset cmdMem mem) t).outcomes <+:
      (run ms pops (.reset cmdMem mem) t).expected := by
    intro t
    obtain ⟨fs, -, hexp⟩ := (hinv t).pending
    rw [hexp, List.append_assoc]
    exact List.prefix_append _ _
  have hmono : ∀ t u, (run ms pops (.reset cmdMem mem) t).expected <+:
      (run ms pops (.reset cmdMem mem) (t + u)).expected := by
    intro t u
    induction u with
    | zero => exact List.prefix_refl _
    | succ u ih => exact ih.trans (List.prefix_append _ _)
  refine ⟨hsound, fun t ↦ ?_⟩
  -- The answers due at cycle `t` are counted down.
  set N := (run ms pops (.reset cmdMem mem) t).expected.length with hN
  have hedge : ∀ u, ¬N ≤ (run ms pops (.reset cmdMem mem) (t + u)).outcomes.length → _ :=
    fun u hgoal ↦ rank_step (N := N) (ms (t + u)) (pops (t + u)) (hinv (t + u))
      (fun heq ↦ hgoal (heq ▸ (hmono t u).length_le)) (not_le.mp hgoal)
  have hend := Clocked.eventually_of_rank (x := fun u ↦ run ms pops (.reset cmdMem mem) (t + u))
    wellFounded_lt (rank N) (fun x ↦ N ≤ x.outcomes.length)
    (fun (_ : Unit) x ↦ waitsForRoom x.front) (fun _ u ↦ pops (t + u)) (fun _ u ↦ ?_)
    (fun u hgoal ↦ ?_) (fun u _ hgoal _ ↦ ?_) 0
  · obtain ⟨u, -, hu⟩ := hend
    exact ⟨t + u, List.prefix_of_prefix_length_le (hmono t u) (hsound (t + u)) hu⟩
  · obtain ⟨v, hv, hpop⟩ := hclean.pops (t + u)
    refine ⟨v - t, by omega, ?_⟩
    change pops (t + (v - t)) = true
    rwa [Nat.add_sub_cancel' (by omega)]
  · rcases hedge u hgoal with hlt | ⟨-, hw, -, -⟩
    exacts [.inr (.inl hlt), .inr (.inr ⟨(), hw⟩)]
  · rcases hedge u hgoal with hlt | ⟨hpop, -, hw', heq⟩
    exacts [.inr (.inl hlt), .inr (.inr ⟨hpop, hw', heq⟩)]

/-! ## Concrete hosts -/

instance (h : Host) (m : Mmio) : Decidable (h.Allows m) :=
  decidable_of_iff (_ ∧ _ ∧ _) ⟨fun ⟨h1, h2, h3⟩ ↦ ⟨h1, h2, h3⟩, fun ⟨h1, h2, h3⟩ ↦ ⟨h1, h2, h3⟩⟩

instance (s : FrontEnd) (i : BitVec 4) : Decidable (s.Unread i) :=
  inferInstanceAs (Decidable (_ ∨ _))

instance (s : FrontEnd) (m : Mmio) : Decidable (s.Clean m) :=
  decidable_of_iff (_ ∧ _ ∧ _) ⟨fun ⟨h1, h2, h3⟩ ↦ ⟨h1, h2, h3⟩, fun ⟨h1, h2, h3⟩ ↦ ⟨h1, h2, h3⟩⟩

/-- `lgnpu_cmd_submit` without a pause. -/
def submission (words : List MmioData) : List Mmio :=
  ⟨regStatus, 0, false, true⟩ ::
    words.mapIdx (fun i w ↦ ⟨cmdQueueBase + .ofNat 20 (4 * i), w, true, true⟩) ++
    [⟨regDoorbell, 1, true, true⟩]

/-- A finite script, then silence. -/
def onBus (script : List Mmio) (t : ℕ) : Mmio := script.getD t .idle

theorem allows_idle (h : Host) : h.Allows .idle := ⟨nofun, nofun, nofun⟩

theorem obeys_of_script {script : List Mmio} {pops : ℕ → Bool} {x : Link}
    (h : ∀ t < script.length, (run (onBus script) pops x t).host.Allows (onBus script t)) :
    Obeys (onBus script) pops x := by
  intro t
  by_cases ht : t < script.length
  · exact h t ht
  · rw [onBus, List.getD_eq_default _ _ (by omega)]
    exact allows_idle _

/-- A quiet front end stays quiet on a silent bus. -/
theorem clean_of_script {script : List Mmio} {pops : ℕ → Bool} {x : Link} {T : ℕ}
    (hlen : script.length ≤ T)
    (h : ∀ t < T, (run (onBus script) pops x t).front.Clean (onBus script t))
    (hquiet : (run (onBus script) pops x T).front.fetch.state = .idle ∧
      (run (onBus script) pops x T).front.regs.doorbellR = false) (t : ℕ) :
    (run (onBus script) pops x t).front.Clean (onBus script t) := by
  have hstay : ∀ u, (run (onBus script) pops x (T + u)).front.fetch.state = .idle ∧
      (run (onBus script) pops x (T + u)).front.regs.doorbellR = false := by
    intro u
    induction u with
    | zero => exact hquiet
    | succ u ih =>
        have hbus : onBus script (T + u) = .idle := List.getD_eq_default _ _ (by omega)
        rw [← Nat.add_assoc, run_succ, hbus]
        refine ⟨?_, rfl⟩
        change (FrontEnd.step _ _ _).fetch.state = _
        rw [FrontEnd.fetch_step_idle _ _ ih.1 ih.2]
  by_cases ht : t < T
  · exact h t ht
  · obtain ⟨hidle, hbell⟩ := Nat.add_sub_cancel' (not_lt.mp ht) ▸ hstay (t - T)
    refine ⟨fun _ ↦ hidle, fun hd ↦ ?_, fun i hi ↦ ?_⟩
    · rw [FrontEnd.descDone_eq_false (by simp [hidle])] at hd
      exact absurd hd Bool.false_ne_true
    · rcases hi with hi | ⟨hi, -⟩
      · exact absurd (hbell.symm.trans hi) Bool.false_ne_true
      · exact absurd hidle hi

/-- One GEMM submitted to an idle device. -/
theorem delivers_single :
    Delivers (onBus (submission [2, 0, 64, 0, 32, 2, 2, 2, 0, 0, 0, 0, 0, 0, 0, 0]))
      (fun _ ↦ true) (reset (fun _ ↦ 0) fun _ ↦ 0) :=
  delivers (obeys_of_script (by decide +kernel))
    ⟨clean_of_script (T := 60) (by decide) (by decide +kernel) (by decide +kernel),
      Clocked.fair_true⟩

/-- A convolution and, as soon as `STATUS` allows it, another command. -/
def resubmitted : List Mmio :=
  submission [1, 0, 64, 0, 32, 4, 4, 1, 1, 3, 3, 1, 1, 0x20000, 0x20000, 0] ++
    submission [2, 0, 96, 0, 32, 2, 2, 2, 0, 0, 0, 0, 0, 0, 0, 0]

/-- `QUEUE_FULL` does not protect the window: the second submission overwrites
words the fetch has yet to read, and its own doorbell is not seen. -/
theorem not_delivers_resubmitted : ¬∀ ms pops cmdMem mem, Obeys ms pops (reset cmdMem mem) →
    Clocked.Fair pops → Delivers ms pops (reset cmdMem mem) := by
  intro h
  have hsound := (h (onBus resubmitted) (fun _ ↦ true) (fun _ ↦ 0) (fun _ ↦ 0)
    (obeys_of_script (by decide +kernel)) Clocked.fair_true).sound 60
  have hlost : ¬(run (onBus resubmitted) (fun _ ↦ true) (reset (fun _ ↦ 0) fun _ ↦ 0) 60).outcomes
      <+: (run (onBus resubmitted) (fun _ ↦ true) (reset (fun _ ↦ 0) fun _ ↦ 0) 60).expected := by
    decide +kernel
  exact hlost hsound

end Link

end LgNpu
