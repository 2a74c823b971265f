import LgNpu.Device.Submissions
import LgNpu.Lib.Fair

/-!
# Submissions return

Under a fair scheduler, with a handler that is entered when the line is raised,
every call of `lgnpu_cmd_submit` comes back.
-/

namespace LgNpu

/-- The operations left to a submission, waiting apart. -/
def SubmitPc.toGo : SubmitPc → ℕ
  | readStatus => 60
  | writeWord i => 59 - i
  | reinitCompletion => 42
  | irqEnable => 41
  | ringDoorbell => 40
  | waitForCompletion _ => 30
  | irqDisable _ _ => 24
  | unlock _ _ => 23

/-- The thread's next move where it need not wait. -/
def SubmitPc.nextMove : SubmitPc → Option Move
  | readStatus => some .thread
  | writeWord _ => some .thread
  | reinitCompletion => some .reinit
  | ringDoorbell => some .thread
  | unlock _ _ => some .unlock
  | _ => none

namespace Driven

variable (x : Driven)

/-- A move that driver and device can make. -/
structure Possible (m : Move) : Prop where
  allowed : x.Allowed m
  raised : m = .enterIsr → x.sw.irq.irqOut = true
  step : ∀ env, (x.step m env).isSome = true

/-- The thread before an access under `irq_lock`. -/
inductive Lock : ℕ → Move → Prop
  | fading (hk : x.sw.handler = .idle) (hc : x.sw.irq.clearR = true) : Lock 3 .thread
  | entered (hk : x.sw.handler = .readStatus) (hc : x.sw.irq.clearR = true) : Lock 2 .cycle
  | held (hk : x.sw.handler = .readStatus) (hc : x.sw.irq.clearR = false) : Lock 1 .isr
  | free (hk : x.sw.handler = .idle) (hc : x.sw.irq.clearR = false) : Lock 0 .thread

/-- The thread before its completion. -/
inductive Wait : ℕ → ℕ ×ₗ ℕ → Move → Prop
  | running {n} (hev : x.hw.events + 1 = x.ideal.rung)
      (hk : x.sw.handler = .idle ∨ x.sw.handler = .readStatus) (hp : x.sw.irq.pending = false)
      (hdue : Watched.Due n x.hw x.ideal) : Wait 6 n .cycle
  | raised (hk : x.sw.handler = .idle) (hp : x.sw.irq.pending = true)
      (hc : x.sw.irq.clearR = false) (hen : x.sw.irq.enable = true)
      (hev : x.hw.events = x.ideal.rung) : Wait 5 (toLex (0, 0)) .enterIsr
  | entered (hk : x.sw.handler = .readStatus) (hp : x.sw.irq.pending = true)
      (hc : x.sw.irq.clearR = false) (hev : x.hw.events = x.ideal.rung) :
      Wait 4 (toLex (0, 0)) .isr
  | seen (hk : x.sw.handler = .clear) : Wait 3 (toLex (0, 0)) .isr
  | cleared (hk : x.sw.handler = .complete) : Wait 2 (toLex (0, 0)) .complete
  | completed (hd : 0 < x.sw.done) : Wait 1 (toLex (0, 0)) .wake

/-- How far a submission is from its return, and the move that brings it
nearer. -/
inductive Stage : ℕ ×ₗ (ℕ ×ₗ (ℕ ×ₗ ℕ)) → Move → Prop
  | busy {w pc m} (hh : x.sw.holder = some (.submit w pc)) (hm : pc.nextMove = some m) :
      Stage (toLex (pc.toGo, toLex (0, toLex (0, 0)))) m
  | locking {w pc k m} (hh : x.sw.holder = some (.submit w pc)) (hpc : pc.takesIrqLock = true)
      (hk : x.Lock k m) : Stage (toLex (pc.toGo, toLex (k, toLex (0, 0)))) m
  | waiting {w c k n m} (hh : x.sw.holder = some (.submit w (.waitForCompletion c)))
      (hw : x.Wait k n m) : Stage (toLex (30, toLex (k, n))) m

variable {x} {s₀ : Sram}

theorem Calm.exists_lock (h : x.Calm) : ∃ k m, x.Lock k m := by
  rcases h.handler with hk | hk <;> cases hc : x.sw.irq.clearR
  · exact ⟨_, _, .free hk hc⟩
  · exact ⟨_, _, .fading hk hc⟩
  · exact ⟨_, _, .held hk hc⟩
  · exact ⟨_, _, .entered hk hc⟩

/-- Once the command has ended the device is not waited for. -/
theorem Sign.exists_wait (h : x.Sign) (hj : Joined x.sw x.hw x.ideal)
    (hen : x.sw.irq.enable = true) :
    ∃ k n m, x.Wait k n m ∧ (x.hw.events = x.ideal.rung → k ≤ 5) := by
  cases h with
  | none hev hk hp hc hd =>
      rcases hj.linked with hrest | ⟨n, hdue⟩
      · have := hrest.events
        omega
      · exact ⟨6, n, _, .running hev hk hp hdue, fun heq ↦ by omega⟩
  | pending hev hk hp hc hd =>
      rcases hk with hk | hk | hk
      · exact ⟨5, _, _, .raised hk hp hc hen hev, fun _ ↦ le_rfl⟩
      · exact ⟨4, _, _, .entered hk hp hc hev, fun _ ↦ by decide⟩
      · exact ⟨3, _, _, .seen hk, fun _ ↦ by decide⟩
  | cleared hev hk hp hd => exact ⟨2, _, _, .cleared hk, fun _ ↦ by decide⟩
  | completed hcalm hd => exact ⟨1, _, _, .completed (by omega), fun _ ↦ by decide⟩

/-- Who holds the lock is in some stage. -/
theorem Inv.exists_stage (h : x.Inv s₀) {w : ℕ → MmioData} {pc : SubmitPc}
    (hh : x.sw.holder = some (.submit w pc)) : ∃ i m, x.Stage (toLex (pc.toGo, i)) m := by
  cases h.phase with
  | free hh' => exact absurd (hh.symm.trans hh') (by simp)
  | asking hh' hcalm hd hpc =>
      obtain ⟨rfl, rfl⟩ := Holder.submit.inj (Option.some.inj (hh.symm.trans hh'))
      cases pc with
      | irqEnable =>
          obtain ⟨k, m, hk⟩ := hcalm.exists_lock
          exact ⟨_, _, .locking hh rfl hk⟩
      | waitForCompletion | irqDisable | unlock => exact hpc.elim
      | _ => exact ⟨_, _, .busy hh rfl⟩
  | waiting hh' hc hen hsign =>
      obtain ⟨rfl, rfl⟩ := Holder.submit.inj (Option.some.inj (hh'.symm.trans hh))
      obtain ⟨k, n, m, hw, -⟩ := hsign.exists_wait h.joined hen
      exact ⟨_, _, .waiting hh hw⟩
  | leaving hh' hpc hc hcalm hd =>
      obtain ⟨rfl, rfl⟩ := Holder.submit.inj (Option.some.inj (hh'.symm.trans hh))
      obtain ⟨k, m, hk⟩ := hcalm.exists_lock
      rcases hpc with rfl | rfl
      · exact ⟨_, _, .locking hh rfl hk⟩
      · exact ⟨_, _, .busy hh rfl⟩

/-! ## Moves -/

variable {y : Driven} {mv : Move} {env : DeviceIn} {w : ℕ → MmioData} {pc : SubmitPc}

theorem Inv.asking_lt {i : ℕ} (h : x.Inv s₀)
    (hh : x.sw.holder = some (.submit w (.writeWord i))) : i < 16 := by
  cases h.phase with
  | free hh' => exact absurd (hh.symm.trans hh') (by simp)
  | asking hh' _ _ hpc =>
      obtain ⟨rfl, rfl⟩ := Holder.submit.inj (Option.some.inj (hh'.symm.trans hh))
      exact hpc.1
  | waiting hh' =>
      exact absurd (Holder.submit.inj (Option.some.inj (hh'.symm.trans hh))).2 (by simp)
  | leaving hh' hpc =>
      obtain ⟨rfl, rfl⟩ := Holder.submit.inj (Option.some.inj (hh'.symm.trans hh))
      simp at hpc

/-- An access of the thread is an operation less. -/
theorem Inv.toGo_next (h : x.Inv s₀) (hh : x.sw.holder = some (.submit w pc)) {m : Mmio}
    (hm : pc.access w = some m) (rdata : MmioData) (rung : ℕ) :
    (pc.next rdata rung).toGo < pc.toGo := by
  cases pc with
  | readStatus =>
      rw [SubmitPc.next]
      split <;> decide
  | writeWord i =>
      have hi := h.asking_lt hh
      rw [SubmitPc.next, lgnpuCmdWords]
      split <;> simp only [SubmitPc.toGo] <;> omega
  | irqEnable => exact (by decide : 40 < 41)
  | ringDoorbell => exact (by decide : 30 < 40)
  | irqDisable => exact (by decide : 23 < 24)
  | reinitCompletion | waitForCompletion | unlock => cases hm

/-- The thread goes on, or a move of the others leaves it where it is. -/
theorem Inv.advance (h : x.Inv s₀) (hmv : x.Moved env mv y)
    (hh : x.sw.holder = some (.submit w pc)) : y.sw.holder = none ∨
      (∃ pc', y.sw.holder = some (.submit w pc') ∧ pc'.toGo < pc.toGo) ∨
      y.sw.holder = x.sw.holder ∧ (mv = .cycle ∨ mv = .enterIsr ∨ mv = .isr ∨ mv = .complete) := by
  cases hmv with
  | cycle => exact .inr (.inr ⟨rfl, .inl rfl⟩)
  | lock hh' => exact absurd (hh.symm.trans hh') (by simp)
  | thread hh' hm =>
      obtain rfl := Option.some.inj (hh.symm.trans hh')
      exact .inr (.inl ⟨_, rfl, h.toGo_next hh hm _ _⟩)
  | reinit hh' =>
      obtain ⟨rfl, rfl⟩ := Holder.submit.inj (Option.some.inj (hh.symm.trans hh'))
      exact .inr (.inl ⟨_, rfl, by decide⟩)
  | wake hh' _ =>
      obtain ⟨rfl, rfl⟩ := Holder.submit.inj (Option.some.inj (hh.symm.trans hh'))
      exact .inr (.inl ⟨_, rfl, (by decide : 24 < 30)⟩)
  | unlock => exact .inl rfl
  | unlockDma => exact .inl rfl
  | enterIsr => exact .inr (.inr ⟨rfl, .inr (.inl rfl)⟩)
  | isrRead => exact .inr (.inr ⟨rfl, .inr (.inr (.inl rfl))⟩)
  | isrClear => exact .inr (.inr ⟨rfl, .inr (.inr (.inl rfl))⟩)
  | complete => exact .inr (.inr ⟨rfl, .inr (.inr (.inr rfl))⟩)

/-- The handler comes and goes while the thread waits for `irq_lock`. -/
theorem Lock.step {k : ℕ} {m : Move} (h : x.Lock k m) (hcalm : x.Calm)
    (hj : Joined x.sw x.hw x.ideal) (hok : x.Allowed mv)
    (hraised : mv = .enterIsr → x.sw.irq.irqOut = true) (hmv : x.Moved env mv y)
    (hholder : y.sw.holder = x.sw.holder)
    (hhandler : mv = .cycle ∨ mv = .enterIsr ∨ mv = .isr ∨ mv = .complete) :
    (∃ k' m', k' < k ∧ y.Lock k' m') ∨ mv ≠ m ∧ y.Lock k m := by
  have hbus : ∀ (bm : Mmio) (hd : Option Holder) (k' : HandlerPc),
      bm.writesReg regIrqClear = false → (x.bus bm env hd k').sw.irq.clearR = false := by
    intro bm hd k' hclear
    rw [irq_bus hj]
    exact hclear
  cases hmv with
  | cycle =>
      have hc := hbus .idle x.sw.holder x.sw.handler rfl
      cases h with
      | fading hk _ => exact .inl ⟨0, _, by decide, .free hk hc⟩
      | entered hk _ => exact .inl ⟨1, _, by decide, .held hk hc⟩
      | held hk _ => exact .inr ⟨by simp, .held hk hc⟩
      | free hk _ => exact .inr ⟨by simp, .free hk hc⟩
  | enterIsr hk' =>
      cases h with
      | fading _ hc => exact .inl ⟨2, _, by decide, .entered rfl hc⟩
      | entered hk _ => exact absurd (hk'.symm.trans hk) (by decide)
      | held hk _ => exact absurd (hk'.symm.trans hk) (by decide)
      | free _ hc =>
          have hp : x.sw.irq.pending = false := hcalm.fading.resolve_right (by simp [hc])
          simp [IrqCtrl.irqOut, hp] at hraised
  | isrRead hk' =>
      have hc := hok.gap rfl hk'
      have hp : x.sw.irq.pending = false := hcalm.fading.resolve_right (by simp [hc])
      have hidle : (x.bus (.read regIrqStatus) env x.sw.holder
          (if x.sw.irq.pending then .clear else .idle)).sw.handler = .idle := by
        rw [hp]
        rfl
      have hclear := hbus (.read regIrqStatus) x.sw.holder
        (if x.sw.irq.pending then .clear else .idle) rfl
      cases h with
      | fading hk _ => exact absurd (hk'.symm.trans hk) (by decide)
      | entered _ hc' => exact absurd (hc.symm.trans hc') (by decide)
      | held _ _ => exact .inl ⟨0, _, by decide, .free hidle hclear⟩
      | free hk _ => exact absurd (hk'.symm.trans hk) (by decide)
  | isrClear hk' =>
      rcases hcalm.handler with hk | hk <;> exact absurd (hk'.symm.trans hk) (by decide)
  | complete hk' =>
      rcases hcalm.handler with hk | hk <;> exact absurd (hk'.symm.trans hk) (by decide)
  | _ => simp at hhandler

theorem Sign.running (h : x.Sign) (hne : x.hw.events ≠ x.ideal.rung) {n : ℕ ×ₗ ℕ}
    (hdue : Watched.Due n x.hw x.ideal) : x.Wait 6 n .cycle := by
  cases h with
  | none hev hk hp _ _ => exact .running hev hk hp hdue
  | pending hev => exact absurd hev hne
  | cleared hev => exact absurd hev hne
  | completed hcalm => exact absurd hcalm.answered hne

/-- While the command runs, a cycle brings its end nearer. -/
theorem Wait.bus {n : ℕ ×ₗ ℕ} {m : Mmio} {k : HandlerPc} (hdue : Watched.Due n x.hw x.ideal)
    (hm : m.Mild) (hj : Joined (x.bus m env x.sw.holder k).sw (x.bus m env x.sw.holder k).hw
      (x.bus m env x.sw.holder k).ideal) (hsign : (x.bus m env x.sw.holder k).Sign)
    (hen : (x.bus m env x.sw.holder k).sw.irq.enable = true) :
    ∃ k' n' m', toLex (k', n') < toLex (6, n) ∧ (x.bus m env x.sw.holder k).Wait k' n' m' := by
  by_cases hev : (x.bus m env x.sw.holder k).hw.events = (x.bus m env x.sw.holder k).ideal.rung
  · obtain ⟨k', n', m', hw, hle⟩ := hsign.exists_wait hj hen
    exact ⟨k', n', m', Prod.Lex.toLex_lt_toLex.mpr (.inl (Nat.lt_succ_of_le (hle hev))), hw⟩
  · rcases hdue.step (i := { env with host := m }) (hm.polite rfl _ _) with
      hrest | ⟨n', hlt, hdue'⟩
    · exact absurd hrest.events hev
    · exact ⟨6, n', _, Prod.Lex.toLex_lt_toLex.mpr (.inr ⟨rfl, hlt⟩), hsign.running hev hdue'⟩

/-- Device and handler on the way to the completion. -/
theorem Wait.step {k : ℕ} {n : ℕ ×ₗ ℕ} {m : Move} (h : x.Wait k n m)
    (hj : Joined x.sw x.hw x.ideal) (hjy : Joined y.sw y.hw y.ideal) (hsign : y.Sign)
    (hen : y.sw.irq.enable = true) (hraised : mv = .enterIsr → x.sw.irq.irqOut = true)
    (hmv : x.Moved env mv y) (hholder : y.sw.holder = x.sw.holder)
    (hothers : mv = .cycle ∨ mv = .enterIsr ∨ mv = .isr ∨ mv = .complete) :
    (∃ k' n' m', toLex (k', n') < toLex (k, n) ∧ y.Wait k' n' m') ∨ mv ≠ m ∧ y.Wait k n m := by
  cases hmv with
  | cycle =>
      have hideal : (x.bus .idle env x.sw.holder x.sw.handler).ideal = x.ideal :=
        Mmio.mild_idle.ideal_step x.ideal
      cases h with
      | running hev hk hp hdue => exact .inl (Wait.bus hdue Mmio.mild_idle hjy hsign hen)
      | raised hk hp hc _ hev =>
          refine .inr ⟨by simp, .raised hk ?_ ?_ hen ?_⟩
          · rw [irq_bus hj, IrqCtrl.step, hc, hp]
            rfl
          · rw [irq_bus hj]
            rfl
          · rw [events_bus hj hev, hideal, hev]
      | entered hk hp hc hev =>
          refine .inr ⟨by simp, .entered hk ?_ ?_ ?_⟩
          · rw [irq_bus hj, IrqCtrl.step, hc, hp]
            rfl
          · rw [irq_bus hj]
            rfl
          · rw [events_bus hj hev, hideal, hev]
      | seen hk => exact .inr ⟨by simp, .seen hk⟩
      | cleared hk => exact .inr ⟨by simp, .cleared hk⟩
      | completed hd => exact .inr ⟨by simp, .completed hd⟩
  | enterIsr hk' =>
      cases h with
      | running _ _ hp => simp [IrqCtrl.irqOut, hp] at hraised
      | raised _ hp hc _ hev =>
          exact .inl ⟨4, _, _, Prod.Lex.toLex_lt_toLex.mpr (.inl (by decide)),
            .entered rfl hp hc hev⟩
      | entered hk => exact absurd (hk'.symm.trans hk) (by decide)
      | seen hk => exact absurd (hk'.symm.trans hk) (by decide)
      | cleared hk => exact absurd (hk'.symm.trans hk) (by decide)
      | completed hd => exact .inr ⟨by simp, .completed hd⟩
  | isrRead hk' =>
      cases h with
      | running _ _ _ hdue => exact .inl (Wait.bus hdue plain_irqStatus.toMild hjy hsign hen)
      | raised hk => exact absurd (hk'.symm.trans hk) (by decide)
      | entered hk hp hc hev =>
          refine .inl ⟨3, _, _, Prod.Lex.toLex_lt_toLex.mpr (.inl (by decide)), .seen ?_⟩
          exact if_pos hp
      | seen hk => exact absurd (hk'.symm.trans hk) (by decide)
      | cleared hk => exact absurd (hk'.symm.trans hk) (by decide)
      | completed hd => exact .inr ⟨by simp, .completed hd⟩
  | isrClear hk' =>
      cases h with
      | running _ hk => rcases hk with hk | hk <;> exact absurd (hk'.symm.trans hk) (by decide)
      | raised hk => exact absurd (hk'.symm.trans hk) (by decide)
      | entered hk => exact absurd (hk'.symm.trans hk) (by decide)
      | seen => exact .inl ⟨2, _, _, Prod.Lex.toLex_lt_toLex.mpr (.inl (by decide)), .cleared rfl⟩
      | cleared hk => exact absurd (hk'.symm.trans hk) (by decide)
      | completed hd => exact .inr ⟨by simp, .completed hd⟩
  | complete hk' =>
      cases h with
      | running _ hk => rcases hk with hk | hk <;> exact absurd (hk'.symm.trans hk) (by decide)
      | raised hk => exact absurd (hk'.symm.trans hk) (by decide)
      | entered hk => exact absurd (hk'.symm.trans hk) (by decide)
      | seen hk => exact absurd (hk'.symm.trans hk) (by decide)
      | cleared hk =>
          exact .inl ⟨1, _, _, Prod.Lex.toLex_lt_toLex.mpr (.inl (by decide)),
            .completed (Nat.succ_pos _)⟩
      | completed hd => exact .inr ⟨by simp, .completed (Nat.lt_succ_of_lt hd)⟩
  | _ => simp at hothers

theorem Inv.calm (h : x.Inv s₀) (hh : x.sw.holder = some (.submit w pc))
    (hpc : pc.takesIrqLock = true) : x.Calm := by
  cases h.phase with
  | free _ hcalm => exact hcalm
  | asking _ hcalm => exact hcalm
  | leaving _ _ _ hcalm => exact hcalm
  | waiting hh' =>
      obtain ⟨rfl, rfl⟩ := Holder.submit.inj (Option.some.inj (hh.symm.trans hh'))
      cases hpc

theorem Inv.sign {c : ℕ} (h : x.Inv s₀)
    (hh : x.sw.holder = some (.submit w (.waitForCompletion c))) :
    x.sw.irq.enable = true ∧ x.Sign := by
  cases h.phase with
  | free hh' => exact absurd (hh.symm.trans hh') (by simp)
  | asking hh' _ _ hpc =>
      obtain ⟨rfl, rfl⟩ := Holder.submit.inj (Option.some.inj (hh.symm.trans hh'))
      exact hpc.elim
  | waiting _ _ hen hsign => exact ⟨hen, hsign⟩
  | leaving hh' hpc =>
      obtain ⟨rfl, rfl⟩ := Holder.submit.inj (Option.some.inj (hh.symm.trans hh'))
      simp at hpc

/-- A stage is left downwards, or its helpful move has not been made. -/
theorem Stage.step {i : ℕ ×ₗ (ℕ ×ₗ (ℕ ×ₗ ℕ))} {m : Move} (h : x.Stage i m) (hinv : x.Inv s₀)
    (hy : y.Inv s₀) (hok : x.Allowed mv) (hraised : mv = .enterIsr → x.sw.irq.irqOut = true)
    (hmv : x.Moved env mv y) : y.sw.holder = none ∨ (∃ j m', j < i ∧ y.Stage j m') ∨
      mv ≠ m ∧ y.Stage i m := by
  cases h with
  | busy hh hm =>
      rcases hinv.advance hmv hh with hnone | ⟨pc', hpc', hlt⟩ | ⟨hsame, hothers⟩
      · exact .inl hnone
      · obtain ⟨j, m', hstage⟩ := hy.exists_stage hpc'
        exact .inr (.inl ⟨_, m', Prod.Lex.toLex_lt_toLex.mpr (.inl hlt), hstage⟩)
      · refine .inr (.inr ⟨?_, .busy (hsame.trans hh) hm⟩)
        rintro rfl
        rename_i pc
        rcases hothers with rfl | rfl | rfl | rfl <;> cases pc <;> cases hm
  | locking hh hpc hk =>
      rcases hinv.advance hmv hh with hnone | ⟨pc', hpc', hlt⟩ | ⟨hsame, hothers⟩
      · exact .inl hnone
      · obtain ⟨j, m', hstage⟩ := hy.exists_stage hpc'
        exact .inr (.inl ⟨_, m', Prod.Lex.toLex_lt_toLex.mpr (.inl hlt), hstage⟩)
      · rcases hk.step (hinv.calm hh hpc) hinv.joined hok hraised hmv hsame hothers with
          ⟨k', m', hlt, hk'⟩ | ⟨hne, hk'⟩
        · refine .inr (.inl ⟨_, m', ?_, .locking (hsame.trans hh) hpc hk'⟩)
          exact Prod.Lex.toLex_lt_toLex.mpr (.inr ⟨rfl, Prod.Lex.toLex_lt_toLex.mpr (.inl hlt)⟩)
        · exact .inr (.inr ⟨hne, .locking (hsame.trans hh) hpc hk'⟩)
  | waiting hh hw =>
      rcases hinv.advance hmv hh with hnone | ⟨pc', hpc', hlt⟩ | ⟨hsame, hothers⟩
      · exact .inl hnone
      · obtain ⟨j, m', hstage⟩ := hy.exists_stage hpc'
        exact .inr (.inl ⟨_, m', Prod.Lex.toLex_lt_toLex.mpr (.inl hlt), hstage⟩)
      · obtain ⟨hen, hsign⟩ := hy.sign (hsame.trans hh)
        rcases hw.step hinv.joined hy.joined hsign hen hraised hmv hsame hothers with
          ⟨k', n', m', hlt, hw'⟩ | ⟨hne, hw'⟩
        · refine .inr (.inl ⟨_, m', ?_, .waiting (hsame.trans hh) hw'⟩)
          exact Prod.Lex.toLex_lt_toLex.mpr (.inr ⟨rfl, hlt⟩)
        · exact .inr (.inr ⟨hne, .waiting (hsame.trans hh) hw'⟩)

/-! ## What is possible -/

theorem thread_isSome {k : Holder} {m : Mmio} (hh : x.sw.holder = some k)
    (hm : k.access = some m) (hlock : (k.takesIrqLock && x.sw.handler.locked) = false) :
    (x.step .thread env).isSome = true := by
  have ha : Move.access x.sw .thread = some m := by rw [Move.access, hh]; exact hm
  have hends := canEnd x.sw x.hw.dev.event
  simp [Driven.step, ha, Move.act, DriverSys.step, hends, DriverSys.threadStep, hh, hm, hlock]

theorem isr_isSome (hk : x.sw.handler = .readStatus ∨ x.sw.handler = .clear) :
    (x.step .isr env).isSome = true := by
  have hends := canEnd x.sw x.hw.dev.event
  rcases hk with hk | hk <;>
    simp [Driven.step, Move.access, Move.act, DriverSys.step, hends, DriverSys.isrStep, hk]

theorem cycle_isSome : (x.step .cycle env).isSome = true := by
  have hends := canEnd x.sw x.hw.dev.event
  simp [Driven.step, Move.access, Move.act, DriverSys.step, hends]

theorem possible_of_step {m : Move} (hisr : m ≠ .isr) (hlock : ∀ w, m ≠ .lockSubmit w)
    (henter : m ≠ .enterIsr) (h : ∀ env, (x.step m env).isSome = true) : x.Possible m :=
  ⟨⟨fun heq ↦ absurd heq hisr, fun w heq ↦ absurd heq (hlock w)⟩, fun heq ↦ absurd heq henter, h⟩

theorem isr_possible (hk : x.sw.handler = .readStatus ∧ x.sw.irq.clearR = false ∨
    x.sw.handler = .clear) : x.Possible .isr := by
  refine ⟨⟨fun _ hr ↦ ?_, by simp⟩, by simp, fun env ↦ isr_isSome (hk.imp_left (·.1))⟩
  rcases hk with ⟨-, hc⟩ | hk
  · exact hc
  · exact absurd (hk.symm.trans hr) (by decide)

theorem cycle_possible : x.Possible .cycle :=
  possible_of_step (by simp) (by simp) (by simp) fun _ ↦ cycle_isSome

theorem Lock.possible {k : ℕ} {m : Move} (h : x.Lock k m)
    (hh : x.sw.holder = some (.submit w pc)) (hpc : pc.takesIrqLock = true) : x.Possible m := by
  obtain ⟨bm, hbm⟩ : ∃ bm, pc.access w = some bm := by
    cases pc with
    | irqEnable => exact ⟨_, rfl⟩
    | irqDisable => exact ⟨_, rfl⟩
    | _ => cases hpc
  have hthread : x.sw.handler = .idle → x.Possible .thread := fun hk ↦
    possible_of_step (by simp) (by simp) (by simp) fun _ ↦
      thread_isSome hh hbm (by simp [hk, HandlerPc.locked])
  cases h with
  | fading hk => exact hthread hk
  | entered => exact cycle_possible
  | held hk hc => exact isr_possible (.inl ⟨hk, hc⟩)
  | free hk => exact hthread hk

theorem Wait.possible {k c : ℕ} {n : ℕ ×ₗ ℕ} {m : Move} (h : x.Wait k n m)
    (hh : x.sw.holder = some (.submit w (.waitForCompletion c))) : x.Possible m := by
  cases h with
  | running => exact cycle_possible
  | raised hk hp _ hen =>
      refine ⟨⟨by simp, by simp⟩, fun _ ↦ by rw [IrqCtrl.irqOut, hp, hen]; rfl, fun env ↦ ?_⟩
      simp [Driven.step, Move.access, Move.act, DriverSys.step, hk]
  | entered hk _ hc => exact isr_possible (.inl ⟨hk, hc⟩)
  | seen hk => exact isr_possible (.inr hk)
  | cleared hk =>
      refine possible_of_step (by simp) (by simp) (by simp) fun env ↦ ?_
      simp [Driven.step, Move.access, Move.act, DriverSys.step, hk]
  | completed hd =>
      refine possible_of_step (by simp) (by simp) (by simp) fun env ↦ ?_
      simp [Driven.step, Move.access, Move.act, DriverSys.step, DriverSys.waitStep, hh, hd]

theorem Stage.possible {i : ℕ ×ₗ (ℕ ×ₗ (ℕ ×ₗ ℕ))} {m : Move} (h : x.Stage i m) :
    x.Possible m := by
  cases h with
  | locking hh hpc hk => exact hk.possible hh hpc
  | waiting hh hw => exact hw.possible hh
  | busy hh hm =>
      rename_i w pc
      cases pc with
      | readStatus | writeWord | ringDoorbell =>
          cases hm
          exact possible_of_step (by simp) (by simp) (by simp) fun _ ↦ thread_isSome hh rfl rfl
      | reinitCompletion =>
          cases hm
          refine possible_of_step (by simp) (by simp) (by simp) fun env ↦ ?_
          simp [Driven.step, Move.access, Move.act, DriverSys.step, DriverSys.reinitStep, hh]
      | unlock cmd ret =>
          cases hm
          refine possible_of_step (by simp) (by simp) (by simp) fun env ↦ ?_
          simp [Driven.step, Move.access, Move.act, DriverSys.step, DriverSys.unlockStep, hh]
      | irqEnable | waitForCompletion | irqDisable => cases hm

theorem Stage.ne_lockSubmit {i : ℕ ×ₗ (ℕ ×ₗ (ℕ ×ₗ ℕ))} {m : Move} (h : x.Stage i m) :
    m ≠ .lockSubmit w := by
  cases h with
  | busy hh hm =>
      rename_i w' pc
      cases pc <;> cases hm <;> simp
  | locking _ _ hk => cases hk <;> simp
  | waiting _ hw => cases hw <;> simp

/-! ## Fair runs -/

/-- Threads, handler and device run for ever; the handler is entered when the
line is raised, and what stays possible is done, submissions apart. -/
structure FairRun (x₀ : Driven) (xs : ℕ → Driven) (ms : ℕ → Move) (envs : ℕ → DeviceIn) :
    Prop where
  start : x₀.Reached (xs 0)
  allowed : ∀ n, (xs n).Allowed (ms n)
  raised : ∀ n, ms n = .enterIsr → (xs n).sw.irq.irqOut = true
  step : ∀ n, (xs n).step (ms n) (envs n) = some (xs (n + 1))
  fair : ∀ m, (∀ w, m ≠ .lockSubmit w) → Fair.Weakly Possible xs ms m

section

variable {x₀ : Driven} {xs : ℕ → Driven} {ms : ℕ → Move} {envs : ℕ → DeviceIn}
  (h : FairRun x₀ xs ms envs)
include h

theorem FairRun.reached (n : ℕ) : x₀.Reached (xs n) := by
  induction n with
  | zero => exact h.start
  | succ n ih => exact ih.step (h.allowed n) (h.step n)

theorem FairRun.helps : Fair.Helps (· < ·) Possible xs ms (fun i m x ↦ x.Stage i m)
    fun x ↦ x.sw.holder = none where
  enabled _ _ _ hs := hs.possible
  step n _ _ hs := hs.step (h.reached n).inv (h.reached (n + 1)).inv (h.allowed n) (h.raised n)
    (moved (h.step n))

theorem FairRun.submitted_le {n k : ℕ} (hk : n ≤ k) :
    (xs n).submitted.length ≤ (xs k).submitted.length := by
  induction k, hk using Nat.le_induction with
  | base => exact le_rfl
  | succ k hk ih =>
      refine ih.trans ?_
      have hmv := moved (h.step k)
      generalize xs (k + 1) = y, ms k = mv at hmv
      cases hmv with
      | lock => exact (List.length_append ▸ Nat.le_add_right _ _)
      | _ => exact le_rfl

theorem FairRun.released (n : ℕ) : ∃ k, n ≤ k ∧ (xs k).sw.holder = none := by
  have hinv := (h.reached n).inv
  cases hholder : (xs n).sw.holder with
  | none => exact ⟨n, le_rfl, hholder⟩
  | some k =>
      obtain ⟨w, pc, rfl⟩ : ∃ w pc, k = .submit w pc := by
        cases hinv.phase with
        | free hh => exact absurd (hholder.symm.trans hh) (by simp)
        | asking hh => exact ⟨_, _, Option.some.inj (hholder.symm.trans hh)⟩
        | waiting hh => exact ⟨_, _, Option.some.inj (hholder.symm.trans hh)⟩
        | leaving hh => exact ⟨_, _, Option.some.inj (hholder.symm.trans hh)⟩
      obtain ⟨i, m, hstage⟩ := hinv.exists_stage hholder
      refine h.helps.eventually wellFounded_lt (fun u j m' hs ↦ h.fair m' ?_) hstage
      rintro w' rfl
      exact hs.ne_lockSubmit rfl

/-- Every submission returns 0. -/
theorem submissions_return (n : ℕ) : ∃ k, n ≤ k ∧ ∃ r, (xs k).sw.returned = okReturns r ∧
    (xs n).submitted.length ≤ r := by
  obtain ⟨k, hk, hnone⟩ := h.released n
  have hinv := (h.reached k).inv
  cases hinv.phase with
  | free _ _ _ hbooks hret =>
      refine ⟨k, hk, _, hret, ?_⟩
      rw [hbooks.rung]
      exact h.submitted_le hk
  | asking hh => exact absurd (hh.symm.trans hnone) (by simp)
  | waiting hh => exact absurd (hh.symm.trans hnone) (by simp)
  | leaving hh => exact absurd (hh.symm.trans hnone) (by simp)

end

/-! ### A scheduler -/

/-- Every move but a submission in turn. -/
def turn (n : ℕ) : Move :=
  [.cycle, .thread, .reinit, .wake, .unlock, .enterIsr, .isr, .complete].getD (n % 8) .cycle

open Classical in
noncomputable def turnOf (x : Driven) (n : ℕ) : Move :=
  if x.Possible (turn n) then turn n else .cycle

noncomputable def turnsFrom (envs : ℕ → DeviceIn) (x : Driven) : ℕ → Driven
  | 0 => x
  | n + 1 => ((turnsFrom envs x n).step ((turnsFrom envs x n).turnOf n) (envs n)).getD x

theorem turnOf_cases (x : Driven) (n : ℕ) : x.Possible (turn n) ∧ x.turnOf n = turn n ∨
    x.turnOf n = .cycle := by
  rw [turnOf]
  split
  · next h => exact .inl ⟨h, rfl⟩
  · exact .inr rfl

theorem possible_turnOf (x : Driven) (n : ℕ) : x.Possible (x.turnOf n) := by
  rcases x.turnOf_cases n with ⟨h, heq⟩ | heq <;> rw [heq]
  · exact h
  · exact cycle_possible

theorem exists_turn {m : Move} (h : ∀ w, m ≠ .lockSubmit w) (n : ℕ) : ∃ k, n ≤ k ∧ turn k = m := by
  obtain ⟨i, hi, hm⟩ : ∃ i < 8, turn i = m := by
    cases m with
    | lockSubmit w => exact absurd rfl (h w)
    | cycle => exact ⟨0, by decide, rfl⟩
    | thread => exact ⟨1, by decide, rfl⟩
    | reinit => exact ⟨2, by decide, rfl⟩
    | wake => exact ⟨3, by decide, rfl⟩
    | unlock => exact ⟨4, by decide, rfl⟩
    | enterIsr => exact ⟨5, by decide, rfl⟩
    | isr => exact ⟨6, by decide, rfl⟩
    | complete => exact ⟨7, by decide, rfl⟩
  refine ⟨8 * n + i, by omega, ?_⟩
  rw [← hm, turn, turn, Nat.mul_add_mod]

theorem fairRun_turns {x₀ : Driven} (hx : x₀.Reached x) (envs : ℕ → DeviceIn) :
    FairRun x₀ (turnsFrom envs x) (fun n ↦ (turnsFrom envs x n).turnOf n) envs where
  start := hx
  allowed n := ((turnsFrom envs x n).possible_turnOf n).allowed
  raised n := ((turnsFrom envs x n).possible_turnOf n).raised
  step n := by
    have hsome := ((turnsFrom envs x n).possible_turnOf n).step (envs n)
    obtain ⟨y, hy⟩ := Option.isSome_iff_exists.mp hsome
    rw [turnsFrom, hy]
    rfl
  fair m hm n hposs := by
    obtain ⟨k, hk, hturn⟩ := exists_turn hm n
    refine ⟨k, hk, ?_⟩
    have hpos := hposs k hk
    rw [← hturn] at hpos ⊢
    exact if_pos hpos

theorem submissions_return_oneVec : ∃ xs ms envs, FairRun oneVec xs ms envs ∧
    (xs 0).submitted = [descOf oneVecWords] ∧
      ∃ k r, (xs k).sw.returned = okReturns r ∧ 1 ≤ r := by
  have hlock : oneVec.Reached _ := @Reached.step oneVec oneVec _ (.lockSubmit oneVecWords)
    ⟨.idle, ⟨false, 0, false⟩, 0, 0, 0⟩ (.start start_oneVec)
    ⟨nofun, fun w hw ↦ by cases hw; exact servable_oneVec⟩ rfl
  have hfair := fairRun_turns hlock fun _ ↦ ⟨.idle, ⟨false, 0, false⟩, 0, 0, 0⟩
  obtain ⟨k, -, r, hret, hle⟩ := submissions_return hfair 0
  exact ⟨_, _, _, hfair, rfl, k, r, hret, hle⟩

end Driven

end LgNpu
