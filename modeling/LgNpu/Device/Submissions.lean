import LgNpu.Device.Driven

/-!
# Submissions are correct

Every move of threads, handler and device keeps the course of a submission, from
the lock to the return.
-/

namespace LgNpu

namespace Driven

variable {s₀ : Sram} {x : Driven} {m : Mmio} {env : DeviceIn} {holder : Option Holder}
  {k : HandlerPc}

/-! ## Every move keeps the invariant -/

theorem Books.bus {ds : List NpuCmdDesc} (h : x.Books s₀ ds) (hm : m.Mild) :
    (x.bus m env holder k).Books s₀ ds := by
  have hideal : (x.bus m env holder k).ideal = x.ideal := hm.ideal_step x.ideal
  exact ⟨by rw [hideal]; exact h.rung, by rw [hideal]; exact h.sram⟩

theorem Asking.bus {w : ℕ → MmioData} {pc : SubmitPc} (h : x.Asking w pc) (hcalm : x.Calm)
    (hj : Joined x.sw x.hw x.ideal) (hm : m.Plain) : (x.bus m env holder k).Asking w pc := by
  have hideal : (x.bus m env holder k).ideal = x.ideal := hm.ideal_step x.ideal
  have hpending : (x.bus m env holder k).sw.irq.pending = false := hcalm.pending_bus hj
  have hquiet : (x.bus m env holder k).hw.quiet = x.hw.quiet + 1 := quiet_bus hj hcalm.answered
  have hirq : (x.bus m env holder k).sw.irq = x.sw.irq.step m x.hw.dev.event := irq_bus hj
  have henable : (x.bus m env holder k).sw.irq.enable = x.sw.irq.enable := by
    rw [hirq, IrqCtrl.step, hm.noEnable]
    rfl
  cases pc with
  | readStatus => trivial
  | writeWord i =>
      obtain ⟨hi, hq, -, hw⟩ := h
      exact ⟨hi, by omega, hpending, by rwa [hideal]⟩
  | reinitCompletion =>
      obtain ⟨hq, -, hw⟩ := h
      exact ⟨by omega, hpending, by rwa [hideal]⟩
  | irqEnable =>
      obtain ⟨hq, -, hw⟩ := h
      exact ⟨by omega, hpending, by rwa [hideal]⟩
  | ringDoorbell =>
      obtain ⟨hq, -, hw, he⟩ := h
      exact ⟨by omega, hpending, by rwa [hideal], by rwa [henable]⟩
  | waitForCompletion | irqDisable | unlock => exact h

/-- A cycle in which the thread stays where it is. -/
theorem Inv.plain (h : x.Inv s₀) (hm : m.Plain) (hk : x.Reads k) :
    (x.bus m env x.sw.holder k).Inv s₀ := by
  have hj := h.joined
  have hideal : (x.bus m env x.sw.holder k).ideal = x.ideal := hm.ideal_step x.ideal
  refine ⟨hj.bus (hm.polite rfl _ _) hm.noBuf hm.noDma, ?_⟩
  cases h.phase with
  | free hh hcalm hd hbooks hret =>
      refine .free hh (hcalm.bus hj hm.noRing (hcalm.reads hk)) hd (hbooks.bus hm.toMild) ?_
      rw [hideal]
      exact hret
  | asking hh hcalm hd hpc hok hsub hbooks hret =>
      refine .asking hh (hcalm.bus hj hm.noRing (hcalm.reads hk)) hd (hpc.bus hcalm hj hm) ?_ hsub
        (hbooks.bus hm.toMild) ?_
      · rwa [hideal]
      · rw [hideal]
        exact hret
  | waiting hh hc hen hsign hbooks hret =>
      refine .waiting hh ?_ ?_ (hsign.bus hj hm hk) (hbooks.bus hm.toMild) hret
      · rwa [hideal]
      · rw [irq_bus hj, IrqCtrl.step, hm.noEnable]
        exact hen
  | leaving hh hpc hc hcalm hd hbooks hret =>
      refine .leaving hh hpc ?_ (hcalm.bus hj hm.noRing (hcalm.reads hk)) hd
        (hbooks.bus hm.toMild) hret
      rwa [hideal]

/-- The handler clears the pending bit. -/
theorem Inv.isrClear (h : x.Inv s₀) (hk : x.sw.handler = .clear) :
    (x.bus (.write regIrqClear 1) env x.sw.holder .complete).Inv s₀ := by
  have hj := h.joined
  have hmild : Mmio.Mild (.write regIrqClear 1) := ⟨nofun, rfl, rfl, rfl, rfl⟩
  have hideal : (x.bus (.write regIrqClear 1) env x.sw.holder .complete).ideal = x.ideal :=
    hmild.ideal_step x.ideal
  have hnot : ¬x.Calm := fun hcalm ↦ by
    rcases hcalm.handler with hi | hr
    · exact absurd (hk.symm.trans hi) (by decide)
    · exact absurd (hk.symm.trans hr) (by decide)
  refine ⟨hj.bus (hmild.polite rfl _ _) hmild.noBuf hmild.noDma, ?_⟩
  cases h.phase with
  | free _ hcalm => exact absurd hcalm hnot
  | asking _ hcalm => exact absurd hcalm hnot
  | leaving _ _ _ hcalm => exact absurd hcalm hnot
  | waiting hh hc hen hsign hbooks hret =>
      refine .waiting hh ?_ ?_ ?_ (hbooks.bus hmild) hret
      · rwa [hideal]
      · rw [irq_bus hj]
        exact hen
      · cases hsign with
        | none _ hi => simp [hk] at hi
        | cleared _ hcomp => exact absurd (hk.symm.trans hcomp) (by decide)
        | completed hcalm => exact absurd hcalm hnot
        | pending hev _ _ _ hd =>
            refine .cleared ?_ rfl (.inr ?_) hd
            · rw [events_bus hj hev, hideal, hev]
            · rw [irq_bus hj]
              rfl

/-- The bus cycle of a word of the descriptor. -/
theorem windowWrite {i : ℕ} (hi : i < 16) (d : MmioData) :
    let m := Mmio.write (cmdQueueBase + .ofNat 20 (4 * i)) d
    (m.writes && m.isCmdQueue) = true ∧
      windowIdx (cmdQueueBase + .ofNat 20 (4 * i)) = .ofNat 4 i ∧ m.rings = false ∧
      (m.valid && m.isBuf) = false ∧ m.startsDma = false ∧ m.writesReg regCtrl = false := by
  interval_cases i <;> exact ⟨rfl, rfl, rfl, rfl, rfl, rfl⟩

/-- A word more, or the last one. -/
theorem window_succ {i : ℕ} {w : ℕ → MmioData} {f : NpuCmdDesc} (hi : i < 16)
    (h : ∀ j < i, f (.ofNat 4 j) = w j) :
    ∀ j < i + 1, Function.update f (.ofNat 4 i) (w i) (.ofNat 4 j) = w j := by
  intro j hj
  rcases Nat.lt_succ_iff_lt_or_eq.mp hj with hlt | rfl
  · rw [Function.update_of_ne, h j hlt]
    intro heq
    have hnat := congrArg BitVec.toNat heq
    simp only [BitVec.toNat_ofNat] at hnat
    omega
  · exact Function.update_self _ _ _

theorem eq_descOf {w : ℕ → MmioData} {f : NpuCmdDesc} (h : ∀ j < 16, f (.ofNat 4 j) = w j) :
    f = descOf w := by
  funext i
  rw [descOf, ← h i.toNat i.isLt, BitVec.ofNat_toNat, BitVec.setWidth_eq]

section Thread

variable {w : ℕ → MmioData} {ds : List NpuCmdDesc} (hj : Joined x.sw x.hw x.ideal)
  (hcalm : x.Calm) (hd : x.sw.done = 0) (hok : x.ideal.sram.Servable (descOf w))
  (hsub : x.submitted = ds ++ [descOf w]) (hbooks : x.Books s₀ ds)
  (hret : x.sw.returned = okReturns x.ideal.rung)
include hj hcalm hd hok hsub hbooks hret

theorem Inv.writeWord {i : ℕ} (h : x.Asking w (.writeWord i)) : (x.bus
    (.write (cmdQueueBase + .ofNat 20 (4 * i)) (w i)) env
    (some (.submit w (if i + 1 < 16 then .writeWord (i + 1) else .reinitCompletion)))
    x.sw.handler).Inv s₀ := by
  obtain ⟨hi, hq, hp, hw⟩ := h
  obtain ⟨hwin, hidx, hrings, hbuf, hdma, hctrl⟩ := windowWrite hi (w i)
  set m := Mmio.write (cmdQueueBase + .ofNat 20 (4 * i)) (w i) with hm
  have hpolite : Polite { env with host := m } x.hw x.ideal :=
    ⟨fun hr ↦ absurd (hctrl.symm.trans hr) Bool.false_ne_true, hdma, fun _ ↦ hcalm.answered,
      fun hr ↦ absurd (hrings.symm.trans hr) Bool.false_ne_true,
      fun hb ↦ absurd (hbuf.symm.trans hb) Bool.false_ne_true⟩
  have hsram : (x.ideal.step m).sram = x.ideal.sram := Ideal.sram_step hrings hbuf
  have hrung : (x.ideal.step m).rung = x.ideal.rung := Ideal.rung_step hrings
  have hwindow : (x.ideal.step m).window = Function.update x.ideal.window (.ofNat 4 i) (w i) := by
    rw [← hidx]
    exact if_pos hwin
  have hpending : ∀ holder, (x.bus m env holder x.sw.handler).sw.irq.pending = false :=
    fun _ ↦ hcalm.pending_bus hj
  have hquiet : ∀ holder, (x.bus m env holder x.sw.handler).hw.quiet = x.hw.quiet + 1 :=
    fun _ ↦ quiet_bus hj hcalm.answered
  have hnext := window_succ hi hw
  rw [← hwindow] at hnext
  refine ⟨hj.bus hpolite hbuf hdma, .asking rfl (hcalm.bus hj hrings hcalm.handler) hd ?_ ?_ hsub
    ⟨hrung.trans hbooks.rung, hsram.trans hbooks.sram⟩ ?_⟩
  · split
    · next hlt => exact ⟨hlt, by rw [hquiet]; omega, hpending _, hnext⟩
    · next hge =>
        obtain rfl : i = 15 := by omega
        exact ⟨by rw [hquiet]; omega, hpending _, eq_descOf hnext⟩
  · change (x.ideal.step m).sram.Servable _
    rwa [hsram]
  · change _ = okReturns (x.ideal.step m).rung
    rw [hrung]
    exact hret

theorem Inv.irqEnable (h : x.Asking w .irqEnable) : (x.bus (.write regIrqEnable 1) env
    (some (.submit w .ringDoorbell)) x.sw.handler).Inv s₀ := by
  obtain ⟨hq, hp, hw⟩ := h
  have hmild : Mmio.Mild (.write regIrqEnable 1) := ⟨nofun, rfl, rfl, rfl, rfl⟩
  have hideal : x.ideal.step (.write regIrqEnable 1) = x.ideal := hmild.ideal_step _
  refine ⟨hj.bus (hmild.polite rfl _ _) hmild.noBuf hmild.noDma,
    .asking rfl (hcalm.bus hj rfl hcalm.handler) hd ⟨?_, hcalm.pending_bus hj, ?_, ?_⟩ ?_ hsub
      (hbooks.bus hmild) ?_⟩
  · rw [quiet_bus hj hcalm.answered]
    omega
  · exact (congrArg Ideal.window hideal).trans hw
  · rw [irq_bus hj]
    rfl
  · change (x.ideal.step _).sram.Servable _
    rwa [hideal]
  · change _ = okReturns (x.ideal.step _).rung
    rw [hideal]
    exact hret

theorem Inv.ringDoorbell (h : x.Asking w .ringDoorbell) : (x.bus (.write regDoorbell 1) env
    (some (.submit w (.waitForCompletion x.sw.rung))) x.sw.handler).Inv s₀ := by
  obtain ⟨hq, hp, hw, hen⟩ := h
  have hpolite : Polite { env with host := .write regDoorbell 1 } x.hw x.ideal :=
    ⟨nofun, rfl, nofun, fun _ ↦ ⟨hcalm.answered, by omega, by rw [hw]; exact hok⟩, nofun⟩
  have hideal : x.ideal.step (.write regDoorbell 1) =
      ⟨x.ideal.sram.exec x.ideal.window, x.ideal.window, x.ideal.rung + 1⟩ :=
    Ideal.step_of_rings rfl
  refine ⟨hj.bus hpolite rfl rfl, .waiting rfl ?_ ?_ (.none ?_ hcalm.handler ?_ ?_ hd) ⟨?_, ?_⟩ ?_⟩
  · change (x.ideal.step _).rung = _
    rw [hideal, hj.rung]
  · rw [irq_bus hj]
    exact hen
  · rw [events_bus hj hcalm.answered, hcalm.answered]
    change _ = (x.ideal.step _).rung
    rw [hideal]
  · exact hcalm.pending_bus hj
  · rw [irq_bus hj]
    rfl
  · change (x.ideal.step _).rung = x.submitted.length
    rw [hideal, hsub, hbooks.rung, List.length_append]
    rfl
  · change (x.ideal.step _).sram = x.submitted.foldl _ _
    rw [hideal, hsub, List.foldl_append, ← hbooks.sram, hw]
    rfl
  · rw [hj.rung]
    exact hret

end Thread

/-- The interrupt is disabled again. -/
theorem Inv.irqDisable {w : ℕ → MmioData} {c : ℕ} (h : x.Inv s₀)
    (hh : x.sw.holder = some (.submit w (.irqDisable c .ok))) : (x.bus (.write regIrqEnable 0) env
      (some (.submit w (.unlock (some c) .ok))) x.sw.handler).Inv s₀ := by
  have hj := h.joined
  have hmild : Mmio.Mild (.write regIrqEnable 0) := ⟨nofun, rfl, rfl, rfl, rfl⟩
  have hideal : x.ideal.step (.write regIrqEnable 0) = x.ideal := hmild.ideal_step _
  refine ⟨hj.bus (hmild.polite rfl _ _) hmild.noBuf hmild.noDma, ?_⟩
  cases h.phase with
  | free hh' => exact absurd (hh.symm.trans hh') (by simp)
  | asking hh' _ _ hpc =>
      obtain ⟨rfl, rfl⟩ := Holder.submit.inj (Option.some.inj (hh'.symm.trans hh))
      exact hpc.elim
  | waiting hh' =>
      exact absurd (Holder.submit.inj (Option.some.inj (hh'.symm.trans hh))).2 (by simp)
  | leaving hh' hpc hc hcalm hd hbooks hret =>
      obtain ⟨rfl, rfl⟩ := Holder.submit.inj (Option.some.inj (hh'.symm.trans hh))
      rcases hpc with hpc | hpc
      · cases hpc
        refine .leaving rfl (.inr rfl) ?_ (hcalm.bus hj rfl hcalm.handler) hd (hbooks.bus hmild)
          hret
        change (x.ideal.step _).rung = _
        rwa [hideal]
      · cases hpc

/-- The thread reads `STATUS` and finds room. -/
theorem Inv.readStatus {w : ℕ → MmioData} (h : x.Inv s₀)
    (hh : x.sw.holder = some (.submit w .readStatus)) : (x.bus (.read regStatus) env
      (some (.submit w (SubmitPc.next
        (x.hw.dev.mmioRdata { env with host := .read regStatus }) x.sw.rung .readStatus)))
      x.sw.handler).Inv s₀ := by
  have hj := h.joined
  have hm := plain_status
  have hideal : (x.bus (.read regStatus) env x.sw.holder x.sw.handler).ideal = x.ideal :=
    hm.ideal_step x.ideal
  refine ⟨hj.bus (hm.polite rfl _ _) hm.noBuf hm.noDma, ?_⟩
  cases h.phase with
  | free hh' => exact absurd (hh.symm.trans hh') (by simp)
  | waiting hh' =>
      exact absurd (Holder.submit.inj (Option.some.inj (hh'.symm.trans hh))).2 (by simp)
  | leaving hh' hpc =>
      obtain ⟨rfl, rfl⟩ := Holder.submit.inj (Option.some.inj (hh'.symm.trans hh))
      simp at hpc
  | asking hh' hcalm hd _ hok hsub hbooks hret =>
      obtain ⟨rfl, rfl⟩ := Holder.submit.inj (Option.some.inj (hh'.symm.trans hh))
      have hnext := @Joined.status _ _ _ env hj hcalm.answered
      rw [SubmitPc.next, hnext, if_neg Bool.false_ne_true]
      refine .asking rfl (hcalm.bus hj rfl hcalm.handler) hd ⟨by decide, ?_, hcalm.pending_bus hj,
        fun j hlt ↦ absurd hlt (Nat.not_lt_zero j)⟩ ?_ hsub (hbooks.bus hm.toMild) ?_
      · rw [quiet_bus hj hcalm.answered]
        exact Nat.succ_pos _
      · change (x.ideal.step _).sram.Servable _
        rwa [hm.ideal_step]
      · change _ = okReturns (x.ideal.step _).rung
        rw [hm.ideal_step]
        exact hret

/-- An access of the thread. -/
theorem Inv.thread {h' : Holder} (h : x.Inv s₀) (hh : x.sw.holder = some h')
    (hm : h'.access = some m) : (x.bus m env
      (some (h'.next (x.hw.dev.mmioRdata { env with host := m }) x.sw.rung)) x.sw.handler).Inv
        s₀ := by
  have hj := h.joined
  cases h.phase with
  | free hh' => exact absurd (hh.symm.trans hh') (by simp)
  | waiting hh' =>
      obtain rfl := Option.some.inj (hh'.symm.trans hh)
      cases hm
  | leaving hh' hpc =>
      obtain rfl := Option.some.inj (hh'.symm.trans hh)
      rcases hpc with rfl | rfl
      · obtain rfl := Option.some.inj hm
        exact h.irqDisable hh
      · cases hm
  | asking hh' hcalm hd hpc hok hsub hbooks hret =>
      obtain rfl := Option.some.inj (hh'.symm.trans hh)
      rename_i w pc ds
      cases pc with
      | readStatus =>
          obtain rfl := Option.some.inj hm
          exact h.readStatus hh
      | writeWord i =>
          obtain rfl := Option.some.inj hm
          exact Inv.writeWord hj hcalm hd hok hsub hbooks hret hpc
      | reinitCompletion => cases hm
      | irqEnable =>
          obtain rfl := Option.some.inj hm
          exact Inv.irqEnable hj hcalm hd hok hsub hbooks hret hpc
      | ringDoorbell =>
          obtain rfl := Option.some.inj hm
          exact Inv.ringDoorbell hj hcalm hd hok hsub hbooks hret hpc
      | waitForCompletion => exact hpc.elim
      | irqDisable => exact hpc.elim
      | unlock => exact hpc.elim

theorem Calm.frame {y : Driven} (h : x.Calm) (hhw : y.hw = x.hw) (hideal : y.ideal = x.ideal)
    (hirq : y.sw.irq = x.sw.irq) (hk : y.sw.handler = .idle ∨ y.sw.handler = .readStatus) :
    y.Calm :=
  ⟨by rw [hhw, hideal]; exact h.answered, hk, by rw [hirq]; exact h.fading⟩

theorem Joined.frame {s : DriverSys} (h : Joined x.sw x.hw x.ideal) (hirq : s.irq = x.sw.irq)
    (hrung : s.rung = x.sw.rung) (hrunning : s.running = x.sw.running)
    (htransfers : s.transfers = x.sw.transfers) : Joined s x.hw x.ideal :=
  ⟨h.linked, hirq.trans h.irq, hrung.trans h.rung, hrunning.trans h.running,
    htransfers.trans h.transfers, h.isBufR⟩

theorem Inv.step {y : Driven} {mv : Move} (h : x.Inv s₀) (hok : x.Allowed mv)
    (hmv : x.Moved env mv y) : y.Inv s₀ := by
  have hj := h.joined
  cases hmv with
  | cycle => exact h.plain Mmio.plain_idle (.inl rfl)
  | thread hh hm => exact h.thread hh hm
  | isrRead hk => exact h.plain plain_irqStatus (.inr ⟨hk, hok.gap rfl hk, rfl⟩)
  | isrClear hk => exact h.isrClear hk
  | lock hh =>
      refine ⟨hj.frame rfl rfl rfl rfl, ?_⟩
      cases h.phase with
      | free _ hcalm hd hbooks hret =>
          exact .asking rfl (hcalm.frame rfl rfl rfl hcalm.handler) hd trivial (hok.servable _ rfl)
            rfl ⟨hbooks.rung, hbooks.sram⟩ hret
      | asking hh' => exact absurd (hh.symm.trans hh') (by simp)
      | waiting hh' => exact absurd (hh.symm.trans hh') (by simp)
      | leaving hh' => exact absurd (hh.symm.trans hh') (by simp)
  | reinit hh =>
      refine ⟨hj.frame rfl rfl rfl rfl, ?_⟩
      cases h.phase with
      | free hh' => exact absurd (hh.symm.trans hh') (by simp)
      | waiting hh' =>
          exact absurd (Holder.submit.inj (Option.some.inj (hh'.symm.trans hh))).2 (by simp)
      | leaving hh' hpc =>
          obtain ⟨rfl, rfl⟩ := Holder.submit.inj (Option.some.inj (hh'.symm.trans hh))
          simp at hpc
      | asking hh' hcalm hd hpc hserv hsub hbooks hret =>
          obtain ⟨rfl, rfl⟩ := Holder.submit.inj (Option.some.inj (hh'.symm.trans hh))
          exact .asking rfl (hcalm.frame rfl rfl rfl hcalm.handler) rfl hpc hserv hsub
            ⟨hbooks.rung, hbooks.sram⟩ hret
  | wake hh hd =>
      refine ⟨hj.frame rfl rfl rfl rfl, ?_⟩
      cases h.phase with
      | free hh' => exact absurd (hh.symm.trans hh') (by simp)
      | asking hh' _ hd' => exact absurd hd (by omega)
      | leaving hh' _ _ _ hd' => exact absurd hd (by omega)
      | waiting hh' hc hen hsign hbooks hret =>
          obtain ⟨rfl, hcmd⟩ := Holder.submit.inj (Option.some.inj (hh'.symm.trans hh))
          cases hcmd
          cases hsign with
          | none _ _ _ _ hd' => omega
          | pending _ _ _ _ hd' => omega
          | cleared _ _ _ hd' => omega
          | completed hcalm hd' =>
              refine .leaving rfl (.inl rfl) hc (hcalm.frame rfl rfl rfl hcalm.handler) ?_
                ⟨hbooks.rung, hbooks.sram⟩ hret
              change x.sw.done - 1 = 0
              rw [hd']
  | unlock hh =>
      refine ⟨hj.frame rfl rfl rfl rfl, ?_⟩
      cases h.phase with
      | free hh' => exact absurd (hh.symm.trans hh') (by simp)
      | asking hh' _ _ hpc =>
          obtain ⟨rfl, rfl⟩ := Holder.submit.inj (Option.some.inj (hh'.symm.trans hh))
          exact hpc.elim
      | waiting hh' =>
          exact absurd (Holder.submit.inj (Option.some.inj (hh'.symm.trans hh))).2 (by simp)
      | leaving hh' hpc hc hcalm hd hbooks hret =>
          obtain ⟨rfl, rfl⟩ := Holder.submit.inj (Option.some.inj (hh'.symm.trans hh))
          rcases hpc with hpc | hpc
          · cases hpc
          · cases hpc
            refine .free rfl (hcalm.frame rfl rfl rfl hcalm.handler) hd
              ⟨hbooks.rung, hbooks.sram⟩ ?_
            change x.sw.returned ++ _ = okReturns x.ideal.rung
            rw [hret, hc, okReturns, okReturns, List.range_succ, List.map_append]
            rfl
  | unlockDma hh =>
      cases h.phase with
      | free hh' => exact absurd (hh.symm.trans hh') (by simp)
      | asking hh' => exact absurd (hh.symm.trans hh') (by simp)
      | waiting hh' => exact absurd (hh.symm.trans hh') (by simp)
      | leaving hh' => exact absurd (hh.symm.trans hh') (by simp)
  | enterIsr hk =>
      refine ⟨hj.frame rfl rfl rfl rfl, ?_⟩
      cases h.phase with
      | free hh' hcalm hd hbooks hret =>
          exact .free hh' (hcalm.frame rfl rfl rfl (.inr rfl)) hd ⟨hbooks.rung, hbooks.sram⟩ hret
      | asking hh' hcalm hd hpc hserv hsub hbooks hret =>
          refine .asking hh' (hcalm.frame rfl rfl rfl (.inr rfl)) hd ?_ hserv hsub
            ⟨hbooks.rung, hbooks.sram⟩ hret
          rename_i w pc ds
          cases pc <;> exact hpc
      | leaving hh' hpc hc hcalm hd hbooks hret =>
          exact .leaving hh' hpc hc (hcalm.frame rfl rfl rfl (.inr rfl)) hd
            ⟨hbooks.rung, hbooks.sram⟩ hret
      | waiting hh' hc hen hsign hbooks hret =>
          refine .waiting hh' hc hen ?_ ⟨hbooks.rung, hbooks.sram⟩ hret
          cases hsign with
          | none hev _ hp hclr hd => exact .none hev (.inr rfl) hp hclr hd
          | pending hev _ hp hclr hd => exact .pending hev (.inr (.inl rfl)) hp hclr hd
          | cleared _ hk' => exact absurd (hk.symm.trans hk') (by decide)
          | completed hcalm hd => exact .completed (hcalm.frame rfl rfl rfl (.inr rfl)) hd
  | complete hk =>
      refine ⟨hj.frame rfl rfl rfl rfl, ?_⟩
      have hnot : ¬x.Calm := fun hcalm ↦ by
        rcases hcalm.handler with hi | hr
        · exact absurd (hk.symm.trans hi) (by decide)
        · exact absurd (hk.symm.trans hr) (by decide)
      cases h.phase with
      | free _ hcalm => exact absurd hcalm hnot
      | asking _ hcalm => exact absurd hcalm hnot
      | leaving _ _ _ hcalm => exact absurd hcalm hnot
      | waiting hh' hc hen hsign hbooks hret =>
          refine .waiting hh' hc hen ?_ ⟨hbooks.rung, hbooks.sram⟩ hret
          cases hsign with
          | none _ hk' => simp [hk] at hk'
          | pending _ hk' => simp [hk] at hk'
          | cleared hev _ hp hd => exact .completed ⟨hev, .inl rfl, hp⟩ (congrArg (· + 1) hd)
          | completed hcalm => exact absurd hcalm hnot

/-! ## Whole histories -/

theorem Inv.start (h : x.Start) : x.Inv x.hw.dev.core.mem.contents := by
  have hrung : x.hw.events = x.ideal.rung := h.rest.events
  refine ⟨⟨.inl h.rest, ?_, ?_, ?_, ?_, h.isBufR⟩, .free ?_ ⟨hrung, ?_, ?_⟩ ?_ ⟨?_, ?_⟩ ?_⟩
  · rw [h.sw, h.irq]
    rfl
  · rw [h.sw, h.rung]
    rfl
  · rw [h.sw, if_pos hrung]
    rfl
  · rw [h.sw]
    rfl
  · rw [h.sw]
    rfl
  · rw [h.sw]
    exact .inl rfl
  · rw [h.sw]
    exact .inl rfl
  · rw [h.sw]
    rfl
  · rw [h.submitted, h.rung]
    rfl
  · rw [h.submitted]
    exact h.rest.sram.symm
  · rw [h.sw, h.rung]
    rfl

variable {x₀ : Driven}

theorem Reached.inv (h : x₀.Reached x) : x.Inv x₀.hw.dev.core.mem.contents := by
  induction h with
  | start hs => exact .start hs
  | step _ hok hs ih => exact ih.step hok (moved hs)

/-- A completion is rearmed only when nothing of before can signal it. -/
theorem Inv.quiet {w : ℕ → MmioData} (h : x.Inv s₀)
    (hh : x.sw.holder = some (.submit w .reinitCompletion)) : x.sw.Quiet := by
  cases h.phase with
  | free hh' => exact absurd (hh.symm.trans hh') (by simp)
  | waiting hh' =>
      exact absurd (Holder.submit.inj (Option.some.inj (hh'.symm.trans hh))).2 (by simp)
  | leaving hh' hpc =>
      obtain ⟨rfl, rfl⟩ := Holder.submit.inj (Option.some.inj (hh'.symm.trans hh))
      simp at hpc
  | asking hh' hcalm _ hpc =>
      obtain ⟨rfl, rfl⟩ := Holder.submit.inj (Option.some.inj (hh'.symm.trans hh))
      obtain ⟨-, hp, -⟩ := hpc
      refine ⟨?_, h.joined.transfers, hp, ?_, ?_⟩
      · rw [h.joined.running, if_pos hcalm.answered]
      · rcases hcalm.handler with hk | hk <;> simp [hk]
      · rcases hcalm.handler with hk | hk <;> simp [hk]

theorem sw_step {y : Driven} {mv : Move} (h : x.step mv env = some y) :
    ∃ a, x.sw.step a = some y.sw ∧ (a = .reinit → mv = .reinit) := by
  have hact : ∀ rdata e, mv.act rdata e = .reinit → mv = .reinit := by
    intro rdata e ha
    cases mv <;> first | rfl | cases ha
  cases ha : mv.access x.sw with
  | none =>
      simp only [step, ha, Option.map_eq_some_iff] at h
      obtain ⟨s, hs, rfl⟩ := h
      exact ⟨_, hs, hact _ _⟩
  | some m =>
      obtain ⟨s, hs, rfl⟩ := step_bus ha h
      exact ⟨_, hs, hact _ _⟩

/-- The device is one of those the driver has been checked against. -/
theorem Reached.fresh (h : x₀.Reached x) : DriverSys.Reached DriverSys.Fresh x.sw := by
  induction h with
  | start hs =>
      rw [hs.sw]
      exact .init
  | step hreach hok hs ih =>
      obtain ⟨a, ha, hre⟩ := sw_step hs
      refine ih.step (fun hreinit ↦ ?_) ha
      have hmv := moved hs
      rw [hre hreinit] at hmv
      cases hmv with
      | reinit hh => exact hreach.inv.quiet hh

/-- The submissions that have returned, and the command that may be under way. -/
theorem Inv.returned (h : x.Inv s₀) : ∃ n, x.sw.returned = okReturns n ∧ n ≤ x.sw.rung ∧
    ∀ c ∈ x.sw.running, n ≤ c := by
  have hrunning := h.joined.running
  have hrung := h.joined.rung
  cases h.phase with
  | free _ hcalm _ _ hret =>
      refine ⟨_, hret, hrung.ge, fun c hc ↦ ?_⟩
      rw [hrunning, if_pos hcalm.answered] at hc
      exact absurd hc List.not_mem_nil
  | asking _ hcalm _ _ _ _ _ hret =>
      refine ⟨_, hret, hrung.ge, fun c hc ↦ ?_⟩
      rw [hrunning, if_pos hcalm.answered] at hc
      exact absurd hc List.not_mem_nil
  | leaving _ _ hc' hcalm _ _ hret =>
      refine ⟨_, hret, by omega, fun c hc ↦ ?_⟩
      rw [hrunning, if_pos hcalm.answered] at hc
      exact absurd hc List.not_mem_nil
  | waiting _ hc' _ _ _ hret =>
      refine ⟨_, hret, by omega, fun c hc ↦ ?_⟩
      have honce := h.joined.linked.once
      rw [hrunning] at hc
      split at hc
      · exact absurd hc List.not_mem_nil
      · have heq := List.mem_singleton.mp hc
        omega

def oneVec : Driven where
  sw := .init
  hw := ⟨.reset (fun _ ↦ 0) (fun _ ↦ 0) (fun _ ↦ 0) fun _ ↦ 0, 0, 0⟩
  ideal := ⟨⟨fun _ ↦ 0, fun _ ↦ 0, fun _ ↦ 0⟩, fun _ ↦ 0, 0⟩
  submitted := []

theorem start_oneVec : oneVec.Start :=
  ⟨rfl, Watched.rest_reset _ _ _ _ _, rfl, rfl, rfl, rfl⟩

/-- The words of an addition of one element. -/
def oneVecWords (i : ℕ) : MmioData := NpuCore.vecDesc 1 (.ofNat 4 i)

theorem servable_oneVec : oneVec.ideal.sram.Servable (descOf oneVecWords) := by
  refine fun _ ↦ ⟨?_, trivial⟩
  exact (by decide : 0 < (convToVecCmd (packCmd (descOf oneVecWords))).length.toNat)

end Driven

end LgNpu
