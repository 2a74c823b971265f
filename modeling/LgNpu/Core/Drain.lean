import LgNpu.Core.Sequence

/-!
# How long a command is under way

A backend that has signalled done may still have elements under way, but not for
long: in the tenth cycle after its only done pulse the command is written and
nothing of it is left.
-/

namespace LgNpu

/-! ## The multiply-accumulate backends -/

/-- The datapath is empty within nine cycles of the controller's end. -/
theorem MacJob.drained_of_late {F Cmd : Type} {fe : MacFront F Cmd} {cmd : Cmd} {c : MacJob}
    {lat : ℕ} {Rest : F → Prop} {At : Feed → F → Prop} {x : Sys (Mac F)}
    (hF : Feeds fe cmd c lat Rest At) (hpos : c.Positive) (hk : c.Keeps lat)
    (hq : Mac.Quiet Rest x) (hlog : x.log = []) {u : ℕ} (hu : c.endTime + 9 ≤ u) :
    ((macBackend fe).run cmd (fun _ ↦ .all) x (lat + 2 + u)).be.path.drained = true := by
  have hlast : c.lastTime + 6 ≤ u := by
    have hle : c.lastTime ≤ c.endTime + 3 := by
      rw [lastTime, emitTime, endTime]
      split <;> omega
    omega
  obtain ⟨hinv, htimed⟩ := track_timed hF hpos hq hlog hk (D := False) (fun hd ↦ hd.elim) u
  have hnone : ∀ d ≤ 5, ¬c.EmitsAt (u - d) := by
    intro d hd hv
    have hle := hv.le_lastTime
    omega
  have hload := htimed.loader.trans (loaderAt_of_lastTime_lt (by omega))
  have hpe : (track fe cmd c lat (fun _ ↦ .all) x (lat + 1 + u)).path.pe.validR = false := by
    refine Bool.eq_false_iff.mpr fun hv ↦ ?_
    obtain ⟨i, hi, ht⟩ := htimed.pe.mp hv
    have hle := emitTime_le_lastTime hi
    omega
  have htrig := Bool.eq_false_iff.mpr fun hv ↦ hnone 1 (by decide) (htimed.trigger.mp hv)
  have hbias := Bool.eq_false_iff.mpr fun hv ↦ hnone 2 (by decide) (htimed.bias.mp hv)
  have hrelu := Bool.eq_false_iff.mpr fun hv ↦ hnone 3 (by decide) (htimed.relu.mp hv)
  have hquant := Bool.eq_false_iff.mpr fun hv ↦ hnone 4 (by decide) (htimed.quant.mp hv)
  have hwr : (track fe cmd c lat (fun _ ↦ .all) x (lat + 1 + u)).path.writer.state ≠ .write :=
    fun hs ↦ hnone 5 (by decide) (htimed.write.mp hs)
  have hcount := hinv.post.count
  rw [hquant, hrelu, hbias, htrig] at hcount
  simp only [SkidBuffer.count, Bool.toNat_false, Nat.add_zero, Nat.add_eq_zero_iff,
    Bool.toNat_eq_zero] at hcount
  rw [show lat + 2 + u = lat + 1 + u + 1 by omega, run_eq_track c lat]
  change MacPath.drained (track fe cmd c lat (fun _ ↦ .all) x (lat + 1 + u)).path = true
  simp [MacPath.drained, hload, hpe, htrig, hbias, hrelu, hquant, hwr, hcount]

namespace NpuCore

variable {b : BackendId} {cmd : BeCmd b} {y : Sys (BeState b)}

theorem Proper.bounded (hp : Proper b cmd) : Bounded b cmd := by
  cases b with
  | conv => exact (show ConvCmd.Valid cmd from hp).toLooping
  | gemm => exact (show GemmCmd.Valid cmd from hp).toPositive
  | softmax => exact hp
  | vec => exact hp
  | lnorm => exact hp
  | pool => exact (show PoolCmd.Valid cmd from hp).looping

/-- The only done pulse of a command comes in cycle `T`; from the tenth cycle
after it on it is written, and nothing is left of it. -/
structure Concludes (b : BackendId) (cmd : BeCmd b) (y : Sys (BeState b)) (T : ℕ) : Prop where
  pos : 0 < T
  done : ∀ t, (backend b).done ((backend b).run cmd (fun _ ↦ .all) y t).be = true ↔ t = T
  free : ∀ t, T < t → Free b ((backend b).run cmd (fun _ ↦ .all) y t).be
  silent : ∀ t, T + 10 ≤ t → Silent b ((backend b).run cmd (fun _ ↦ .all) y t).be
  written : ∀ t, T + 10 ≤ t → ((backend b).run cmd (fun _ ↦ .all) y t).log =
    refWrites b cmd y.mem.act y.mem.wt
  noAnswer : ∀ t, T + 10 ≤ t → Sequencer.NoAnswer ((backend b).run cmd (fun _ ↦ .all) y t).mem
  calm : ∀ t, ((backend b).run cmd (fun _ ↦ .all) y t).mem.biasPendingR = false

section Run

variable (hs : Silent b y.be) (hn : y.mem.biasPendingR = false) (hlog : y.log = [])
include hs hn hlog

/-- Up to its done pulse a backend works, and from then on it is free. -/
theorem exists_done (hp : Bounded b cmd) :
    ∃ T, (∀ t, (backend b).done ((backend b).run cmd (fun _ ↦ .all) y (t + 1)).be = true ↔ t = T) ∧
      ∀ t, T < t → Free b ((backend b).run cmd (fun _ ↦ .all) y (t + 1)).be := by
  classical
  have hends := (ends_iff_bounded b cmd hs hn hlog).mpr hp
  have hfirst := Nat.find_spec hends
  obtain ⟨T, hT⟩ : ∃ T, Nat.find hends = T + 1 := by
    refine ⟨Nat.find hends - 1, (Nat.succ_pred_eq_of_ne_zero fun h0 ↦ ?_).symm⟩
    rw [h0] at hfirst
    exact Bool.false_ne_true (((shares b).silent_done _ hs).symm.trans hfirst)
  rw [hT] at hfirst
  have hbefore : ∀ t < T,
      (backend b).done ((backend b).run cmd (fun _ ↦ .all) y (t + 1)).be = false := fun t ht ↦
    Bool.eq_false_iff.mpr (Nat.find_min hends (hT ▸ Nat.succ_lt_succ ht))
  have hworks : ∀ t ≤ T, Working b ((backend b).run cmd (fun _ ↦ .all) y (t + 1)).be := by
    intro t
    induction t with
    | zero => exact fun _ ↦ (shares b).accept _ _ _ ((shares b).free_of_silent _ hs)
    | succ t ih =>
        exact fun ht ↦ (shares b).working_step _ _ _ (ih (Nat.le_of_succ_le ht)) (hbefore t ht)
  have hfree : ∀ t, T < t → Free b ((backend b).run cmd (fun _ ↦ .all) y (t + 1)).be := by
    intro t ht
    induction t, ht using Nat.le_induction with
    | base => exact (shares b).working_done _ _ _ (hworks T le_rfl) hfirst
    | succ t _ ih => exact (shares b).free_step _ _ _ ih
  refine ⟨T, fun t ↦ ⟨fun ht ↦ ?_, fun ht ↦ ht ▸ hfirst⟩, hfree⟩
  rcases Nat.lt_trichotomy t T with hlt | rfl | hgt
  · exact absurd ((hbefore t hlt).symm.trans ht) Bool.false_ne_true
  · rfl
  · exact absurd (hfree t hgt) ((engages b).not_free _ ((engages b).done _ ht))

/-- Nine cycles after its done pulse a backend is done with the ports. -/
theorem drained_of_done (hp : Proper b cmd) {T : ℕ}
    (hd : (backend b).done ((backend b).run cmd (fun _ ↦ .all) y T).be = true) {t : ℕ}
    (ht : T + 9 ≤ t) : Drained b ((backend b).run cmd (fun _ ↦ .all) y t).be := by
  cases b with
  | conv =>
      have hv : ConvCmd.Valid cmd := hp
      have hq : Mac.Quiet ConvFront.Rest y := ⟨hs.front, hs.path, hn⟩
      obtain ⟨u, rfl, hu⟩ := (run_done_iff (ConvFront.feeds hv.toLooping) hv.job
        (ConvCmd.keeps cmd) hq hlog T).mp hd
      obtain ⟨v, rfl⟩ := Nat.exists_eq_add_of_le (show 4 + 2 ≤ t by omega)
      have hle := hu.ended
      exact MacJob.drained_of_late (ConvFront.feeds hv.toLooping) hv.job (ConvCmd.keeps cmd) hq
        hlog (by omega)
  | gemm =>
      have hv : GemmCmd.Valid cmd := hp
      have hq : Mac.Quiet GemmFront.Rest y := ⟨hs.front, hs.path, hn⟩
      obtain ⟨u, rfl, hu⟩ := (run_done_iff (GemmFront.feeds hv.toPositive) hv.job
        (GemmCmd.keeps cmd) hq hlog T).mp hd
      obtain ⟨v, rfl⟩ := Nat.exists_eq_add_of_le (show 2 + 2 ≤ t by omega)
      have hle := hu.ended
      exact MacJob.drained_of_late (GemmFront.feeds hv.toPositive) hv.job (GemmCmd.keeps cmd) hq
        hlog (by omega)
  | _ => trivial

omit hs hlog in
theorem calm_run (t : ℕ) :
    ((backend b).run cmd (fun _ ↦ .all) y t).mem.biasPendingR = false := by
  induction t with
  | zero => exact hn
  | succ t ih =>
      refine NpuMemTop.biasPendingR_step ih ?_
      rw [Sys.granted, BeReq.gate_all]
      exact (shares b).one_reader _

/-- A valid command comes to its done pulse, and ten cycles later to an end. -/
theorem concludes (hp : Proper b cmd) (hserved : Served b cmd y.mem.act) :
    ∃ T, Concludes b cmd y T := by
  obtain ⟨T, hdone, hfree⟩ := exists_done hs hn hlog hp.bounded
  have hdrained : ∀ t, T + 9 ≤ t →
      Drained b ((backend b).run cmd (fun _ ↦ .all) y (t + 1)).be := fun t ht ↦
    drained_of_done hs hn hlog hp ((hdone T).mpr rfl) (by omega)
  have hlate : ∀ t, T + 11 ≤ t → ∃ u, T + 9 ≤ u ∧ t = u + 2 := fun t ht ↦
    ⟨t - 2, by omega, by omega⟩
  refine ⟨T + 1, Nat.succ_pos T, fun t ↦ ?_, fun t ht ↦ ?_, fun t ht ↦ ?_, fun t ht ↦ ?_,
    fun t ht ↦ ?_, calm_run hn⟩
  · cases t with
    | zero =>
        refine ⟨fun hd ↦ absurd hd ?_, fun h0 ↦ absurd h0.symm (Nat.succ_ne_zero T)⟩
        exact Bool.eq_false_iff.mp ((shares b).silent_done _ hs)
    | succ t => rw [hdone, Nat.add_right_cancel_iff]
  · obtain ⟨u, rfl⟩ : ∃ u, t = u + 1 := ⟨t - 1, by omega⟩
    exact hfree u (by omega)
  · obtain ⟨u, hu, rfl⟩ := hlate t (by omega)
    exact (shares b).drained_step _ _ _ (hfree u (by omega)) (hdrained u hu)
  · obtain ⟨u, hu, rfl⟩ := hlate t (by omega)
    exact log_of_rest hp hs hn hlog hserved (hfree (u + 1) (by omega)) (hdrained _ (by omega))
  · obtain ⟨u, hu, rfl⟩ := hlate t (by omega)
    obtain ⟨hact, hwt, hbias⟩ := rests b ((backend b).run cmd (fun _ ↦ .all) y (u + 1)).be cmd _
      (hfree (u + 1) (by omega)) (hdrained (u + 1) (by omega))
    have hq : ((backend b).run cmd (fun _ ↦ .all) y (u + 1)).granted (backend b) .all =
        (backend b).req ((backend b).run cmd (fun _ ↦ .all) y (u + 1)).be := BeReq.gate_all _
    have hone := (shares b).one_reader ((backend b).run cmd (fun _ ↦ .all) y (u + 1)).be
    rw [← hq] at hact hwt hbias hone
    have hcalm := @calm_run b cmd y hn (u + 1)
    exact ⟨hact, (NpuMemTop.wtRvalid_step hcalm hone).trans hwt,
      (NpuMemTop.biasRvalid_step hcalm hone).trans hbias⟩

end Run

end NpuCore

end LgNpu
