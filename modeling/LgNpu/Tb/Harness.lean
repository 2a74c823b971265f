import LgNpu.Device.Turns

/-!
# The harness

`mmio_write` and `mmio_read` hold an access until the device is ready, and a
test makes its writes, rings the doorbell, polls registers for some time and
reads the output back.  On a device at rest every access is ready after one
tick, and a test that waits long enough reads what the ideal device holds.
-/

namespace LgNpu

/-! ## Programs on the ideal device -/

namespace Ideal

/-- The ideal device after the accesses of a program. -/
def after (a : Ideal) (ms : List Mmio) : Ideal := ms.foldl (fun a m ↦ a.step m) a

variable {a : Ideal} {m : Mmio} {ms : List Mmio}

@[simp] theorem after_nil : a.after [] = a := rfl

@[simp] theorem after_cons : a.after (m :: ms) = (a.step m).after ms := rfl

theorem after_append (ms' : List Mmio) : a.after (ms ++ ms') = (a.after ms).after ms' := by
  rw [after, List.foldl_append]
  rfl

theorem after_take_succ {k : ℕ} (hk : k < ms.length) :
    a.after (ms.take (k + 1)) = (a.after (ms.take k)).step ms[k] := by
  rw [List.take_succ_eq_append_getElem hk, after_append]
  rfl

/-- A read changes nothing. -/
theorem step_of_read (h : m.wr = false) : a.step m = a := by
  have hw : m.writes = false := by simp [Mmio.writes, h]
  have hr : m.rings = false := by simp [Mmio.rings, hw]
  rw [step, hw, hr]
  rfl

end Ideal

/-! ## The accesses of a test -/

namespace Mmio

variable (m : Mmio)

/-- A write to a buffer or to the window. -/
def loads : Bool := m.writes && (m.isBuf || m.isCmdQueue)

/-- No access, or the read of a register. -/
def polls : Bool := !m.wr && !(m.valid && m.isBuf)

variable {m}

theorem not_isReg_of_loads (h : m.loads = true) : m.isReg = false := by
  simp only [loads, isBuf, isCmdQueue, Bool.and_eq_true, Bool.or_eq_true, Bool.not_eq_true'] at h
  rcases h.2 with hb | hc
  · exact NpuShell.isReg_of_isBuf (by simp [isBuf, hb])
  · exact hc.1

theorem rings_of_not_isReg (h : m.isReg = false) : m.rings = false := by simp [rings, h]

theorem noSoftReset_of_not_isReg (h : m.isReg = false) : NpuShell.noSoftReset m := by
  intro hw
  simp [writesReg, h] at hw

theorem startsDma_of_not_isReg (h : m.isReg = false) : m.startsDma = false := by
  simp [startsDma, writesReg, h]

theorem rings_of_read (h : m.wr = false) : m.rings = false := by simp [rings, writes, h]

theorem noSoftReset_of_read (h : m.wr = false) : NpuShell.noSoftReset m := by
  intro hw
  simp [writesReg, writes, h] at hw

theorem startsDma_of_read (h : m.wr = false) : m.startsDma = false := by
  simp [startsDma, writesReg, writes, h]

theorem wr_of_polls (h : m.polls = true) : m.wr = false := by
  simp only [polls, Bool.and_eq_true, Bool.not_eq_true'] at h
  exact h.1

end Mmio

namespace NpuTb

/-- The device whose pins are driven by a script; where it says nothing the
harness polls. -/
def drive (env : ℕ → DeviceIn) (script : List (Option Mmio)) (t : ℕ) : DeviceIn :=
  { env t with host := (script[t]?.join).getD (env t).host }

/-- The writes, the doorbell, `wait` cycles of polling, and the reads. -/
def scriptOf (loads : List Mmio) (wait : ℕ) (reads : List Mmio) : List (Option Mmio) :=
  loads.map some ++ some (.write regDoorbell 1) :: (List.replicate wait none ++ reads.map some)

/-- `mmio_rdata` after the tick of cycle `t`. -/
def sampled (ins : ℕ → DeviceIn) (x : Watched) (t : ℕ) : MmioData :=
  (x.run ins (t + 1)).dev.mmioRdata (ins t)

/-- `mmio_ready` after the tick of cycle `t`. -/
def prompt (ins : ℕ → DeviceIn) (x : Watched) (t : ℕ) : Bool :=
  (x.run ins (t + 1)).dev.shell.mmioReady ((x.run ins (t + 1)).dev.shellIn (ins t))

section Script

variable {env : ℕ → DeviceIn} {loads reads : List Mmio} {w t : ℕ}

theorem scriptOf_load (h : t < loads.length) :
    (scriptOf loads w reads)[t]? = some (some loads[t]) := by
  rw [scriptOf, List.getElem?_append_left (by simpa using h), List.getElem?_map,
    List.getElem?_eq_getElem h, Option.map_some]

theorem scriptOf_doorbell :
    (scriptOf loads w reads)[loads.length]? = some (some (.write regDoorbell 1)) := by
  simp [scriptOf]

theorem scriptOf_wait (h : t < w) :
    (scriptOf loads w reads)[loads.length + 1 + t]? = some none := by
  have hidx : loads.length + 1 + t - loads.length = t + 1 := by omega
  rw [scriptOf, List.getElem?_append_right (by simp; omega), List.length_map, hidx,
    List.getElem?_cons_succ, List.getElem?_append_left (by simpa using h)]
  simp [h]

theorem scriptOf_read :
    (scriptOf loads w reads)[loads.length + 1 + w + t]? = reads[t]?.map some := by
  have hidx : loads.length + 1 + w + t - loads.length = (w + t) + 1 := by omega
  rw [scriptOf, List.getElem?_append_right (by simp; omega), List.length_map, hidx,
    List.getElem?_cons_succ, List.getElem?_append_right (by simp)]
  simp

theorem drive_load (h : t < loads.length) :
    (drive env (scriptOf loads w reads) t).host = loads[t] := by
  simp [drive, scriptOf_load h]

theorem drive_doorbell :
    (drive env (scriptOf loads w reads) loads.length).host = .write regDoorbell 1 := by
  simp [drive, scriptOf_doorbell]

theorem drive_read (h : t < reads.length) :
    (drive env (scriptOf loads w reads) (loads.length + 1 + w + t)).host = reads[t] := by
  simp [drive, scriptOf_read, h]

/-- An access is one of the writes, the doorbell or one of the reads. -/
theorem access_cases {m : Mmio} (h : (scriptOf loads w reads)[t]? = some (some m)) :
    t < loads.length ∨ t = loads.length ∨
      ∃ j, j < reads.length ∧ t = loads.length + 1 + w + j := by
  rcases Nat.lt_or_ge t (loads.length + 1) with ht | ht
  · omega
  obtain ⟨k, rfl⟩ := Nat.exists_eq_add_of_le ht
  rcases Nat.lt_or_ge k w with hk | hk
  · rw [scriptOf_wait hk] at h
    exact absurd h (by simp)
  · obtain ⟨j, rfl⟩ := Nat.exists_eq_add_of_le hk
    rw [← Nat.add_assoc, scriptOf_read] at h
    refine .inr (.inr ⟨j, ?_, by omega⟩)
    by_contra hj
    rw [List.getElem?_eq_none (by omega)] at h
    exact absurd h (by simp)

/-- Up to the first read the script with reads is the one without. -/
theorem drive_eq (h : t < loads.length + 1 + w) :
    drive env (scriptOf loads w reads) t = drive env (scriptOf loads 0 []) t := by
  have hprefix : (scriptOf loads w reads)[t]?.join = (scriptOf loads 0 [])[t]?.join := by
    simp only [scriptOf, List.getElem?_append, List.length_map]
    split
    · rfl
    · next hge =>
        obtain ⟨k, hk⟩ : ∃ k, t - loads.length = k := ⟨_, rfl⟩
        rw [hk]
        cases k with
        | zero => rfl
        | succ k =>
            rw [List.getElem?_cons_succ, List.getElem?_cons_succ,
              List.getElem?_append_left (by simp; omega), List.getElem?_replicate,
              if_pos (by omega)]
            rfl
  rw [drive, drive, hprefix]

end Script

end NpuTb

/-! ## At rest -/

namespace Watched

variable {x : Watched} {a : Ideal} {i : DeviceIn}

theorem Rest.quiet_step (h : Rest x a) : (x.step i).quiet = x.quiet + 1 := by
  rw [Watched.step, h.ready.event]
  rfl

theorem Rest.step_of_load (h : Rest x a) (hl : i.host.loads = true) :
    Rest (x.step i) (a.step i.host) := by
  have hreg := Mmio.not_isReg_of_loads hl
  exact h.step_of_not_rings (Mmio.noSoftReset_of_not_isReg hreg) (Mmio.startsDma_of_not_isReg hreg)
    (Mmio.rings_of_not_isReg hreg)

theorem Rest.step_of_read (h : Rest x a) (hr : i.host.wr = false) : Rest (x.step i) a := by
  have hstep := h.step_of_not_rings (Mmio.noSoftReset_of_read hr) (Mmio.startsDma_of_read hr)
    (Mmio.rings_of_read hr)
  rwa [Ideal.step_of_read hr] at hstep

/-- The port of a device at rest takes a write at once. -/
theorem Rest.mmioReady_of_write (h : Rest x a) (hv : i.host.valid = true) (hw : i.host.wr = true) :
    x.dev.shell.mmioReady (x.dev.shellIn i) = true :=
  NpuShell.mmioReady_of_write h.ready.dma.dmaBusy
    (BeReq.raises_eq_false.mp h.ready.core.memReq_not_raises).2.2.1 hv hw

end Watched

namespace NpuTb

open Watched

variable {env : ℕ → DeviceIn} {loads reads : List Mmio} {w : ℕ} {x : Watched} {a : Ideal}

theorem ideal_loads {t : ℕ} (ht : t ≤ loads.length) :
    a.run (fun t ↦ (drive env (scriptOf loads 0 []) t).host) t = a.after (loads.take t) := by
  induction t with
  | zero => rfl
  | succ t ih =>
      rw [Ideal.after_take_succ ht, ← ih (Nat.le_of_succ_le ht), ← @drive_load env loads [] 0 t ht]
      rfl

section Polls

variable (henv : ∀ t, (env t).host.polls = true)
include henv

theorem polls_after {t : ℕ} (ht : loads.length < t) :
    (drive env (scriptOf loads 0 []) t).host.polls = true := by
  have hnone : (scriptOf loads 0 [])[t]? = none := by
    apply List.getElem?_eq_none
    simpa [scriptOf] using ht
  have hhost : (drive env (scriptOf loads 0 []) t).host = (env t).host := by simp [drive, hnone]
  rw [hhost]
  exact henv t

/-- From the doorbell on the ideal device has done the command. -/
theorem ideal_after {t : ℕ} (ht : loads.length < t) :
    a.run (fun t ↦ (drive env (scriptOf loads 0 []) t).host) t =
      (a.after loads).step (.write regDoorbell 1) := by
  induction t, ht using Nat.le_induction with
  | base =>
      have hbefore := @ideal_loads env loads a loads.length le_rfl
      rw [List.take_length] at hbefore
      rw [← hbefore, ← @drive_doorbell env loads [] 0]
      rfl
  | succ t ht ih =>
      rw [← ih]
      exact Ideal.step_of_read (Mmio.wr_of_polls (polls_after henv ht))

end Polls

section Phases

variable (hx : Rest x a) (hq : 9 ≤ x.quiet) (hl : ∀ m ∈ loads, m.loads = true)
include hx hq hl

/-- The writes before the doorbell reach a device at rest. -/
theorem rest_loads {t : ℕ} (ht : t ≤ loads.length) :
    Rest (x.run (drive env (scriptOf loads 0 [])) t) (a.after (loads.take t)) ∧
      9 ≤ (x.run (drive env (scriptOf loads 0 [])) t).quiet := by
  induction t with
  | zero => exact ⟨hx, hq⟩
  | succ t ih =>
      obtain ⟨hrest, hquiet⟩ := ih (Nat.le_of_succ_le ht)
      have hhost := @drive_load env loads [] 0 t ht
      have hload : (drive env (scriptOf loads 0 []) t).host.loads = true := by
        rw [hhost]
        exact hl _ (List.getElem_mem _)
      constructor
      · rw [Ideal.after_take_succ ht, ← hhost]
        exact hrest.step_of_load hload
      · have hnext := @Rest.quiet_step _ _ (drive env (scriptOf loads 0 []) t) hrest
        exact (Nat.le_succ_of_le hquiet).trans_eq hnext.symm

variable (henv : ∀ t, (env t).host.polls = true)
include henv

variable (hs : (a.after loads).sram.Servable (a.after loads).window)
include hs

theorem obliged : Obliged (drive env (scriptOf loads 0 [])) x a := by
  intro t
  rcases lt_trichotomy t loads.length with ht | rfl | ht
  · obtain ⟨hrest, hquiet⟩ := @rest_loads env loads x a hx hq hl t ht.le
    have hhost := @drive_load env loads [] 0 t ht
    have hreg : (drive env (scriptOf loads 0 []) t).host.isReg = false := by
      rw [hhost]
      exact Mmio.not_isReg_of_loads (hl _ (List.getElem_mem _))
    rw [ideal_loads ht.le]
    refine ⟨Mmio.noSoftReset_of_not_isReg hreg, Mmio.startsDma_of_not_isReg hreg,
      fun _ ↦ hrest.events, fun hr ↦ ?_, fun _ ↦ ⟨hrest.events, hquiet⟩⟩
    exact absurd ((Mmio.rings_of_not_isReg hreg).symm.trans hr) Bool.false_ne_true
  · obtain ⟨hrest, hquiet⟩ := @rest_loads env loads x a hx hq hl _ le_rfl
    rw [ideal_loads le_rfl]
    rw [List.take_length] at hrest ⊢
    refine ⟨?_, ?_, ?_, fun _ ↦ ⟨hrest.events, hquiet, hs⟩, ?_⟩ <;> rw [drive_doorbell]
    · exact fun h ↦ absurd h Bool.false_ne_true
    · rfl
    · exact fun h ↦ absurd h Bool.false_ne_true
    · exact fun h ↦ absurd h Bool.false_ne_true
  · have hpolls := polls_after henv ht
    have hread := Mmio.wr_of_polls hpolls
    have hbuf : ((drive env (scriptOf loads 0 []) t).host.valid &&
        (drive env (scriptOf loads 0 []) t).host.isBuf) = false := by
      simp only [Mmio.polls, Bool.and_eq_true, Bool.not_eq_true'] at hpolls
      exact hpolls.2
    refine ⟨Mmio.noSoftReset_of_read hread, Mmio.startsDma_of_read hread, fun hw ↦ ?_, fun hr ↦ ?_,
      fun hb ↦ absurd (hbuf.symm.trans hb) Bool.false_ne_true⟩
    · simp [Mmio.writes, hread] at hw
    · exact absurd ((Mmio.rings_of_read hread).symm.trans hr) Bool.false_ne_true

/-- Some time after the doorbell the device is at rest and stays there. -/
theorem rest_after : ∃ W, ∀ w, W ≤ w → Rest
    (x.run (drive env (scriptOf loads 0 [])) (loads.length + 1 + w))
    ((a.after loads).step (.write regDoorbell 1)) := by
  obtain ⟨u, hu, hrest⟩ :=
    serves.returns hx (obliged hx hq hl henv hs) wellFounded_lt (fun _ ↦ Clocked.fair_true)
      (loads.length + 1)
  have hrun : Ideal.run (fun t ↦ (drive env (scriptOf loads 0 []) t).host) a u = _ :=
    ideal_after henv hu
  refine ⟨u, fun w hw ↦ ?_⟩
  have hle : u ≤ loads.length + 1 + w := by omega
  generalize loads.length + 1 + w = t at hle
  induction t, hle using Nat.le_induction with
  | base =>
      rw [← hrun]
      exact hrest
  | succ t ht ih =>
      exact ih.step_of_read (Mmio.wr_of_polls (polls_after henv (hu.trans ht)))

end Phases

theorem run_drive {t : ℕ} (ht : t ≤ loads.length + 1 + w) :
    x.run (drive env (scriptOf loads w reads)) t = x.run (drive env (scriptOf loads 0 [])) t :=
  Clocked.run_congr (fun _ hlt ↦ by rw [drive_eq hlt]) t ht

/-- Reads leave a device at rest as it is. -/
theorem rest_reads (hw : Rest (x.run (drive env (scriptOf loads w reads)) (loads.length + 1 + w)) a)
    (hr : ∀ m ∈ reads, m.readsBuf = true) {j : ℕ} (hj : j ≤ reads.length) :
    Rest (x.run (drive env (scriptOf loads w reads)) (loads.length + 1 + w + j)) a := by
  induction j with
  | zero => exact hw
  | succ j ih =>
      apply (ih (Nat.le_of_succ_le hj)).step_of_read
      change (drive env _ (loads.length + 1 + w + j)).host.wr = false
      rw [drive_read hj]
      have hread := hr _ (List.getElem_mem hj)
      simp only [Mmio.readsBuf, Bool.and_eq_true, Bool.not_eq_true'] at hread
      exact hread.1.2

/-- After a long enough wait every access is ready after its first tick, and
the reads return what the ideal device holds after the command. -/
theorem reads_back (hx : Rest x a) (hq : 9 ≤ x.quiet) (hl : ∀ m ∈ loads, m.loads = true)
    (henv : ∀ t, (env t).host.polls = true)
    (hs : (a.after loads).sram.Servable (a.after loads).window) :
    ∃ W, ∀ w, W ≤ w → ∀ reads : List Mmio, (∀ m ∈ reads, m.readsBuf = true) →
      (∀ t m, (scriptOf loads w reads)[t]? = some (some m) →
        prompt (drive env (scriptOf loads w reads)) x t = true) ∧
      ∀ (j : ℕ) (hj : j < reads.length) (l : SramLoc), locate reads[j].addr = some l →
        sampled (drive env (scriptOf loads w reads)) x (loads.length + 1 + w + j) =
          ((a.after loads).sram.exec (a.after loads).window).load l := by
  obtain ⟨W, hW⟩ := rest_after hx hq hl henv hs
  refine ⟨W, fun w hw reads hr ↦ ?_⟩
  have hrest := hW w hw
  rw [← @run_drive env loads reads w x _ le_rfl, Ideal.step_of_rings rfl] at hrest
  have hread : ∀ (j : ℕ) (hj : j < reads.length), ∃ l, locate reads[j].addr = some l ∧
      sampled (drive env (scriptOf loads w reads)) x (loads.length + 1 + w + j) =
        ((a.after loads).sram.exec (a.after loads).window).load l ∧
      prompt (drive env (scriptOf loads w reads)) x (loads.length + 1 + w + j) = true := by
    intro j hj
    have hbuf := hr _ (List.getElem_mem hj)
    obtain ⟨l, hloc⟩ : ∃ l, locate reads[j].addr = some l := by
      apply Option.isSome_iff_exists.mp
      rw [← NpuShell.isBuf_eq]
      exact (Bool.and_eq_true_iff.mp hbuf).2
    have hj' := rest_reads hrest hr hj.le
    rw [← @drive_read env loads reads w j hj] at hbuf hloc
    obtain ⟨hdata, hready⟩ := hj'.ready.read hbuf hloc (drive env _ (loads.length + 1 + w + j))
    rw [drive_read hj] at hloc
    rw [hj'.sram] at hdata
    exact ⟨l, hloc, hdata, hready rfl⟩
  constructor
  · intro t m hm
    rcases access_cases hm with ht | rfl | ⟨j, hj, rfl⟩
    · obtain ⟨hnext, -⟩ := @rest_loads env loads x a hx hq hl (t + 1) ht
      rw [← @run_drive env loads reads w x (t + 1) (by omega)] at hnext
      have hload := hl _ (List.getElem_mem ht)
      simp only [Mmio.loads, Mmio.writes, Bool.and_eq_true] at hload
      apply hnext.mmioReady_of_write <;> rw [drive_load ht]
      exacts [hload.1.1, hload.1.2]
    · change (if (drive env _ loads.length).host.isBuf then _ else true) = true
      rw [drive_doorbell]
      rfl
    · exact (hread j hj).choose_spec.2.2
  · intro j hj l hloc
    obtain ⟨l', hloc', hdata, -⟩ := hread j hj
    obtain rfl := Option.some.inj (hloc.symm.trans hloc')
    exact hdata

end NpuTb

end LgNpu
