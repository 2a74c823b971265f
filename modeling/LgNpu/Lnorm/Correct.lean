import LgNpu.Lnorm.Run
import Mathlib.Data.Prod.Lex

/-!
# Layer normalisation end to end
-/

namespace LgNpu

namespace LnormCtrl

open LnormCmd

/-! ## Termination -/

section Rank

variable (cmd : LnormCmd)

/-- The passes and serial computations still ahead. -/
def stagesLeft (s : LnormCtrl) : ℕ :=
  match s.state with
  | .sumRd => 7
  | .sumWait => 7
  | .meanDiv => 6
  | .varRd => 5
  | .varWait => 5
  | .varDiv => 4
  | .sqrt => 3
  | .normRd => 2
  | .normWait => 2
  | .normDiv => 2
  | .normWr => 2
  | _ => 0

/-- Work left inside a stage. -/
def stepsLeft (s : LnormCtrl) : ℕ :=
  match s.state with
  | .sumRd => 2 * (cmd.rowLen.toNat - s.idxR.toNat)
  | .sumWait => 2 * (cmd.rowLen.toNat - s.idxR.toNat) - 1
  | .meanDiv => s.divCntR.toNat
  | .varRd => 2 * (cmd.rowLen.toNat - s.idxR.toNat)
  | .varWait => 2 * (cmd.rowLen.toNat - s.idxR.toNat) - 1
  | .varDiv => s.divCntR.toNat
  | .sqrt => s.sqrtCntR.toNat
  | .normRd => 40
  | .normWait => 39
  | .normDiv => 2 + s.divCntR.toNat
  | .normWr => 1
  | _ => 0

/-- Outputs left, stages left, steps left. -/
def rank (x : Sys LnormCtrl) : ℕ ×ₗ ℕ ×ₗ ℕ :=
  toLex (if x.be.state = .loadCfg then cmd.numRows.toNat * cmd.rowLen.toNat + 1
      else cmd.numRows.toNat * cmd.rowLen.toNat - x.log.length,
    toLex (stagesLeft x.be, stepsLeft cmd x.be))

def waitsOn (x : Sys LnormCtrl) : Option Port :=
  if x.be.reading then some .act else if x.be.state = .normWr then some .out else none

variable {cmd} {m : BitVec 13 → Byte} {x y : Sys LnormCtrl} {i j b : ℕ}

theorem rank_lt_of_log (hx : x.be.state ≠ .loadCfg) (hy : y.be.state ≠ .loadCfg)
    (hlt : x.log.length < y.log.length)
    (hle : y.log.length ≤ cmd.numRows.toNat * cmd.rowLen.toNat) : rank cmd y < rank cmd x := by
  simp only [rank, if_neg hx, if_neg hy]
  exact Prod.Lex.toLex_lt_toLex.mpr (.inl (by omega))

theorem rank_lt (hx : x.be.state ≠ .loadCfg) (hy : y.be.state ≠ .loadCfg) (hlog : y.log = x.log)
    (hlt : stagesLeft y.be < stagesLeft x.be ∨
      stagesLeft y.be = stagesLeft x.be ∧ stepsLeft cmd y.be < stepsLeft cmd x.be) :
    rank cmd y < rank cmd x := by
  simp only [rank, if_neg hx, if_neg hy, hlog]
  exact Prod.Lex.toLex_lt_toLex.mpr (.inr ⟨rfl, Prod.Lex.toLex_lt_toLex.mpr hlt⟩)

theorem rank_eq (hbe : y.be = x.be) (hlog : y.log = x.log) : rank cmd y = rank cmd x := by
  rw [rank, rank, hbe, hlog]

theorem toNat_pred {c : BitVec 5} (h : c ≠ 0) : (c - 1).toNat < c.toNat := by
  have hpos : 0 < c.toNat := Nat.pos_of_ne_zero fun h0 ↦ h (BitVec.eq_of_toNat_eq h0)
  have hone : (1 : BitVec 5).toNat = 1 := rfl
  have hlt := c.isLt
  rw [BitVec.toNat_sub, hone]
  omega

variable {g : Grants} {s' : LnormCtrl} {st st' : LnormState}

/-- A cycle that comes closer to the end of a stage, or ends it. -/
theorem rank_lt_of_step (hs : x.be.state = st) (hbe : x.be.step cmd false (rspOf g x) = s')
    (hst : st ≠ .normWr ∧ st ≠ .loadCfg) (hst' : s'.state ≠ .loadCfg)
    (hlt : stagesLeft s' < stagesLeft x.be ∨
      stagesLeft s' = stagesLeft x.be ∧ stepsLeft cmd s' < stepsLeft cmd x.be) :
    rank cmd (x.step lnormBackend cmd false g) < rank cmd x := by
  have hbe' : (x.step lnormBackend cmd false g).be = s' := by rw [be_step, hbe]
  exact rank_lt (hs ▸ hst.2) (hbe' ▸ hst') (log_step (hs ▸ hst.1)) (hbe' ▸ hlt)

/-- A serial computation counts down to zero and makes way for state `st'`. -/
theorem rank_lt_of_serial (count : LnormCtrl → BitVec 5) (k : ℕ) (hs : x.be.state = st)
    (hbe : x.be.step cmd false (rspOf g x) = s') (hst : st ≠ .normWr ∧ st ≠ .loadCfg)
    (hst' : st' ≠ .loadCfg) (hnext : s'.state = if count x.be = 0 then st' else st)
    (hcount : count s' = count x.be - 1)
    (hend : ∀ z : LnormCtrl, z.state = st' → stagesLeft z < stagesLeft x.be ∨
      stagesLeft z = stagesLeft x.be ∧ stepsLeft cmd z < stepsLeft cmd x.be)
    (hwork : ∀ z : LnormCtrl, z.state = st →
      stagesLeft z = stagesLeft x.be ∧ stepsLeft cmd z = k + (count z).toNat) :
    rank cmd (x.step lnormBackend cmd false g) < rank cmd x := by
  by_cases hzero : count x.be = 0
  · rw [if_pos hzero] at hnext
    exact rank_lt_of_step hs hbe hst (hnext ▸ hst') (hend s' hnext)
  · rw [if_neg hzero] at hnext
    have hpred := toNat_pred hzero
    refine rank_lt_of_step hs hbe hst (hnext ▸ hst.2) (.inr ⟨(hwork s' hnext).1, ?_⟩)
    rw [(hwork s' hnext).2, (hwork x.be hs).2, hcount]
    omega

/-- A cycle lowers the rank, or a held request leaves the system as it is. -/
def Progress (cmd : LnormCmd) (g : Grants) (x : Sys LnormCtrl) : Prop :=
  rank cmd (x.step lnormBackend cmd false g) < rank cmd x ∨
    ∃ p, waitsOn x = some p ∧ g.port p = false ∧
      (x.step lnormBackend cmd false g).be = x.be ∧ (x.step lnormBackend cmd false g).log = x.log

/-- A read request is granted, or nothing changes. -/
theorem progress_of_read (hs : x.be.state = st) (hread : x.be.reading = true)
    (hbe : x.be.step cmd false (rspOf g x) =
      { x.be with state := if (rspOf g x).actRdGnt then st' else st })
    (hst : st ≠ .normWr ∧ st ≠ .loadCfg) (hst' : st' ≠ .loadCfg)
    (hlt : stagesLeft { x.be with state := st' } = stagesLeft x.be ∧
      stepsLeft cmd { x.be with state := st' } < stepsLeft cmd x.be) : Progress cmd g x := by
  rw [rsp_gnt hread] at hbe
  cases hg : g.act with
  | true =>
      rw [hg, if_pos rfl] at hbe
      exact .inl (rank_lt_of_step hs hbe hst hst' (.inr hlt))
  | false =>
      rw [hg, if_neg Bool.false_ne_true] at hbe
      refine .inr ⟨.act, by rw [waitsOn, if_pos hread], hg, ?_, log_step (hs ▸ hst.1)⟩
      rw [be_step, hbe, ← hs]

theorem progress (h : Inv cmd m x) (hdone : x.be.state ≠ .done) (hidle : x.be.state ≠ .idle)
    (g : Grants) : Progress cmd g x := by
  rcases h.phase with ⟨hs, hl, hlog⟩ | ⟨hs, hp, hsum, hvar⟩ | ⟨hs, hp, hsum, hvar, ha⟩ |
    ⟨hs, hp, hvar, hsign, hdiv⟩ | ⟨hs, hp, hmean, hvar⟩ | ⟨hs, hp, hmean, hvar, ha⟩ |
    ⟨hs, hp, hmean, hdiv⟩ | ⟨hs, hp, hmean, hcnt, hroot⟩ | ⟨hs, he⟩ | ⟨hs, he, ha⟩ |
    ⟨hs, he, hsign, hdiv⟩ | ⟨hs, he, hsign, hquot⟩ | ⟨hs, hlog⟩ | ⟨hs, hlog⟩
  case loadCfg =>
    have hbe : x.be.step cmd false (rspOf g x) = _ := step_loadCfg hs
    have hst : (x.step lnormBackend cmd false g).be.state = .sumRd := by rw [be_step, hbe]
    refine .inl (Prod.Lex.toLex_lt_toLex.mpr (.inl ?_))
    simp only [hs, hst, if_true, reduceCtorEq, if_false]
    omega
  case sumRd =>
    have hlt := hp.lt
    have hidx := hp.idx
    refine progress_of_read hs (by rw [reading, hs]) (step_sumRd hs) (by simp) (by simp) ?_
    simp only [stagesLeft, stepsLeft, hs, true_and]
    omega
  case varRd =>
    have hlt := hp.lt
    have hidx := hp.idx
    refine progress_of_read hs (by rw [reading, hs]) (step_varRd hs) (by simp) (by simp) ?_
    simp only [stagesLeft, stepsLeft, hs, true_and]
    omega
  case normRd =>
    refine progress_of_read hs (by rw [reading, hs]) (step_normRd hs) (by simp) (by simp) ?_
    simp [stagesLeft, stepsLeft, hs]
  case sumWait =>
    have hidx := hp.idx
    have hsucc := toNat_succ_dim hp.idx hp.lt
    have hlt := hp.lt
    cases hl : x.be.lastElem with
    | false =>
        refine .inl (rank_lt_of_step hs (step_sumWait hs (arrived_valid ha) hl) (by simp) (by simp)
          (.inr ?_))
        simp only [stagesLeft, stepsLeft, hs, hsucc, true_and]
        omega
    | true =>
        refine .inl (rank_lt_of_step hs (step_sumWait_last hs (arrived_valid ha) hl) (by simp)
          (by simp) (.inl ?_))
        simp [stagesLeft, hs]
  case varWait =>
    have hidx := hp.idx
    have hsucc := toNat_succ_dim hp.idx hp.lt
    have hlt := hp.lt
    cases hl : x.be.lastElem with
    | false =>
        refine .inl (rank_lt_of_step hs (step_varWait hs (arrived_valid ha) hl) (by simp) (by simp)
          (.inr ?_))
        simp only [stagesLeft, stepsLeft, hs, hsucc, true_and]
        omega
    | true =>
        refine .inl (rank_lt_of_step hs (step_varWait_last hs (arrived_valid ha) hl) (by simp)
          (by simp) (.inl ?_))
        simp [stagesLeft, hs]
  case meanDiv =>
    exact .inl (rank_lt_of_serial divCntR 0 hs (step_meanDiv hs) (by simp) (by simp) rfl rfl
      (fun z hz ↦ .inl (by simp [stagesLeft, hs, hz]))
      fun z hz ↦ by simp [stagesLeft, stepsLeft, hs, hz])
  case varDiv =>
    exact .inl (rank_lt_of_serial divCntR 0 hs (step_varDiv hs) (by simp) (by simp) rfl rfl
      (fun z hz ↦ .inl (by simp [stagesLeft, hs, hz]))
      fun z hz ↦ by simp [stagesLeft, stepsLeft, hs, hz])
  case sqrt =>
    exact .inl (rank_lt_of_serial sqrtCntR 0 hs (step_sqrt hs) (by simp) (by simp) rfl rfl
      (fun z hz ↦ .inl (by simp [stagesLeft, hs, hz]))
      fun z hz ↦ by simp [stagesLeft, stepsLeft, hs, hz])
  case normWait =>
    refine .inl (rank_lt_of_step hs (step_normWait hs (arrived_valid ha)) (by simp) (by simp)
      (.inr ?_))
    simp [stagesLeft, stepsLeft, hs]
  case normDiv =>
    refine .inl (rank_lt_of_serial divCntR 2 hs (step_normDiv hs) (by simp) (by simp) rfl rfl
      (fun z hz ↦ .inr ⟨by simp [stagesLeft, hs, hz], ?_⟩)
      fun z hz ↦ by simp [stagesLeft, stepsLeft, hs, hz])
    simp only [stepsLeft, hs, hz]
    omega
  case normWr =>
    have hgnt := rspOf_wr (g := g) hs
    have hlog' : (x.step lnormBackend cmd false g).log = _ := log_step_wr hs
    cases hg : g.out with
    | false =>
        have hbe : x.be.step cmd false (rspOf g x) = _ := step_normWr_hold hs (by rw [hgnt, hg])
        rw [hg, if_neg Bool.false_ne_true] at hlog'
        exact .inr ⟨.out, by simp [waitsOn, reading, hs], hg, hbe, hlog'⟩
    | true =>
        rw [hg, if_pos rfl] at hlog'
        have hlen := congrArg List.length he.log
        have hlt := LoopNest.join_lt he.row.lt he.lt
        rw [RowWise.length_logAt] at hlen
        change _ = _ * cmd.rowLen.toNat + _ at hlen
        refine .inl (rank_lt_of_log (by simp [hs]) ?_ ?_ ?_)
        · rw [be_step]
          simp only [step, stateNext, hs]
          split <;> (try split) <;> (try split) <;> simp
        · rw [hlog', List.length_append, List.length_singleton]
          omega
        · rw [hlog', List.length_append, List.length_singleton]
          omega
  case done => exact absurd hs hdone
  case idle => exact absurd hs hidle

end Rank

/-! ## Running a command -/

section Performs

variable {cmd : LnormCmd} {x : Sys LnormCtrl} {gs : ℕ → Grants}

theorem inv_run (gs : ℕ → Grants) (hL : 0 < cmd.rowLen.toNat) (hrows : 0 < cmd.numRows.toNat)
    (hs : x.be.state = .idle) (hlog : x.log = []) (t : ℕ) :
    Inv cmd x.mem.act (lnormBackend.run cmd gs x (t + 1)) :=
  run_induction lnormBackend cmd gs _ (Inv.accept cmd hs hlog _)
    (fun g _ h ↦ h.step hL g hrows) t

theorem log_prefix_of_inv {m : BitVec 13 → Byte} {y : Sys LnormCtrl} (h : Inv cmd m y) :
    y.log <+: cmd.rowWise.runWrites m cmd.numRows.toNat := by
  have hscan : ∀ {i b}, Scan cmd m y i b →
      y.log <+: cmd.rowWise.runWrites m cmd.numRows.toNat :=
    fun hp ↦ hp.log ▸ cmd.rowWise.logAt_isPrefix m hp.row.lt (Nat.zero_le _)
  have helem : ∀ {i j}, AtElem cmd m y i j →
      y.log <+: cmd.rowWise.runWrites m cmd.numRows.toNat :=
    fun he ↦ he.log ▸ cmd.rowWise.logAt_isPrefix m he.row.lt he.lt.le
  rcases h.phase with ⟨-, -, hlog⟩ | ⟨-, hp, -, -⟩ | ⟨-, hp, -, -, -⟩ | ⟨-, hp, -, -, -⟩ |
    ⟨-, hp, -, -⟩ | ⟨-, hp, -, -, -⟩ | ⟨-, hp, -, -⟩ | ⟨-, hp, -, -, -⟩ | ⟨-, he⟩ | ⟨-, he, -⟩ |
    ⟨-, he, -, -⟩ | ⟨-, he, -, -⟩ | ⟨-, hlog⟩ | ⟨-, hlog⟩
  case loadCfg =>
    rw [hlog]
    exact List.nil_prefix
  case normRd => exact helem he
  case normWait => exact helem he
  case normDiv => exact helem he
  case normWr => exact helem he
  case done => rw [hlog]
  case idle => rw [hlog]
  all_goals exact hscan hp

theorem log_eq_of_done {m : BitVec 13 → Byte} {y : Sys LnormCtrl} (h : Inv cmd m y)
    (hd : y.be.state = .done) : y.log = cmd.rowWise.runWrites m cmd.numRows.toNat := by
  rcases h.phase with ⟨hs, -⟩ | ⟨hs, -⟩ | ⟨hs, -⟩ | ⟨hs, -⟩ | ⟨hs, -⟩ | ⟨hs, -⟩ | ⟨hs, -⟩ |
    ⟨hs, -⟩ | ⟨hs, -⟩ | ⟨hs, -⟩ | ⟨hs, -⟩ | ⟨hs, -⟩ | ⟨-, hlog⟩ | ⟨hs, -⟩
  case done => exact hlog
  all_goals exact absurd (hs.symm.trans hd) (by simp)

/-- Idle is entered through the done state only. -/
theorem not_idle_step {y : Sys LnormCtrl} (h : y.be.state ≠ .idle) (hd : y.be.state ≠ .done)
    (g : Grants) : (y.step lnormBackend cmd false g).be.state ≠ .idle := by
  rw [be_step]
  simp only [step, stateNext]
  split <;> (try split) <;> (try split) <;> (try split) <;> simp_all

/-- Under every fair schedule, and wherever the two regions lie, the command
performs the writes of its three passes. -/
theorem performs (hL : 0 < cmd.rowLen.toNat) (hrows : 0 < cmd.numRows.toNat)
    (hfair : FairGrants gs) (hs : x.be.state = .idle) (hlog : x.log = []) :
    lnormBackend.Performs cmd gs x (cmd.rowWise.runWrites x.mem.act cmd.numRows.toNat) := by
  have hdone : ∀ y : Sys LnormCtrl, lnormBackend.done y.be = false ↔ y.be.state ≠ .done :=
    fun y ↦ decide_eq_false_iff_not
  refine .of_inv lnormBackend cmd gs hlog (Inv cmd x.mem.act) (inv_run gs hL hrows hs hlog)
    (fun y h ↦ log_prefix_of_inv h) (fun y h hd ↦ log_eq_of_done h (of_decide_eq_true hd)) ?_
  refine exists_done lnormBackend cmd gs wellFounded_lt hfair
    (fun y ↦ Inv cmd x.mem.act y ∧ y.be.state ≠ .idle) (rank cmd) waitsOn
    ⟨inv_run gs hL hrows hs hlog 0, ?_⟩
    (fun g y h hd ↦ ⟨h.1.step hL g hrows, not_idle_step h.2 ((hdone y).mp hd) g⟩)
    fun g y h hd ↦ ?_
  · have hbe : x.be.step cmd true (rspOf (gs 0) x) = _ := step_accept hs
    rw [be_step, hbe]
    simp
  · rcases progress h.1 ((hdone y).mp hd) h.2 g with hlt | ⟨p, hp, hg, hbe, hlog⟩
    · exact .inl hlt
    · refine .inr ⟨p, hp, hg, ?_, rank_eq hbe hlog⟩
      rw [← hp, waitsOn, waitsOn, hbe]

/-- Some loop has no last value. -/
structure Endless (s : LnormCtrl) : Prop where
  ne_idle : s.state ≠ .idle
  ne_done : s.state ≠ .done
  side : s.numRowsR = 0 ∨ s.rowLenR = 0

theorem Endless.step {s : LnormCtrl} (h : Endless s) (rsp : BeRsp) :
    Endless (s.step cmd false rsp) := by
  have hrows : (s.step cmd false rsp).numRowsR = s.numRowsR := if_neg fun ha ↦ h.ne_idle ha.1
  have hlen : (s.step cmd false rsp).rowLenR = s.rowLenR := if_neg fun ha ↦ h.ne_idle ha.1
  have hst : (s.step cmd false rsp).state = s.stateNext false rsp := rfl
  have hlast : s.lastElem = true → eqLast s.rowR s.numRowsR = false := by
    rcases h.side with h0 | h0 <;> simp [lastElem, h0]
  have hnext : s.stateNext false rsp ≠ .idle ∧ s.stateNext false rsp ≠ .done := by
    cases hs : s.state with
    | idle => exact absurd hs h.ne_idle
    | done => exact absurd hs h.ne_done
    | _ =>
        simp only [stateNext, hs]
        constructor <;> repeat' split
        all_goals simp_all
  refine ⟨hst ▸ hnext.1, hst ▸ hnext.2, ?_⟩
  rw [hrows, hlen]
  exact h.side

/-- A command ends unless it has no rows or no elements. -/
theorem ends_iff (hfair : FairGrants gs) (hs : x.be.state = .idle) (hlog : x.log = []) :
    lnormBackend.Ends cmd gs x ↔ 0 < cmd.numRows.toNat ∧ 0 < cmd.rowLen.toNat := by
  constructor
  · intro h
    by_contra hside
    refine Backend.not_ends lnormBackend cmd gs Endless ?_ ?_ (fun s rsp he ↦ he.step rsp)
      (fun s he ↦ decide_eq_false he.ne_done) h
    · exact decide_eq_false (by simp [hs])
    · have hbe : x.be.step cmd true (rspOf (gs 0) x) = _ := step_accept hs
      rw [be_step, hbe]
      refine ⟨by simp, by simp, ?_⟩
      rw [not_and_or, Nat.pos_iff_ne_zero, Nat.pos_iff_ne_zero, not_not, not_not] at hside
      exact hside.imp BitVec.eq_of_toNat_eq BitVec.eq_of_toNat_eq
  · rintro ⟨hrows, hL⟩
    obtain ⟨T, hT, -⟩ := (performs hL hrows hfair hs hlog).finish
    exact ⟨T, hT⟩

/-! ## Ranges along a run -/

/-- The mean register only changes when the row's mean arrives. -/
theorem MeanOk.step {m : BitVec 13 → Byte} {y : Sys LnormCtrl} (hL : 0 < cmd.rowLen.toNat)
    (hrows : 0 < cmd.numRows.toNat) (h : Inv cmd m y) (hm : MeanOk y.be) (g : Grants) :
    MeanOk (y.step lnormBackend cmd false g).be := by
  by_cases hst : y.be.state = .meanDiv
  · have hbe : y.be.step cmd false (rspOf g y) = _ := step_meanDiv hst
    by_cases hzero : y.be.divCntR = 0
    · have hnext : (y.step lnormBackend cmd false g).be.state = .varRd := by
        rw [be_step, hbe]
        exact if_pos hzero
      -- The next state is the first of the second pass, which knows the mean.
      rcases (h.step hL g hrows).phase with ⟨hs, -⟩ | ⟨hs, -⟩ | ⟨hs, -⟩ | ⟨hs, -⟩ |
        @⟨i, b, hs, hp, hmean, -⟩ | ⟨hs, -⟩ | ⟨hs, -⟩ | ⟨hs, -⟩ | ⟨hs, -⟩ | ⟨hs, -⟩ | ⟨hs, -⟩ |
        ⟨hs, -⟩ | ⟨hs, -⟩ | ⟨hs, -⟩
      case varRd =>
        rw [MeanOk, hmean]
        exact cmd.mean_bounds _ hL i
      all_goals exact absurd (hs.symm.trans hnext) (by simp)
    · have hmean : (y.step lnormBackend cmd false g).be.meanR = y.be.meanR := by
        rw [be_step, hbe]
        exact if_neg hzero
      rw [MeanOk, hmean]
      exact hm
  · rw [MeanOk, be_step, meanR_step hst]
    exact hm

theorem meanOk_run (hL : 0 < cmd.rowLen.toNat) (hrows : 0 < cmd.numRows.toNat)
    (hs : x.be.state = .idle) (hlog : x.log = []) (hm : MeanOk x.be) (t : ℕ) :
    MeanOk (lnormBackend.run cmd gs x t).be := by
  induction t with
  | zero => exact hm
  | succ t ih =>
      cases t with
      | zero =>
          rw [run_one, MeanOk, be_step, meanR_step (by simp [hs])]
          exact hm
      | succ t => exact ih.step hL hrows (inv_run gs hL hrows hs hlog t) _

/-- The upper half of the distance to the mean is zero, whatever is on the read
port. -/
theorem absDiffW_upper {s : LnormCtrl} (hm : MeanOk s) (rsp : BeRsp) :
    s.absDiffW rsp >>> 16 = 0 := by
  have hle : (rsp.actRdRdata.toInt - s.meanR.toInt).natAbs ≤ 255 := natAbs_le hm rfl
  refine BitVec.eq_of_toNat_eq ?_
  rw [BitVec.toNat_ushiftRight, toNat_absDiffW rfl hm rfl, Nat.shiftRight_eq_div_pow,
    Nat.div_eq_of_lt (by omega)]
  rfl

/-- The states a device out of reset can be in: the host may rewrite the
buffers of an idle controller, and commands run one after another. -/
inductive Reached : Sys LnormCtrl → Prop
  | reset (act : BitVec 13 → Byte) (wt : BitVec 12 → Byte) : Reached (.reset .reset act wt)
  | host {x : Sys LnormCtrl} (hx : Reached x) (hs : x.be.state = .idle) (mem : NpuMemTop) :
      Reached ⟨x.be, mem, []⟩
  | run {x : Sys LnormCtrl} {cmd : LnormCmd} (gs : ℕ → Grants) (hx : Reached x)
      (hs : x.be.state = .idle) (hlog : x.log = []) (hv : cmd.rowWise.Valid) (t : ℕ) :
      Reached (lnormBackend.run cmd gs x t)

theorem Reached.meanOk (hx : Reached x) : MeanOk x.be := by
  induction hx with
  | reset act wt => exact (by decide : MeanOk .reset)
  | host _ _ _ ih => exact ih
  | run gs _ hs hlog hv t ih => exact meanOk_run hv.rowLen_pos hv.numRows_pos hs hlog ih t

/-- The sum of a row is exact. -/
theorem sum_exact (hL : 0 < cmd.rowLen.toNat) (hrows : 0 < cmd.numRows.toNat)
    (hs : x.be.state = .idle) (hlog : x.log = []) (t : ℕ) (g : Grants)
    (hst : (lnormBackend.run cmd gs x t).be.state = .sumWait) :
    ((lnormBackend.run cmd gs x t).be.finalSum (rspOf g (lnormBackend.run cmd gs x t))).toInt =
      (lnormBackend.run cmd gs x t).be.sumR.toInt +
        (rspOf g (lnormBackend.run cmd gs x t)).actRdRdata.toInt := by
  cases t with
  | zero => exact absurd (hs.symm.trans hst) (by simp)
  | succ t =>
      rcases (inv_run gs hL hrows hs hlog t).phase with ⟨h, -⟩ | ⟨h, -⟩ |
        ⟨-, hp, hsum, -, -⟩ | ⟨h, -⟩ | ⟨h, -⟩ | ⟨h, -⟩ | ⟨h, -⟩ | ⟨h, -⟩ | ⟨h, -⟩ | ⟨h, -⟩ |
        ⟨h, -⟩ | ⟨h, -⟩ | ⟨h, -⟩ | ⟨h, -⟩
      case sumWait => exact toInt_finalSum rfl (hsum ▸ abs_sumUpTo_le hL hp.lt.le) rfl
      all_goals exact absurd (h.symm.trans hst) (by simp)

/-- The sum of squares of a row is exact. -/
theorem varSum_lt (hL : 0 < cmd.rowLen.toNat) (hrows : 0 < cmd.numRows.toNat)
    (hs : x.be.state = .idle) (hlog : x.log = []) (t : ℕ) (g : Grants)
    (hst : (lnormBackend.run cmd gs x t).be.state = .varWait) :
    (lnormBackend.run cmd gs x t).be.varSumR.toNat +
      ((lnormBackend.run cmd gs x t).be.absDiffSqW
        (rspOf g (lnormBackend.run cmd gs x t))).toNat < 2 ^ 32 := by
  cases t with
  | zero => exact absurd (hs.symm.trans hst) (by simp)
  | succ t =>
      rcases (inv_run gs hL hrows hs hlog t).phase with ⟨h, -⟩ | ⟨h, -⟩ | ⟨h, -⟩ |
        ⟨h, -⟩ | ⟨h, -⟩ | @⟨i, b, -, hp, hmean, hvar, ha⟩ | ⟨h, -⟩ | ⟨h, -⟩ | ⟨h, -⟩ | ⟨h, -⟩ |
        ⟨h, -⟩ | ⟨h, -⟩ | ⟨h, -⟩ | ⟨h, -⟩
      case varWait =>
        have hsum := cmd.varUpTo_le (cmd.rowWise.rowMem x.mem.act i) hL i (b + 1)
        have hlen := cmd.rowLen.isLt
        have hlt := hp.lt
        rw [hvar, toNat_absDiffSqW hmean (cmd.mean_bounds _ hL i) (arrived_data ha),
          ← cmd.varUpTo_succ]
        omega
      all_goals exact absurd (h.symm.trans hst) (by simp)

/-- No division has a zero divisor. -/
theorem divDenom_ne_zero (hL : 0 < cmd.rowLen.toNat) (hrows : 0 < cmd.numRows.toNat)
    (hs : x.be.state = .idle) (hlog : x.log = []) (t : ℕ)
    (hd : (lnormBackend.run cmd gs x t).be.dividing) :
    (lnormBackend.run cmd gs x t).be.divDenomR ≠ 0 := by
  have hpos : ∀ {n d k regs cnt} {denom : BitVec 32}, 0 < d →
      SerialArith.DivRun n d k regs denom cnt → denom ≠ 0 := by
    intro n d k regs cnt denom hd hrun hzero
    have hden := hrun.denom
    rw [hzero] at hden
    exact hd.ne hden
  cases t with
  | zero => exact absurd hd (by simp [dividing, hs])
  | succ t =>
      rcases (inv_run gs hL hrows hs hlog t).phase with ⟨h, -⟩ | ⟨h, -⟩ | ⟨h, -⟩ |
        ⟨-, -, -, -, hdiv⟩ | ⟨h, -⟩ | ⟨h, -⟩ | ⟨-, -, -, hdiv⟩ | ⟨h, -⟩ | ⟨h, -⟩ | ⟨h, -⟩ |
        ⟨-, -, -, hdiv⟩ | ⟨h, -⟩ | ⟨h, -⟩ | ⟨h, -⟩
      case meanDiv => exact hpos hL hdiv
      case varDiv => exact hpos hL hdiv
      case normDiv => exact hpos (cmd.sigma_pos _ _) hdiv
      all_goals exact absurd hd (by simp [dividing, h])

end Performs

/-- A layer normalisation command on a device in any state it can reach, under
any fair schedule, in place or onto a disjoint region: every element is
written once with its normalised value and nothing else is, no sum wraps, no
divisor is zero, and the narrowing of the distance to the mean is safe. -/
theorem lnorm_correct {cmd : LnormCmd} {gs : ℕ → Grants} {x : Sys LnormCtrl} (hx : Reached x)
    (hv : cmd.rowWise.Valid) (hfair : FairGrants gs) (hs : x.be.state = .idle) (hlog : x.log = []) :
    lnormBackend.Performs cmd gs x (cmd.writesOf x.mem.act) ∧
      ((cmd.writesOf x.mem.act).map Prod.fst).Nodup ∧
      (∀ t a, (∀ e < cmd.numRows.toNat * cmd.rowLen.toNat,
          a ≠ .ofNat 13 (cmd.outAddr.toNat + e)) →
        (lnormBackend.run cmd gs x t).mem.act a = x.mem.act a) ∧
      (∀ t, (lnormBackend.run cmd gs x t).mem.wt = x.mem.wt) ∧
      (∀ t g, (lnormBackend.run cmd gs x t).be.state = .sumWait →
        ((lnormBackend.run cmd gs x t).be.finalSum
            (rspOf g (lnormBackend.run cmd gs x t))).toInt =
          (lnormBackend.run cmd gs x t).be.sumR.toInt +
            (rspOf g (lnormBackend.run cmd gs x t)).actRdRdata.toInt) ∧
      (∀ t g, (lnormBackend.run cmd gs x t).be.state = .varWait →
        (lnormBackend.run cmd gs x t).be.varSumR.toNat +
          ((lnormBackend.run cmd gs x t).be.absDiffSqW
            (rspOf g (lnormBackend.run cmd gs x t))).toNat < 2 ^ 32) ∧
      (∀ t, (lnormBackend.run cmd gs x t).be.dividing →
        (lnormBackend.run cmd gs x t).be.divDenomR ≠ 0) ∧
      ∀ t rsp, (lnormBackend.run cmd gs x t).be.absDiffW rsp >>> 16 = 0 := by
  have hL := hv.rowLen_pos
  have hrows := hv.numRows_pos
  have hperf := performs hL hrows hfair hs hlog
  rw [← tableWrites_eq, ← RowWise.runWrites_eq_tableWrites hv cmd.rowWise_local]
  refine ⟨hperf, RowWise.nodup_runWrites hv, fun t a ha ↦ ?_,
    fun t ↦ wt_run lnormBackend cmd gs x t, sum_exact hL hrows hs hlog, varSum_lt hL hrows hs hlog,
    divDenom_ne_zero hL hrows hs hlog,
    fun t ↦ absDiffW_upper (meanOk_run hL hrows hs hlog hx.meanOk t)⟩
  rw [act_eq_store lnormBackend cmd gs hlog]
  exact RowWise.store_of_isPrefix (hperf.sound t) ha

/-- Two rows of two elements, in place. -/
def inPlaceCmd : LnormCmd := ⟨16, 16, 2, 2, 4⟩

theorem lnorm_correct_inPlace :
    lnormBackend.Performs inPlaceCmd (fun _ ↦ .all)
      (.reset .reset (fun a ↦ a.setWidth 8 * a.setWidth 8) fun _ ↦ 0)
      [(16, 240), (17, 17), (18, 240), (19, 16)] := by
  have hvalid : inPlaceCmd.rowWise.Valid := by constructor <;> decide
  have hperf := (lnorm_correct (.reset (fun a ↦ a.setWidth 8 * a.setWidth 8) fun _ ↦ 0) hvalid
    fairGrants_all rfl rfl).1
  have hwrites : inPlaceCmd.writesOf (fun a ↦ a.setWidth 8 * a.setWidth 8) =
      [(16, 240), (17, 17), (18, 240), (19, 16)] := by decide +kernel
  exact hwrites ▸ hperf

end LnormCtrl

end LgNpu
