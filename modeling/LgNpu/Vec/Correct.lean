import LgNpu.Vec.Run

/-!
# Vector commands end to end

On schedules that grant the two reads together a vector command performs its
writes and ends, unless the vector is empty.
-/

namespace LgNpu

namespace VecCtrl

section Rank

variable (cmd : VecCmd)

/-- Upper bound on the edges left at an element. -/
def edgesLeft : VecState → ℕ
  | .read => 3
  | .wait => 2
  | .write => 1
  | _ => 0

/-- Elements left, edges left at this one. -/
def rank (x : Sys VecCtrl) : ℕ ×ₗ ℕ :=
  toLex (if x.be.state = .loadCfg then cmd.length.toNat + 1 else cmd.length.toNat - x.log.length,
    edgesLeft x.be.state)

def waitsOn (x : Sys VecCtrl) : Option Port :=
  match x.be.state with
  | .read => some .act
  | .write => some .out
  | _ => none

variable {cmd} {m : BitVec 13 → Byte} {w : BitVec 12 → Byte} {x y : Sys VecCtrl}

theorem rank_lt_of_log (hx : x.be.state ≠ .loadCfg) (hy : y.be.state ≠ .loadCfg)
    (hlt : x.log.length < y.log.length) (hle : y.log.length ≤ cmd.length.toNat) :
    rank cmd y < rank cmd x := by
  simp only [rank, if_neg hx, if_neg hy]
  exact Prod.Lex.toLex_lt_toLex.mpr (.inl (by omega))

theorem rank_lt_of_edges (hx : x.be.state ≠ .loadCfg) (hy : y.be.state ≠ .loadCfg)
    (hlog : y.log = x.log) (hlt : edgesLeft y.be.state < edgesLeft x.be.state) :
    rank cmd y < rank cmd x := by
  simp only [rank, if_neg hx, if_neg hy, hlog]
  exact Prod.Lex.toLex_lt_toLex.mpr (.inr ⟨rfl, hlt⟩)

/-- Every edge lowers the rank, or a held request waits for its port. -/
theorem progress (h : Inv cmd m w x) (hdone : x.be.state ≠ .done) (hidle : x.be.state ≠ .idle)
    {g : Grants} (hg : g.act = g.wt) :
    rank cmd (x.step vecBackend cmd false g) < rank cmd x ∨
      ∃ i, waitsOn x = some i ∧ g.port i = false ∧
        (x.step vecBackend cmd false g).be.state = x.be.state ∧
        (x.step vecBackend cmd false g).log = x.log := by
  cases h.phase with
  | loadCfg hs hl hlog =>
      have hbe : x.be.step cmd false (rspOf g x) = _ := step_loadCfg hs
      have hst : (x.step vecBackend cmd false g).be.state = .read := by rw [be_step, hbe]
      apply Or.inl
      apply Prod.Lex.toLex_lt_toLex.mpr
      apply Or.inl
      simp only [hs, hst, if_true, reduceCtorEq, if_false]
      omega
  | read hs he ha hb =>
      have hlog : (x.step vecBackend cmd false g).log = x.log := log_step (by simp [hs])
      obtain ⟨hga, hgb⟩ := rspOf_read (g := g) h.calm hs ha hb
      have hbe : x.be.step cmd false (rspOf g x) = _ := step_read hs
      have hst : (x.step vecBackend cmd false g).be.state = if g.act then .wait else .read := by
        rw [be_step, hbe, ha, hb, hga, hgb, hg]
        simp
      cases hact : g.act with
      | true =>
          rw [hact, if_pos rfl] at hst
          exact .inl (rank_lt_of_edges (by simp [hs]) (by simp [hst]) hlog
            (by simp [hst, hs, edgesLeft]))
      | false =>
          rw [hact, if_neg Bool.false_ne_true] at hst
          exact .inr ⟨.act, by simp [waitsOn, hs], hact, by rw [hst, hs], hlog⟩
  | wait hs he hva hvb ha hb =>
      have hlog : (x.step vecBackend cmd false g).log = x.log := log_step (by simp [hs])
      have hbe : x.be.step cmd false (rspOf g x) = _ := step_wait hs
      have hra : (rspOf g x).actRdRvalid = true := hva
      have hrb : (rspOf g x).wtRdRvalid = true := hvb
      have hst : (x.step vecBackend cmd false g).be.state = .write := by
        rw [be_step, hbe, hra, hrb]
        simp
      exact .inl (rank_lt_of_edges (by simp [hs]) (by simp [hst]) hlog
        (by simp [hst, hs, edgesLeft]))
  | write hs he ha hb =>
      have hlog : (x.step vecBackend cmd false g).log = _ := log_step_write hs
      have hgnt := rspOf_write (g := g) hs
      cases hout : g.out with
      | false =>
          have hbe : x.be.step cmd false (rspOf g x) = x.be :=
            step_write_hold hs (by rw [hgnt, hout])
          rw [hout] at hlog
          exact .inr ⟨.out, by simp [waitsOn, hs], hout, congrArg VecCtrl.state hbe, hlog⟩
      | true =>
          rw [hout, if_pos rfl, he.log_succ ha hb] at hlog
          rw [hout] at hgnt
          have hbe : x.be.step cmd false (rspOf g x) = _ := step_write hs hgnt
          have hlt := he.lt
          refine .inl (rank_lt_of_log (by simp [hs]) ?_ ?_ ?_)
          · rw [be_step, hbe]
            cases eqLast x.be.idxR x.be.lengthR <;> simp
          · rw [hlog, he.log, VecCmd.length_runWrites, VecCmd.length_runWrites]
            omega
          · rw [hlog, VecCmd.length_runWrites]
            omega
  | done hs _ => exact absurd hs hdone
  | idle hs _ => exact absurd hs hidle

end Rank

/-! ## Running a command -/

section Performs

variable {cmd : VecCmd} {x : Sys VecCtrl} {gs : ℕ → Grants}

/-- The two reads of an element are granted in one cycle. -/
def Together (gs : ℕ → Grants) : Prop := ∀ t, (gs t).act = (gs t).wt

theorem inv_run (hpos : 0 < cmd.length.toNat) (htog : Together gs) (hs : x.be.state = .idle)
    (hlog : x.log = []) (hn : x.mem.biasPendingR = false) (t : ℕ) :
    Inv cmd x.mem.act x.mem.wt (vecBackend.run cmd gs x (t + 1)) := by
  induction t with
  | zero => exact Inv.accept hs hlog hn _
  | succ t ih => exact ih.step hpos (htog _)

theorem log_prefix_of_inv {m : BitVec 13 → Byte} {w : BitVec 12 → Byte} {y : Sys VecCtrl}
    (h : Inv cmd m w y) : y.log <+: cmd.runWrites m w cmd.length.toNat := by
  have hat : ∀ {i : ℕ}, AtElem cmd m w y i → y.log <+: cmd.runWrites m w cmd.length.toNat := by
    intro i he
    rw [he.log]
    exact WriteLog.program_isPrefix _ _ _ he.lt.le
  cases h.phase with
  | loadCfg _ _ hlog =>
      rw [hlog]
      exact List.nil_prefix
  | read _ he => exact hat he
  | wait _ he => exact hat he
  | write _ he => exact hat he
  | done _ hlog => rw [hlog]
  | idle _ hlog => rw [hlog]

theorem log_eq_of_done {m : BitVec 13 → Byte} {w : BitVec 12 → Byte} {y : Sys VecCtrl}
    (h : Inv cmd m w y) (hd : y.be.state = .done) : y.log = cmd.runWrites m w cmd.length.toNat := by
  cases h.phase with
  | done _ hlog => exact hlog
  | loadCfg hs => exact absurd (hs.symm.trans hd) (by simp)
  | read hs => exact absurd (hs.symm.trans hd) (by simp)
  | wait hs => exact absurd (hs.symm.trans hd) (by simp)
  | write hs => exact absurd (hs.symm.trans hd) (by simp)
  | idle hs => exact absurd (hs.symm.trans hd) (by simp)

theorem not_idle_step {s : VecCtrl} (h : s.state ≠ .idle) (hd : s.state ≠ .done) (v : Bool)
    (rsp : BeRsp) : (s.step cmd v rsp).state ≠ .idle := by
  change s.stateNext v rsp ≠ .idle
  cases hs : s.state with
  | idle => exact absurd hs h
  | done => exact absurd hs hd
  | _ =>
      simp only [stateNext, hs]
      repeat' split
      all_goals simp

theorem performs (hpos : 0 < cmd.length.toNat) (hfair : FairGrants gs) (htog : Together gs)
    (hs : x.be.state = .idle) (hlog : x.log = []) (hn : x.mem.biasPendingR = false) :
    vecBackend.Performs cmd gs x (cmd.runWrites x.mem.act x.mem.wt cmd.length.toNat) := by
  have hdone : ∀ y : Sys VecCtrl, vecBackend.done y.be = false → y.be.state ≠ .done :=
    fun y ↦ of_decide_eq_false
  apply Backend.Performs.of_inv vecBackend cmd gs hlog (Inv cmd x.mem.act x.mem.wt)
    (inv_run hpos htog hs hlog hn)
  · exact fun y h ↦ log_prefix_of_inv h
  · exact fun y h hd ↦ log_eq_of_done h (of_decide_eq_true hd)
  · refine exists_done_of vecBackend cmd gs wellFounded_lt hfair (fun g ↦ g.act = g.wt) htog
      (fun y ↦ Inv cmd x.mem.act x.mem.wt y ∧ y.be.state ≠ .idle) (rank cmd) waitsOn
      ⟨Inv.accept hs hlog hn _, ?_⟩ (fun g y hg h hd ↦ ⟨h.1.step hpos hg, ?_⟩) fun g y hg h hd ↦ ?_
    · have hbe : x.be.step cmd true (rspOf (gs 0) x) = _ := step_accept hs
      rw [be_step, hbe]
      simp
    · exact not_idle_step h.2 (hdone y hd) false _
    · rcases progress h.1 (hdone y hd) h.2 hg with hlt | ⟨i, hi, hport, hst, hlog'⟩
      · exact .inl hlt
      · refine .inr ⟨i, hi, hport, ?_, ?_⟩
        · rw [← hi, waitsOn, waitsOn, hst]
        · rw [rank, rank, hst, hlog']

/-- An empty vector has no last element. -/
structure Endless (s : VecCtrl) : Prop where
  ne_idle : s.state ≠ .idle
  ne_done : s.state ≠ .done
  length : s.lengthR = 0

theorem Endless.step {s : VecCtrl} (h : Endless s) (rsp : BeRsp) :
    Endless (s.step cmd false rsp) := by
  have hlen : (s.step cmd false rsp).lengthR = s.lengthR := by simp [VecCtrl.step, accept]
  have hlast : eqLast s.idxR s.lengthR = false := by simp [h.length]
  have hnext : s.stateNext false rsp ≠ .done := by
    cases hs : s.state with
    | idle => exact absurd hs h.ne_idle
    | done => exact absurd hs h.ne_done
    | _ =>
        simp only [stateNext, hs, hlast, Bool.false_eq_true, if_false]
        repeat' split
        all_goals simp
  exact ⟨not_idle_step h.ne_idle h.ne_done false rsp, hnext, hlen.trans h.length⟩

/-- A command ends unless its vector is empty. -/
theorem ends_iff (hfair : FairGrants gs) (htog : Together gs) (hs : x.be.state = .idle)
    (hlog : x.log = []) (hn : x.mem.biasPendingR = false) :
    vecBackend.Ends cmd gs x ↔ 0 < cmd.length.toNat := by
  constructor
  · intro h
    by_contra hpos
    refine Backend.not_ends vecBackend cmd gs Endless ?_ ?_ (fun s rsp he ↦ he.step rsp)
      (fun s he ↦ decide_eq_false he.ne_done) h
    · exact decide_eq_false (by simp [hs])
    · have hbe : x.be.step cmd true (rspOf (gs 0) x) = _ := step_accept hs
      rw [be_step, hbe]
      exact ⟨by simp, by simp, BitVec.eq_of_toNat_eq (Nat.eq_zero_of_not_pos hpos)⟩
  · intro hpos
    obtain ⟨T, hT, -⟩ := (performs hpos hfair htog hs hlog hn).finish
    exact ⟨T, hT⟩

end Performs

end VecCtrl

end LgNpu
