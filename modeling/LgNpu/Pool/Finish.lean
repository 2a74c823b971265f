import LgNpu.Pool.Run

/-!
# Pooling commands that end

Whether a pooling command ends depends on its loop nests alone: with no side of
them zero every edge is progress, wherever the regions lie, and with a zero
side the last output is never reached.
-/

namespace LgNpu

namespace PoolCtrl

open PoolCmd

/-! ## Rank -/

section Rank

variable (cmd : PoolCmd)

/-- Upper bound on the edges left before the window position moves. -/
def edgesLeft (s : PoolCtrl) : ℕ :=
  match s.state with
  | .rd => 36
  | .wait => 35
  | .next => 34
  | .avgDiv => 2 + s.divCntR.toNat
  | .wr => 1
  | _ => 0

/-- Outputs left, window positions left, edges left at this position. -/
def rank (x : Sys PoolCtrl) : ℕ ×ₗ ℕ ×ₗ ℕ :=
  toLex (if x.be.state = .loadCfg then cmd.numOut + 1 else cmd.numOut - x.log.length,
    toLex (cmd.area - (x.be.rR.toNat * cmd.poolS.toNat + x.be.sR.toNat), edgesLeft x.be))

def waitsOn (x : Sys PoolCtrl) : Option Port :=
  match x.be.state with
  | .rd => if x.be.oobW then none else some .act
  | .wr => some .out
  | _ => none

variable {cmd} {m : BitVec 13 → Byte} {x y : Sys PoolCtrl} {e p : ℕ}

theorem rank_lt_of_log (hx : x.be.state ≠ .loadCfg) (hy : y.be.state ≠ .loadCfg)
    (hlt : x.log.length < y.log.length) (hle : y.log.length ≤ cmd.numOut) :
    rank cmd y < rank cmd x := by
  simp only [rank, if_neg hx, if_neg hy]
  exact Prod.Lex.toLex_lt_toLex.mpr (.inl (by omega))

theorem rank_lt_of_pos {q : ℕ} (hx : x.be.state ≠ .loadCfg) (hy : y.be.state ≠ .loadCfg)
    (hlog : y.log = x.log) (hp : Inner cmd x.be p) (hq : Inner cmd y.be q) (hlt : p < q) :
    rank cmd y < rank cmd x := by
  have hpos : ∀ {z : Sys PoolCtrl} {n : ℕ}, Inner cmd z.be n →
      z.be.rR.toNat * cmd.poolS.toNat + z.be.sR.toNat = n := by
    intro z n hn
    rw [hn.row, hn.col, LoopNest.div_mul_add_mod]
  have := hq.lt
  simp only [rank, if_neg hx, if_neg hy, hlog, hpos hp, hpos hq]
  refine Prod.Lex.toLex_lt_toLex.mpr (.inr ⟨rfl, ?_⟩)
  exact Prod.Lex.toLex_lt_toLex.mpr (.inl (by omega))

theorem rank_lt_of_edges (hx : x.be.state ≠ .loadCfg) (hy : y.be.state ≠ .loadCfg)
    (hlog : y.log = x.log) (hr : y.be.rR = x.be.rR) (hs : y.be.sR = x.be.sR)
    (hlt : edgesLeft y.be < edgesLeft x.be) : rank cmd y < rank cmd x := by
  simp only [rank, if_neg hx, if_neg hy, hlog, hr, hs]
  refine Prod.Lex.toLex_lt_toLex.mpr (.inr ⟨rfl, ?_⟩)
  exact Prod.Lex.toLex_lt_toLex.mpr (.inr ⟨rfl, hlt⟩)

theorem rank_eq (hbe : y.be = x.be) (hlog : y.log = x.log) : rank cmd y = rank cmd x := by
  rw [rank, rank, hbe, hlog]

theorem waitsOn_eq (hbe : y.be = x.be) : waitsOn y = waitsOn x := by
  rw [waitsOn, waitsOn, hbe]

/-! ## The walk through the nests -/

/-- The controller is at output element `e`, whatever the data. -/
structure AtOut (cmd : PoolCmd) (x : Sys PoolCtrl) (e : ℕ) : Prop where
  loaded : Loaded cmd x.be
  outer : Outer cmd x.be e
  count : x.log.length = e

inductive Walk (cmd : PoolCmd) : Sys PoolCtrl → Prop
  | loadCfg {x : Sys PoolCtrl} (hs : x.be.state = .loadCfg) (hl : Loaded cmd x.be)
      (hlog : x.log.length = 0) : Walk cmd x
  | rd {x : Sys PoolCtrl} {e p : ℕ} (hs : x.be.state = .rd) (he : AtOut cmd x e)
      (hp : Inner cmd x.be p) : Walk cmd x
  | wait {x : Sys PoolCtrl} {e p : ℕ} (hs : x.be.state = .wait) (he : AtOut cmd x e)
      (hp : Inner cmd x.be p) (hvalid : x.mem.actBuf.beRdAcceptR = true) : Walk cmd x
  | next {x : Sys PoolCtrl} {e p : ℕ} (hs : x.be.state = .next) (he : AtOut cmd x e)
      (hp : Inner cmd x.be p) : Walk cmd x
  | avgDiv {x : Sys PoolCtrl} {e : ℕ} (hs : x.be.state = .avgDiv) (he : AtOut cmd x e) : Walk cmd x
  | wr {x : Sys PoolCtrl} {e : ℕ} (hs : x.be.state = .wr) (he : AtOut cmd x e) : Walk cmd x
  | done {x : Sys PoolCtrl} (hs : x.be.state = .done) : Walk cmd x

/-- An edge lowers the rank, or a held request leaves the system as it is. -/
def Progress (cmd : PoolCmd) (g : Grants) (x : Sys PoolCtrl) : Prop :=
  rank cmd (x.step poolBackend cmd false g) < rank cmd x ∨
    ∃ i, waitsOn x = some i ∧ g.port i = false ∧ (x.step poolBackend cmd false g).be = x.be ∧
      (x.step poolBackend cmd false g).log = x.log

variable {g : Grants}

/-- An edge outside the write state that leaves the outer loops alone. -/
theorem AtOut.of_step (he : AtOut cmd x e) (hs : x.be.state ≠ .wr) {st : PoolState} {acc : Acc}
    {hasValid : Bool} {r s : Dim} {dr : SerialArith.DivRegs 32} {dd : BitVec 32} {dc : BitVec 5}
    {ds : Bool}
    (hbe : x.be.step cmd false (rspOf g x) =
      { x.be with
        state := st, accR := acc, hasValidR := hasValid, rR := r, sR := s, divR := dr,
        divDenomR := dd, divCntR := dc, divSignR := ds }) :
    AtOut cmd (x.step poolBackend cmd false g) e := by
  obtain ⟨⟨hcfg, harea, hwxc⟩, ⟨hlt, hc, how, hoh, howb, hohb, hpix⟩, hlog⟩ := he
  refine ⟨?_, ?_, by rw [log_step hs, hlog]⟩
  · rw [be_step, hbe]
    exact ⟨hcfg, harea, hwxc⟩
  · rw [be_step, hbe]
    exact ⟨hlt, hc, how, hoh, howb, hohb, hpix⟩

/-! ### One edge in each state -/

section Step

variable (hv : cmd.Looping)

theorem walk_rd (hs : x.be.state = .rd) (he : AtOut cmd x e) (hp : Inner cmd x.be p) :
    Walk cmd (x.step poolBackend cmd false g) ∧ Progress cmd g x := by
  have hlog : (x.step poolBackend cmd false g).log = x.log := log_step (by simp [hs])
  cases ho : x.be.oobW with
  | true =>
      have hbe : x.be.step cmd false (rspOf g x) = _ := step_rd_oob hs ho
      refine ⟨.next (e := e) (p := p) (by rw [be_step, hbe]) (he.of_step (by simp [hs]) hbe) ?_,
        .inl (rank_lt_of_edges (by simp [hs]) ?_ hlog ?_ ?_ ?_)⟩
      · rw [be_step, hbe]
        exact ⟨hp.1, hp.2, hp.3⟩
      all_goals simp [be_step, hbe, edgesLeft, hs]
  | false =>
      cases hg : g.act with
      | true =>
          have hbe : x.be.step cmd false (rspOf g x) = _ :=
            step_rd_gnt hs ho (by rw [rspOf_rd hs ho, hg])
          have hreq : (x.granted poolBackend g).actRdReq = true := by
            simp [Sys.granted, BeReq.gate, poolBackend, req, hs, ho, hg]
          refine ⟨.wait (e := e) (p := p) (by rw [be_step, hbe]) (he.of_step (by simp [hs]) hbe) ?_
            hreq, .inl (rank_lt_of_edges (by simp [hs]) ?_ hlog ?_ ?_ ?_)⟩
          · rw [be_step, hbe]
            exact ⟨hp.1, hp.2, hp.3⟩
          all_goals simp [be_step, hbe, edgesLeft, hs]
      | false =>
          have hbe : x.be.step cmd false (rspOf g x) = x.be :=
            step_rd_hold hs ho (by rw [rspOf_rd hs ho, hg])
          refine ⟨.rd (e := e) (p := p) (by rw [be_step, hbe, hs])
            ⟨?_, ?_, by rw [hlog, he.count]⟩ ?_,
            .inr ⟨.act, by simp [waitsOn, hs, ho], hg, hbe, hlog⟩⟩
          · rw [be_step, hbe]
            exact he.loaded
          · rw [be_step, hbe]
            exact he.outer
          · rw [be_step, hbe]
            exact hp

theorem walk_wait (hs : x.be.state = .wait) (he : AtOut cmd x e) (hp : Inner cmd x.be p)
    (hvalid : x.mem.actBuf.beRdAcceptR = true) :
    Walk cmd (x.step poolBackend cmd false g) ∧ Progress cmd g x := by
  have hlog : (x.step poolBackend cmd false g).log = x.log := log_step (by simp [hs])
  have hbe : x.be.step cmd false (rspOf g x) = _ := step_wait hs hvalid
  refine ⟨.next (e := e) (p := p) (by rw [be_step, hbe]) (he.of_step (by simp [hs]) hbe) ?_,
    .inl (rank_lt_of_edges (by simp [hs]) ?_ hlog ?_ ?_ ?_)⟩
  · rw [be_step, hbe]
    exact ⟨hp.1, hp.2, hp.3⟩
  all_goals simp [be_step, hbe, edgesLeft, hs]

include hv

theorem walk_next (hs : x.be.state = .next) (he : AtOut cmd x e) (hp : Inner cmd x.be p) :
    Walk cmd (x.step poolBackend cmd false g) ∧ Progress cmd g x := by
  have hlog : (x.step poolBackend cmd false g).log = x.log := log_step (by simp [hs])
  cases hl : x.be.lastInnerW with
  | false =>
      have hbe : x.be.step cmd false (rspOf g x) = _ := step_next_inner hs hl
      have hp' : Inner cmd (x.step poolBackend cmd false g).be (p + 1) := by
        rw [be_step, hbe]
        exact hp.advance hv he.loaded hl rfl rfl
      exact ⟨.rd (e := e) (by rw [be_step, hbe]) (he.of_step (by simp [hs]) hbe) hp',
        .inl (rank_lt_of_pos (by simp [hs]) (by simp [be_step, hbe]) hlog hp hp'
          (Nat.lt_succ_self _))⟩
  | true =>
      cases hm : x.be.poolModeR with
      | true =>
          have hbe : x.be.step cmd false (rspOf g x) = _ := step_next_avg hs hl hm
          refine ⟨.avgDiv (e := e) (by rw [be_step, hbe]) (he.of_step (by simp [hs]) hbe),
            .inl (rank_lt_of_edges (by simp [hs]) ?_ hlog ?_ ?_ ?_)⟩
          all_goals simp [be_step, hbe, edgesLeft, hs]
      | false =>
          have hbe : x.be.step cmd false (rspOf g x) = _ := step_next_max hs hl hm
          refine ⟨.wr (e := e) (by rw [be_step, hbe]) (he.of_step (by simp [hs]) hbe),
            .inl (rank_lt_of_edges (by simp [hs]) ?_ hlog ?_ ?_ ?_)⟩
          all_goals simp [be_step, hbe, edgesLeft, hs]

omit hv in
theorem walk_avgDiv (hs : x.be.state = .avgDiv) (he : AtOut cmd x e) :
    Walk cmd (x.step poolBackend cmd false g) ∧ Progress cmd g x := by
  have hlog : (x.step poolBackend cmd false g).log = x.log := log_step (by simp [hs])
  have hbe : x.be.step cmd false (rspOf g x) = _ := step_avgDiv hs
  have hat : AtOut cmd (x.step poolBackend cmd false g) e := he.of_step (by simp [hs]) hbe
  by_cases hzero : x.be.divCntR = 0
  · refine ⟨.wr (e := e) (by rw [be_step, hbe]; exact if_pos hzero) hat,
      .inl (rank_lt_of_edges (by simp [hs]) ?_ hlog ?_ ?_ ?_)⟩
    all_goals simp [be_step, hbe, edgesLeft, hs, hzero]
  · have hpos : 0 < x.be.divCntR.toNat :=
      Nat.pos_of_ne_zero fun h ↦ hzero (BitVec.eq_of_toNat_eq h)
    have hone : (1 : BitVec 5).toNat = 1 := rfl
    have hcnt5 := x.be.divCntR.isLt
    refine ⟨.avgDiv (e := e) (by rw [be_step, hbe]; exact if_neg hzero) hat,
      .inl (rank_lt_of_edges (by simp [hs]) ?_ hlog ?_ ?_ ?_)⟩
    · rw [be_step, hbe]
      simp only [if_neg hzero]
      simp
    · rw [be_step, hbe]
    · rw [be_step, hbe]
    · rw [be_step, hbe]
      simp only [edgesLeft, hs, if_neg hzero, BitVec.toNat_sub, hone]
      omega

theorem walk_wr (hs : x.be.state = .wr) (he : AtOut cmd x e) :
    Walk cmd (x.step poolBackend cmd false g) ∧ Progress cmd g x := by
  have hlog : (x.step poolBackend cmd false g).log = _ := log_step_wr hs
  have hgnt := rspOf_wr (g := g) hs
  cases hg : g.out with
  | false =>
      have hbe : x.be.step cmd false (rspOf g x) = x.be := step_wr_hold hs (by rw [hgnt, hg])
      rw [hg] at hlog
      refine ⟨.wr (e := e) (by rw [be_step, hbe, hs]) ⟨?_, ?_, by rw [hlog, ← he.count]; rfl⟩,
        .inr ⟨.out, by simp [waitsOn, hs], hg, hbe, hlog⟩⟩
      · rw [be_step, hbe]
        exact he.loaded
      · rw [be_step, hbe]
        exact he.outer
  | true =>
      rw [hg, if_pos rfl] at hlog
      rw [hg] at hgnt
      have hcount : (x.step poolBackend cmd false g).log.length = e + 1 := by
        rw [hlog, List.length_append, he.count]
        rfl
      have hlt := he.outer.lt
      have hlast := lastOutputW_iff hv he.loaded he.outer
      cases hl : x.be.lastOutputW with
      | true =>
          have hbe : x.be.step cmd false (rspOf g x) = _ := step_wr_last hs hgnt hl
          refine ⟨.done (by rw [be_step, hbe]), .inl (rank_lt_of_log (by simp [hs]) ?_ ?_ ?_)⟩
          · simp [be_step, hbe]
          · rw [hcount, he.count]
            exact Nat.lt_succ_self e
          · rw [hcount]
            exact hlt
      | false =>
          have hbe : x.be.step cmd false (rspOf g x) = _ := step_wr_advance hs hgnt hl
          refine ⟨.rd (e := e + 1) (p := 0) (by rw [be_step, hbe]) ⟨?_, ?_, hcount⟩ ?_,
            .inl (rank_lt_of_log (by simp [hs]) ?_ ?_ ?_)⟩
          · rw [be_step, hbe]
            exact ⟨he.loaded.1, he.loaded.2, he.loaded.3⟩
          · exact he.outer.advance hv he.loaded hs hgnt hl
          · rw [be_step, hbe]
            exact Inner.zero hv rfl rfl
          · simp [be_step, hbe]
          · rw [hcount, he.count]
            exact Nat.lt_succ_self e
          · rw [hcount]
            exact hlt

theorem Walk.step (h : Walk cmd x) (hd : x.be.state ≠ .done) (g : Grants) :
    Walk cmd (x.step poolBackend cmd false g) ∧ Progress cmd g x := by
  cases h with
  | loadCfg hs hl hlog =>
      have hbe : x.be.step cmd false (rspOf g x) = _ := step_loadCfg hs
      have hst : (x.step poolBackend cmd false g).be.state = .rd := by rw [be_step, hbe]
      have hlog' : (x.step poolBackend cmd false g).log = x.log := log_step (by simp [hs])
      refine ⟨.rd (e := 0) (p := 0) hst ⟨?_, ?_, by rw [hlog', hlog]⟩ ?_,
        .inl (Prod.Lex.toLex_lt_toLex.mpr (.inl ?_))⟩
      · rw [be_step, hbe]
        exact ⟨hl.cfg, hl.area, hl.wxc⟩
      · rw [be_step, hbe]
        exact Outer.zero hv rfl rfl rfl rfl rfl rfl
      · rw [be_step, hbe]
        exact Inner.zero hv rfl rfl
      · simp only [hs, hst, if_true, reduceCtorEq, if_false]
        omega
  | rd hs he hp => exact walk_rd hs he hp
  | wait hs he hp hvalid => exact walk_wait hs he hp hvalid
  | next hs he hp => exact walk_next hv hs he hp
  | avgDiv hs he => exact walk_avgDiv hs he
  | wr hs he => exact walk_wr hv hs he
  | done hs => exact absurd hs hd

end Step

end Rank

/-! ## Ending or not -/

variable {cmd : PoolCmd} {x : Sys PoolCtrl} {gs : ℕ → Grants}

theorem Walk.accept (hs : x.be.state = .idle) (hlog : x.log = []) (g : Grants) :
    Walk cmd (x.step poolBackend cmd true g) := by
  have hbe : x.be.step cmd true (rspOf g x) = _ := step_accept hs
  refine .loadCfg (by rw [be_step, hbe]) ?_ (by rw [log_step (by simp [hs]), hlog]; rfl)
  rw [be_step, hbe]
  exact ⟨rfl, rfl, rfl⟩

theorem finishes (hv : cmd.Looping) (hfair : FairGrants gs) (hs : x.be.state = .idle)
    (hlog : x.log = []) : ∃ t, poolBackend.done (poolBackend.run cmd gs x (t + 1)).be = true := by
  have hdone : ∀ y : Sys PoolCtrl, poolBackend.done y.be = false → y.be.state ≠ .done :=
    fun y ↦ of_decide_eq_false
  refine exists_done poolBackend cmd gs wellFounded_lt hfair (Walk cmd) (rank cmd) waitsOn
    (Walk.accept hs hlog _) (fun g y h hd ↦ (h.step hv (hdone y hd) g).1) fun g y h hd ↦ ?_
  rcases (h.step hv (hdone y hd) g).2 with hlt | ⟨i, hi, hg, hbe, hlog⟩
  · exact .inl hlt
  · exact .inr ⟨i, hi, hg, (waitsOn_eq hbe).trans hi, rank_eq hbe hlog⟩

/-- Some loop has no last value. -/
structure Endless (s : PoolCtrl) : Prop where
  ne_idle : s.state ≠ .idle
  ne_done : s.state ≠ .done
  side : (s.outHR = 0 ∨ s.outWR = 0 ∨ s.inCR = 0) ∨
    ((s.poolRR = 0 ∨ s.poolSR = 0) ∧ s.state ≠ .avgDiv ∧ s.state ≠ .wr)

theorem Endless.step {s : PoolCtrl} (h : Endless s) (v : Bool) (rsp : BeRsp) :
    Endless (s.step cmd v rsp) := by
  have hna : ¬ s.accept v := fun ha ↦ h.ne_idle ha.1
  have h1 : (s.step cmd v rsp).outHR = s.outHR := if_neg hna
  have h2 : (s.step cmd v rsp).outWR = s.outWR := if_neg hna
  have h3 : (s.step cmd v rsp).inCR = s.inCR := if_neg hna
  have h4 : (s.step cmd v rsp).poolRR = s.poolRR := if_neg hna
  have h5 : (s.step cmd v rsp).poolSR = s.poolSR := if_neg hna
  have hst : (s.step cmd v rsp).state = s.stateNext v rsp := rfl
  rcases h.side with hout | ⟨hwin, hdiv, hwr⟩
  · have hlast : s.lastOutputW = false := by
      rcases hout with h0 | h0 | h0 <;> simp [lastOutputW, h0]
    have hnext : s.stateNext v rsp ≠ .idle ∧ s.stateNext v rsp ≠ .done := by
      cases hs : s.state with
      | idle => exact absurd hs h.ne_idle
      | done => exact absurd hs h.ne_done
      | _ =>
          simp only [stateNext, hs, hlast, Bool.false_eq_true, if_false]
          constructor <;> repeat' split
          all_goals simp
    exact ⟨hst ▸ hnext.1, hst ▸ hnext.2, .inl (by rwa [h1, h2, h3])⟩
  · have hlast : s.lastInnerW = false := by
      rcases hwin with h0 | h0 <;> simp [lastInnerW, h0]
    have hnext : s.stateNext v rsp = .rd ∨ s.stateNext v rsp = .wait ∨
        s.stateNext v rsp = .next := by
      cases hs : s.state with
      | idle => exact absurd hs h.ne_idle
      | done => exact absurd hs h.ne_done
      | avgDiv => exact absurd hs hdiv
      | wr => exact absurd hs hwr
      | _ =>
          simp only [stateNext, hs, hlast, Bool.false_eq_true, if_false]
          repeat' split
          all_goals simp
    refine ⟨?_, ?_, .inr ⟨by rwa [h4, h5], ?_, ?_⟩⟩ <;> rw [hst] <;>
      rcases hnext with hc | hc | hc <;> simp [hc]

theorem not_ends (hv : ¬ cmd.Looping) (hs : x.be.state = .idle) :
    ¬ poolBackend.Ends cmd gs x := by
  apply Backend.not_ends poolBackend cmd gs Endless
  · exact decide_eq_false (by simp [hs])
  · have hbe : x.be.step cmd true (rspOf (gs 0) x) = _ := step_accept hs
    rw [be_step, hbe]
    refine ⟨by simp, by simp, ?_⟩
    by_contra hside
    simp only [not_or, not_and] at hside
    obtain ⟨⟨h1, h2, h3⟩, hwin⟩ := hside
    have hpos : ∀ d : Dim, ¬ d = 0 → 0 < d.toNat := fun d hd ↦
      Nat.pos_of_ne_zero fun h0 ↦ hd (BitVec.eq_of_toNat_eq h0)
    by_cases hw : cmd.poolR = 0 ∨ cmd.poolS = 0
    · exact hwin hw (by simp) (by simp)
    · rw [not_or] at hw
      exact hv ⟨hpos _ h1, hpos _ h2, hpos _ h3, hpos _ hw.1, hpos _ hw.2⟩
  · exact fun s rsp h ↦ h.step false rsp
  · exact fun s h ↦ decide_eq_false h.ne_done

theorem ends_iff (hfair : FairGrants gs) (hs : x.be.state = .idle) (hlog : x.log = []) :
    poolBackend.Ends cmd gs x ↔ cmd.Looping := by
  constructor
  · intro h
    by_contra hv
    exact not_ends hv hs h
  · intro hv
    obtain ⟨t, ht⟩ := finishes hv hfair hs hlog
    exact ⟨t + 1, ht⟩

end PoolCtrl

end LgNpu
