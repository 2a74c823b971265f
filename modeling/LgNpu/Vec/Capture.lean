import LgNpu.Vec.Exact

/-!
# Catching the operands

`vec_ctrl` tracks grants while it requests and catches data while it waits.  An
operand granted a cycle before the other one arrives between the two and is
lost: a command is served exactly on the schedules that grant the two reads of
each element together.
-/

namespace LgNpu

def BeReq.actRead (q : BeReq) : List Addr := if q.actRdReq then [q.actRdAddr] else []

def BeReq.wtRead (q : BeReq) : List Addr := if q.wtRdReq then [q.wtRdAddr] else []

section

variable {S Cmd : Type} (b : Backend S Cmd) (cmd : Cmd) (gs : ℕ → Grants) (x : Sys S)

/-- The activation addresses read in cycles `0, …, t - 1`. -/
def Backend.actReads (t : ℕ) : List Addr :=
  (List.range t).flatMap fun u ↦ ((b.run cmd gs x u).granted b (gs u)).actRead

def Backend.wtReads (t : ℕ) : List Addr :=
  (List.range t).flatMap fun u ↦ ((b.run cmd gs x u).granted b (gs u)).wtRead

theorem actReads_succ (t : ℕ) : b.actReads cmd gs x (t + 1) =
    b.actReads cmd gs x t ++ ((b.run cmd gs x t).granted b (gs t)).actRead := by
  rw [Backend.actReads, List.range_succ, List.flatMap_append, List.flatMap_singleton]
  rfl

theorem wtReads_succ (t : ℕ) : b.wtReads cmd gs x (t + 1) =
    b.wtReads cmd gs x t ++ ((b.run cmd gs x t).granted b (gs t)).wtRead := by
  rw [Backend.wtReads, List.range_succ, List.flatMap_append, List.flatMap_singleton]
  rfl

end

namespace VecCtrl

variable (cmd : VecCmd) (gs : ℕ → Grants) (x : Sys VecCtrl)

/-- While the reads of an element are requested, a cycle grants both or
neither. -/
def Paired : Prop := ∀ t, (vecBackend.run cmd gs x t).be.state = .read → (gs t).act = (gs t).wt

/-- Each operand of each element is read exactly once and caught, the command
ends, and its writes are those of immediate grants. -/
structure Served : Prop where
  actReads : ∀ t, vecBackend.actReads cmd gs x t <+: (List.range cmd.length.toNat).map cmd.aAt
  wtReads : ∀ t, vecBackend.wtReads cmd gs x t <+: (List.range cmd.length.toNat).map cmd.bAt
  allRead : ∀ t, vecBackend.done (vecBackend.run cmd gs x t).be = true →
    vecBackend.actReads cmd gs x t = (List.range cmd.length.toNat).map cmd.aAt ∧
      vecBackend.wtReads cmd gs x t = (List.range cmd.length.toNat).map cmd.bAt
  caught : ∀ t, (vecBackend.run cmd gs x t).be.state = .write →
    (vecBackend.run cmd gs x t).be.aDataR = (vecBackend.run cmd gs x t).mem.act
        ((cmd.aAt (vecBackend.run cmd gs x t).log.length).setWidth 13) ∧
      (vecBackend.run cmd gs x t).be.bDataR = (vecBackend.run cmd gs x t).mem.wt
        ((cmd.bAt (vecBackend.run cmd gs x t).log.length).setWidth 12)
  ends : vecBackend.Ends cmd gs x
  sameWrites : ∃ W, vecBackend.Performs cmd (fun _ ↦ .all) x W ∧ vecBackend.Performs cmd gs x W

variable {cmd gs x}

/-! ## Paired schedules -/

/-- Grants that no request waits for do not matter. -/
theorem step_congr {y : Sys VecCtrl} {v : Bool} {g g' : Grants} (hs : y.be.state ≠ .read)
    (hout : g.out = g'.out) : y.step vecBackend cmd v g = y.step vecBackend cmd v g' := by
  have hgate : y.granted vecBackend g = y.granted vecBackend g' := by
    simp [Sys.granted, BeReq.gate, vecBackend, req, hs, hout]
  rw [Sys.step, Sys.step, hgate]

/-- The schedule with the reads granted outside the reading state. -/
def eager (cmd : VecCmd) (gs : ℕ → Grants) (x : Sys VecCtrl) (t : ℕ) : Grants :=
  if (vecBackend.run cmd gs x t).be.state = .read then gs t else ⟨true, true, (gs t).out⟩

theorem run_eager (t : ℕ) :
    vecBackend.run cmd (eager cmd gs x) x t = vecBackend.run cmd gs x t := by
  induction t with
  | zero => rfl
  | succ t ih =>
      rw [run_succ, run_succ, ih, eager]
      split
      · rfl
      · next hs => exact step_congr hs rfl

theorem fairGrants_eager (hfair : FairGrants gs) : FairGrants (eager cmd gs x) := by
  intro i t
  obtain ⟨u, hu, hg⟩ := hfair i t
  refine ⟨u, hu, ?_⟩
  change (eager cmd gs x u).port i = true
  rw [eager]
  split
  · exact hg
  · cases i with
    | act => rfl
    | wt => rfl
    | out => exact hg

theorem Paired.together (h : Paired cmd gs x) : Together (eager cmd gs x) := by
  intro t
  rw [eager]
  split
  · next hs => exact h t hs
  · rfl

section

variable (hpos : 0 < cmd.length.toNat) (h : Paired cmd gs x) (hs : x.be.state = .idle)
  (hlog : x.log = []) (hn : x.mem.biasPendingR = false)
include hpos h hs hlog hn

theorem Paired.inv_run (t : ℕ) :
    Inv cmd x.mem.act x.mem.wt (vecBackend.run cmd gs x (t + 1)) := by
  rw [← run_eager]
  exact VecCtrl.inv_run hpos h.together hs hlog hn t

theorem Paired.performs (hfair : FairGrants gs) : vecBackend.Performs cmd gs x
    (cmd.runWrites x.mem.act x.mem.wt cmd.length.toNat) := by
  obtain ⟨hsound, T, hdone, hfull⟩ :=
    VecCtrl.performs hpos (fairGrants_eager hfair) h.together hs hlog hn
  simp only [run_eager] at hsound hdone hfull
  exact ⟨hsound, T, hdone, hfull⟩

end

/-! ## The reads made -/

def readCount (y : Sys VecCtrl) : ℕ :=
  y.log.length + if y.be.state = .wait ∨ y.be.state = .write then 1 else 0

section

variable {m : BitVec 13 → Byte} {w : BitVec 12 → Byte} {y : Sys VecCtrl} {g : Grants}

/-- An edge reads both operands of the next element, or nothing. -/
theorem Inv.reads_step (h : Inv cmd m w y) (hg : y.be.state = .read → g.act = g.wt) :
    ((y.granted vecBackend g).actRead = [] ∧ (y.granted vecBackend g).wtRead = [] ∧
      readCount (y.step vecBackend cmd false g) = readCount y) ∨
    ((y.granted vecBackend g).actRead = [cmd.aAt (readCount y)] ∧
      (y.granted vecBackend g).wtRead = [cmd.bAt (readCount y)] ∧
      readCount (y.step vecBackend cmd false g) = readCount y + 1) := by
  have hnone : y.be.state ≠ .read → (y.granted vecBackend g).actRead = [] ∧
      (y.granted vecBackend g).wtRead = [] := fun hne ↦ by
    simp [Sys.granted, BeReq.gate, BeReq.actRead, BeReq.wtRead, vecBackend, req, hne]
  cases h.phase with
  | loadCfg hs hl hlog =>
      have hbe : y.be.step cmd false (rspOf g y) = _ := step_loadCfg hs
      have hlog' : (y.step vecBackend cmd false g).log = y.log := log_step (by simp [hs])
      refine .inl ⟨(hnone (by simp [hs])).1, (hnone (by simp [hs])).2, ?_⟩
      simp [readCount, be_step, hbe, hlog', hs]
  | @read i hs he ha hb =>
      obtain ⟨hga, hgb⟩ := rspOf_read (g := g) h.calm hs ha hb
      have hbe : y.be.step cmd false (rspOf g y) = _ := step_read hs
      have hlog' : (y.step vecBackend cmd false g).log = y.log := log_step (by simp [hs])
      have hlen : y.log.length = i := by rw [he.log, VecCmd.length_runWrites]
      have hcount : readCount y = i := by simp [readCount, hlen, hs]
      have hst : (y.step vecBackend cmd false g).be.state = if g.wt then .wait else .read := by
        rw [be_step, hbe, ha, hb, hga, hgb, hg hs]
        simp
      rw [hcount]
      cases hw : g.wt with
      | true =>
          have hact : g.act = true := (hg hs).trans hw
          refine .inr ⟨?_, ?_, ?_⟩
          · simp [BeReq.actRead, Sys.granted, BeReq.gate, vecBackend, req, hs, ha, hact, he.aAddr]
          · simp [BeReq.wtRead, Sys.granted, BeReq.gate, vecBackend, req, hs, hb, hw, he.bAddr]
          · simp [readCount, hst, hw, hlog', hlen]
      | false =>
          have hact : g.act = false := (hg hs).trans hw
          refine .inl ⟨?_, ?_, ?_⟩
          · simp [BeReq.actRead, Sys.granted, BeReq.gate, hact]
          · simp [BeReq.wtRead, Sys.granted, BeReq.gate, hw]
          · simp [readCount, hst, hw, hlog', hlen]
  | wait hs he hva hvb ha hb =>
      have hbe : y.be.step cmd false (rspOf g y) = _ := step_wait hs
      have hra : (rspOf g y).actRdRvalid = true := hva
      have hrb : (rspOf g y).wtRdRvalid = true := hvb
      have hlog' : (y.step vecBackend cmd false g).log = y.log := log_step (by simp [hs])
      refine .inl ⟨(hnone (by simp [hs])).1, (hnone (by simp [hs])).2, ?_⟩
      simp [readCount, be_step, hbe, hlog', hs, hra, hrb]
  | write hs he ha hb =>
      have hlog' : (y.step vecBackend cmd false g).log = _ := log_step_write hs
      have hgnt := rspOf_write (g := g) hs
      refine .inl ⟨(hnone (by simp [hs])).1, (hnone (by simp [hs])).2, ?_⟩
      cases hout : g.out with
      | false =>
          have hbe : y.be.step cmd false (rspOf g y) = y.be :=
            step_write_hold hs (by rw [hgnt, hout])
          simp [readCount, be_step, hbe, hlog', hs, hout]
      | true =>
          have hbe : y.be.step cmd false (rspOf g y) = _ := step_write hs (by rw [hgnt, hout])
          cases hl : eqLast y.be.idxR y.be.lengthR <;>
            simp [readCount, be_step, hbe, hlog', hs, hout, hl]
  | done hs hlog =>
      have hbe : y.be.step cmd false (rspOf g y) = _ := step_done hs
      have hlog' : (y.step vecBackend cmd false g).log = y.log := log_step (by simp [hs])
      refine .inl ⟨(hnone (by simp [hs])).1, (hnone (by simp [hs])).2, ?_⟩
      simp [readCount, be_step, hbe, hlog', hs]
  | idle hs hlog =>
      have hbe : y.be.step cmd false (rspOf g y) = _ := step_idle hs
      have hlog' : (y.step vecBackend cmd false g).log = y.log := log_step (by simp [hs])
      refine .inl ⟨(hnone (by simp [hs])).1, (hnone (by simp [hs])).2, ?_⟩
      simp [readCount, be_step, hbe, hlog', hs]

theorem Inv.readCount_le (h : Inv cmd m w y) : readCount y ≤ cmd.length.toNat := by
  have hlen : ∀ {i : ℕ}, AtElem cmd m w y i → y.log.length + 1 ≤ cmd.length.toNat := by
    intro i he
    rw [he.log, VecCmd.length_runWrites]
    exact he.lt
  cases h.phase with
  | loadCfg hs _ hlog => simp [readCount, hs, hlog]
  | read hs he => simpa [readCount, hs] using Nat.le_of_succ_le (hlen he)
  | wait hs he => simpa [readCount, hs] using hlen he
  | write hs he => simpa [readCount, hs] using hlen he
  | done hs hlog => simp [readCount, hs, hlog, VecCmd.length_runWrites]
  | idle hs hlog => simp [readCount, hs, hlog, VecCmd.length_runWrites]

theorem Inv.readCount_of_done (h : Inv cmd m w y) (hs : y.be.state = .done) :
    readCount y = cmd.length.toNat := by
  rw [readCount, log_eq_of_done h hs, VecCmd.length_runWrites, hs]
  simp

end

section

variable (hpos : 0 < cmd.length.toNat) (h : Paired cmd gs x) (hs : x.be.state = .idle)
  (hlog : x.log = []) (hn : x.mem.biasPendingR = false)
include hpos h hs hlog hn

/-- The reads so far are those of the first elements, each once. -/
theorem Paired.reads_eq (t : ℕ) :
    vecBackend.actReads cmd gs x t =
        (List.range (readCount (vecBackend.run cmd gs x t))).map cmd.aAt ∧
      vecBackend.wtReads cmd gs x t =
        (List.range (readCount (vecBackend.run cmd gs x t))).map cmd.bAt := by
  induction t with
  | zero => simp [Backend.actReads, Backend.wtReads, readCount, hlog, hs]
  | succ t ih =>
      rw [actReads_succ, wtReads_succ, ih.1, ih.2]
      cases t with
      | zero =>
          have hbe : x.be.step cmd true (rspOf (gs 0) x) = _ := step_accept hs
          have hlog' : (x.step vecBackend cmd true (gs 0)).log = x.log := log_step (by simp [hs])
          have hzero : readCount x = 0 := by simp [readCount, hlog, hs]
          have hone : readCount (x.step vecBackend cmd true (gs 0)) = 0 := by
            simp [readCount, be_step, hbe, hlog', hlog]
          have hact : (x.granted vecBackend (gs 0)).actRead = [] := by
            simp [Sys.granted, BeReq.gate, BeReq.actRead, vecBackend, req, hs]
          have hwt : (x.granted vecBackend (gs 0)).wtRead = [] := by
            simp [Sys.granted, BeReq.gate, BeReq.wtRead, vecBackend, req, hs]
          rw [run_zero, run_one, hact, hwt, hzero, hone]
          exact ⟨rfl, rfl⟩
      | succ t =>
          have hinv := h.inv_run hpos hs hlog hn t
          rcases hinv.reads_step (h (t + 1)) with ⟨hact, hwt, hcount⟩ | ⟨hact, hwt, hcount⟩
          · rw [hact, hwt, run_succ_succ, hcount, List.append_nil, List.append_nil]
            exact ⟨rfl, rfl⟩
          · rw [hact, hwt, run_succ_succ, hcount, List.range_succ, List.map_append,
              List.map_append]
            exact ⟨rfl, rfl⟩

theorem Paired.served (hfair : FairGrants gs) : Served cmd gs x := by
  have hreads := h.reads_eq hpos hs hlog hn
  have hle : ∀ t, readCount (vecBackend.run cmd gs x t) ≤ cmd.length.toNat := by
    intro t
    cases t with
    | zero => simp [readCount, hlog, hs]
    | succ t => exact (h.inv_run hpos hs hlog hn t).readCount_le
  have hperf := h.performs hpos hs hlog hn hfair
  refine ⟨fun t ↦ ?_, fun t ↦ ?_, fun t hdone ↦ ?_, fun t hw ↦ ?_, ?_, ?_⟩
  · rw [(hreads t).1]
    exact WriteLog.map_range_isPrefix _ (hle t)
  · rw [(hreads t).2]
    exact WriteLog.map_range_isPrefix _ (hle t)
  · have hst : (vecBackend.run cmd gs x t).be.state = .done := of_decide_eq_true hdone
    obtain _ | t := t
    · exact absurd (hs.symm.trans hst) (by simp)
    have hcount := (h.inv_run hpos hs hlog hn t).readCount_of_done hst
    rw [(hreads _).1, (hreads _).2, hcount]
    exact ⟨rfl, rfl⟩
  · obtain _ | t := t
    · exact absurd (hs.symm.trans hw) (by simp)
    have hinv := h.inv_run hpos hs hlog hn t
    cases hinv.phase with
    | write _ he ha hb =>
        rw [ha, hb, hinv.act, hinv.wt, he.log, VecCmd.length_runWrites]
        exact ⟨rfl, rfl⟩
    | loadCfg hs' => exact absurd (hs'.symm.trans hw) (by simp)
    | read hs' => exact absurd (hs'.symm.trans hw) (by simp)
    | wait hs' => exact absurd (hs'.symm.trans hw) (by simp)
    | done hs' => exact absurd (hs'.symm.trans hw) (by simp)
    | idle hs' => exact absurd (hs'.symm.trans hw) (by simp)
  · obtain ⟨T, hT, -⟩ := hperf.finish
    exact ⟨T, hT⟩
  · exact ⟨_, VecCtrl.performs hpos fairGrants_all (fun _ ↦ rfl) hs hlog hn, hperf⟩

end

/-! ## Schedules that part the reads -/

/-- An operand has been granted, and its data has come without being caught. -/
inductive Lost (y : Sys VecCtrl) : Prop
  | actRead (hs : y.be.state = .read) (hg : y.be.aGntR = true) (hv : y.be.aValR = false) : Lost y
  | actWait (hs : y.be.state = .wait) (hv : y.be.aValR = false)
      (hm : y.mem.actBuf.beRdAcceptR = false) : Lost y
  | wtRead (hs : y.be.state = .read) (hg : y.be.bGntR = true) (hv : y.be.bValR = false) : Lost y
  | wtWait (hs : y.be.state = .wait) (hv : y.be.bValR = false) (hm : y.mem.wtRvalid = false) :
      Lost y

section

variable {y : Sys VecCtrl} {g : Grants}

theorem Lost.not_done (h : Lost y) : vecBackend.done y.be = false := by
  cases h with
  | actRead hs => simp [vecBackend, hs]
  | actWait hs => simp [vecBackend, hs]
  | wtRead hs => simp [vecBackend, hs]
  | wtWait hs => simp [vecBackend, hs]

theorem Lost.step (h : Lost y) (hn : y.mem.biasPendingR = false) (v : Bool) :
    Lost (y.step vecBackend cmd v g) := by
  have hmemA : (y.step vecBackend cmd v g).mem.actBuf.beRdAcceptR =
      (y.granted vecBackend g).actRdReq := rfl
  have hmemB : (y.step vecBackend cmd v g).mem.wtRvalid = (y.granted vecBackend g).wtRdReq :=
    NpuMemTop.wtRvalid_step hn one_reader
  cases h with
  | actRead hs hg hv =>
      have hbe : y.be.step cmd v (rspOf g y) = _ := step_read hs
      have hfree : (y.granted vecBackend g).actRdReq = false := by
        simp [Sys.granted, BeReq.gate, vecBackend, req, hg]
      cases hwait : (y.be.aGntR || (rspOf g y).actRdGnt) && (y.be.bGntR || (rspOf g y).wtRdGnt) with
      | true => exact .actWait (by rw [be_step, hbe, hwait]; rfl) (by rw [be_step, hbe, hv]) hfree
      | false =>
          exact .actRead (by rw [be_step, hbe, hwait]; rfl) (by rw [be_step, hbe, hg]; rfl)
            (by rw [be_step, hbe, hv])
  | actWait hs hv hm =>
      have hbe : y.be.step cmd v (rspOf g y) = _ := step_wait hs
      have hra : (rspOf g y).actRdRvalid = false := hm
      refine .actWait ?_ ?_ ?_
      · rw [be_step, hbe, hv, hra]
        rfl
      · rw [be_step, hbe, hv, hra]
        rfl
      · rw [hmemA]
        simp [Sys.granted, BeReq.gate, vecBackend, req, hs]
  | wtRead hs hg hv =>
      have hbe : y.be.step cmd v (rspOf g y) = _ := step_read hs
      have hfree : (y.granted vecBackend g).wtRdReq = false := by
        simp [Sys.granted, BeReq.gate, vecBackend, req, hg]
      cases hwait : (y.be.aGntR || (rspOf g y).actRdGnt) && (y.be.bGntR || (rspOf g y).wtRdGnt) with
      | true =>
          exact .wtWait (by rw [be_step, hbe, hwait]; rfl) (by rw [be_step, hbe, hv])
            (hmemB.trans hfree)
      | false =>
          exact .wtRead (by rw [be_step, hbe, hwait]; rfl) (by rw [be_step, hbe, hg]; rfl)
            (by rw [be_step, hbe, hv])
  | wtWait hs hv hm =>
      have hbe : y.be.step cmd v (rspOf g y) = _ := step_wait hs
      have hrb : (rspOf g y).wtRdRvalid = false := hm
      refine .wtWait ?_ ?_ ?_
      · rw [be_step, hbe, hv, hrb, Bool.or_self, Bool.and_false]
        rfl
      · rw [be_step, hbe, hv, hrb]
        rfl
      · rw [hmemB]
        simp [Sys.granted, BeReq.gate, vecBackend, req, hs]

/-- A cycle that grants one read alone loses its operand. -/
theorem lost_of_parted (hs : y.be.state = .read) (hva : y.be.aValR = false)
    (hvb : y.be.bValR = false) (hn : y.mem.biasPendingR = false) (hg : g.act ≠ g.wt) (v : Bool) :
    Lost (y.step vecBackend cmd v g) := by
  cases ha : y.be.aGntR with
  | true => exact (Lost.actRead hs ha hva).step hn v
  | false =>
  cases hb : y.be.bGntR with
  | true => exact (Lost.wtRead hs hb hvb).step hn v
  | false =>
      obtain ⟨hga, hgb⟩ := rspOf_read (g := g) hn hs ha hb
      have hbe : y.be.step cmd v (rspOf g y) = _ := step_read hs
      have hst : (y.step vecBackend cmd v g).be.state = .read := by
        rw [be_step, hbe, ha, hb, hga, hgb]
        cases hact : g.act <;> cases hwt : g.wt <;> simp_all
      cases hact : g.act with
      | true =>
          exact .actRead hst (by rw [be_step, hbe, hga, hact, Bool.or_true])
            (by rw [be_step, hbe, hva])
      | false =>
          have hwt : g.wt = true := by
            rw [hact] at hg
            exact Bool.eq_true_of_not_eq_false hg.symm
          exact .wtRead hst (by rw [be_step, hbe, hgb, hwt, Bool.or_true])
            (by rw [be_step, hbe, hvb])

/-- Nothing is caught before both reads are granted. -/
structure Clear (y : Sys VecCtrl) : Prop where
  calm : y.mem.biasPendingR = false
  flags : y.be.state = .read → y.be.aValR = false ∧ y.be.bValR = false

theorem Clear.step (h : Clear y) (v : Bool) : Clear (y.step vecBackend cmd v g) := by
  refine ⟨NpuMemTop.biasPendingR_step h.calm one_reader, ?_⟩
  rw [be_step]
  cases hs : y.be.state with
  | idle =>
      cases v with
      | false => simp [step_idle hs, hs]
      | true => simp [step_accept hs]
  | loadCfg => simp [step_loadCfg hs]
  | read =>
      rw [step_read hs]
      exact fun _ ↦ h.flags hs
  | wait =>
      rw [step_wait hs]
      intro hnext
      split at hnext <;> exact absurd hnext (by simp)
  | write =>
      cases hg : (rspOf g y).outWrGnt with
      | false => simp [step_write_hold hs hg, hs]
      | true => simp [step_write hs hg]
  | done => simp [step_done hs]

end

theorem Served.paired (hs : x.be.state = .idle) (hn : x.mem.biasPendingR = false)
    (h : Served cmd gs x) : Paired cmd gs x := by
  have hclear : ∀ t, Clear (vecBackend.run cmd gs x t) := by
    intro t
    induction t with
    | zero => exact ⟨hn, fun hread ↦ absurd (hs.symm.trans hread) (by simp)⟩
    | succ t ih => exact ih.step _
  intro t hread
  by_contra hne
  have hlost : ∀ u, t + 1 ≤ u → Lost (vecBackend.run cmd gs x u) := by
    intro u hu
    induction u, hu using Nat.le_induction with
    | base =>
        obtain ⟨hva, hvb⟩ := (hclear t).flags hread
        exact lost_of_parted hread hva hvb (hclear t).calm hne _
    | succ u _ ih => exact ih.step (hclear u).calm _
  obtain ⟨T, hT⟩ := h.ends
  rcases Nat.lt_or_ge t T with hlt | hge
  · exact Bool.false_ne_true ((hlost T hlt).not_done.symm.trans hT)
  · have hst : (vecBackend.run cmd gs x T).be.state = .done := of_decide_eq_true hT
    obtain rfl | hgt := Nat.eq_or_lt_of_le hge
    · exact absurd (hread.symm.trans hst) (by simp)
    have hnext : (vecBackend.run cmd gs x (T + 1)).be.state = .idle := by
      rw [run_succ, be_step, step_done hst]
    obtain ⟨u, rfl⟩ : ∃ u, t = u + 1 := ⟨t - 1, by omega⟩
    exact absurd ((idle_run (by omega) hnext).symm.trans hread) (by simp)


/-- A command is served exactly on the schedules that grant the two reads of
each element in one cycle. -/
theorem served_iff_paired (hpos : 0 < cmd.length.toNat) (hfair : FairGrants gs)
    (hs : x.be.state = .idle) (hlog : x.log = []) (hn : x.mem.biasPendingR = false) :
    Served cmd gs x ↔ Paired cmd gs x :=
  ⟨Served.paired hs hn, fun h ↦ h.served hpos hs hlog hn hfair⟩

/-- The two reads come together now and then, the writes on their own. -/
def sometimes (t : ℕ) : Grants := ⟨t % 3 = 0, t % 3 = 0, t % 2 = 0⟩

theorem fairGrants_sometimes : FairGrants sometimes := by
  intro i t
  refine ⟨6 * t, by omega, ?_⟩
  cases i with
  | act => exact decide_eq_true (by omega)
  | wt => exact decide_eq_true (by omega)
  | out => exact decide_eq_true (by omega)

theorem served_square : Served squareCmd sometimes
    (.reset .reset (fun a ↦ a.setWidth 8) fun a ↦ a.setWidth 8) :=
  (served_iff_paired (by decide) fairGrants_sometimes rfl rfl rfl).mpr fun _ _ ↦ rfl

/-- The weight read is held back in cycle 2 only. -/
def wtOneLate (t : ℕ) : Grants := ⟨true, t ≠ 2, true⟩

theorem fairGrants_wtOneLate : FairGrants wtOneLate := by
  intro i t
  cases i with
  | act => exact ⟨t, le_rfl, rfl⟩
  | wt =>
      refine ⟨t + 3, by omega, ?_⟩
      exact decide_eq_true (show t + 3 ≠ 2 by omega)
  | out => exact ⟨t, le_rfl, rfl⟩

theorem not_served_wtOneLate : FairGrants wtOneLate ∧
    ¬ Served squareCmd wtOneLate
      (.reset .reset (fun a ↦ a.setWidth 8) fun a ↦ a.setWidth 8) := by
  refine ⟨fairGrants_wtOneLate, fun h ↦ ?_⟩
  have hread : (vecBackend.run squareCmd wtOneLate
      (.reset .reset (fun a ↦ a.setWidth 8) fun a ↦ a.setWidth 8) 2).be.state = .read := by decide
  exact absurd (h.paired rfl rfl 2 hread) (by decide)

end VecCtrl

end LgNpu
