import LgNpu.Pool.Index
import Mathlib.Data.Prod.Lex

/-!
# Runs of the pooling controller

The invariant of `pool_ctrl` has one case for each state.  It holds under every
schedule of grants; under a fair one the controller runs to its done pulse.
-/

namespace LgNpu

namespace PoolCmd

variable (cmd : PoolCmd)

/-- The divisor the controller latches for AVG. -/
def codeArea : ℕ := cmd.poolR.toNat % 256 * (cmd.poolS.toNat % 256)

/-- The AVG result of the serial divider; with a zero divisor every quotient
bit is one and the clamp saturates. -/
def codeAvg (l : List ℤ) : ℤ :=
  if cmd.codeArea = 0 then (if l.sum < 0 then -128 else 127) else avgOf cmd.codeArea l

def codeVal (l : List ℤ) : ℤ := if cmd.poolMode then cmd.codeAvg l else maxOf l

theorem maxOf_concat (l : List ℤ) (v : ℤ) : maxOf (l ++ [v]) = max (maxOf l) v := by
  simp [maxOf]

end PoolCmd

namespace PoolCtrl

open PoolCmd

/-! ## The accumulator -/

/-- The accumulator over the elements `l` of the window seen so far. -/
structure AccIs (s : PoolCtrl) (l : List ℤ) : Prop where
  acc : s.accR.toInt = if s.poolModeR then l.sum else maxOf l
  fresh : s.hasValidR = false → l = []

theorem AccIs.nil {s : PoolCtrl} (hacc : s.accR = if !s.poolModeR then -128 else 0) :
    AccIs s [] := by
  refine ⟨?_, fun _ ↦ rfl⟩
  rw [hacc]
  cases s.poolModeR <;> rfl

theorem AccIs.snoc {s s' : PoolCtrl} {l : List ℤ} (h : AccIs s l) (d : Byte)
    (hsum : |l.sum| ≤ 128 * 8192)
    (hmode : s'.poolModeR = s.poolModeR) (hvalid : s'.hasValidR = true)
    (hacc : s'.accR =
      if !s.poolModeR then
        if !s.hasValidR || s.accR.slt (d.signExtend 32) then d.signExtend 32 else s.accR
      else s.accR + d.signExtend 32) : AccIs s' (l ++ [d.toInt]) := by
  refine ⟨?_, fun hf ↦ absurd (hf.symm.trans hvalid) Bool.false_ne_true⟩
  have hd : (d.signExtend 32).toInt = d.toInt := BitVec.toInt_signExtend_of_le (by omega)
  have hlt := BitVec.toInt_lt (x := d)
  have hle := BitVec.le_toInt d
  rw [hmode, hacc]
  cases hm : s.poolModeR with
  | true =>
      have hs : s.accR.toInt = l.sum := by rw [h.acc, hm]; rfl
      rw [abs_le] at hsum
      simp only [Bool.not_true, Bool.false_eq_true, if_false, if_true, List.sum_append,
        List.sum_singleton]
      rw [Signed.toInt_add (w := 31), hs, hd] <;> omega
  | false =>
      have hs : s.accR.toInt = maxOf l := by rw [h.acc, hm]; rfl
      simp only [Bool.not_false, if_true, Bool.false_eq_true, if_false, maxOf_concat]
      cases hv : s.hasValidR with
      | false =>
          have hmax : maxOf l = -128 := by rw [h.fresh hv]; rfl
          simp only [Bool.not_false, Bool.true_or, if_true]
          rw [hd, hmax]
          omega
      | true =>
          simp only [Bool.not_true, Bool.false_or, BitVec.slt_eq_decide, hs, hd,
            decide_eq_true_eq]
          split
          · rw [hd]
            omega
          · rw [hs]
            omega

/-! ## The result -/

theorem resultW_eq (s : PoolCtrl) : s.resultW =
    .ofInt 8 (Signed.sat8 (if s.poolModeR then s.signedQuotW.toInt else s.accR.toInt)) := by
  rw [resultW]
  cases s.poolModeR
  · exact Signed.clamp8_eq s.accR
  · exact Signed.clamp8_eq s.signedQuotW

/-- After `i` divider cycles on the sum `v`; a zero divisor shifts in ones. -/
structure Dividing (cmd : PoolCmd) (s : PoolCtrl) (v : ℤ) (i : ℕ) : Prop where
  le : i ≤ 32
  denom : s.divDenomR.toNat = cmd.codeArea
  sign : s.divSignR = decide (v < 0)
  pos : 0 < cmd.codeArea → SerialArith.DivInv v.natAbs cmd.codeArea i (32 - i) s.divR
  zero : cmd.codeArea = 0 → ∀ j < i, s.divR.quot.getLsbD j = true

theorem codeArea_lt (cmd : PoolCmd) : cmd.codeArea < 2 ^ 16 := by
  have h := Nat.mul_le_mul (show cmd.poolR.toNat % 256 ≤ 255 by omega)
    (show cmd.poolS.toNat % 256 ≤ 255 by omega)
  rw [codeArea]
  omega

theorem Dividing.init {cmd : PoolCmd} {s s' : PoolCtrl} {v : ℤ} (hl : Loaded cmd s)
    (hacc : s.accR.toInt = v)
    (hdiv : s'.divR = ⟨if s.accR.msb then -s.accR else s.accR, 0⟩)
    (hden : s'.divDenomR = s.poolAreaR.setWidth 32) (hsign : s'.divSignR = s.accR.msb) :
    Dividing cmd s' v 0 := by
  have harea : s.poolAreaR.toNat = cmd.codeArea := by
    have hlt := codeArea_lt cmd
    rw [codeArea] at hlt ⊢
    simp only [hl.area, BitVec.toNat_mul, BitVec.toNat_setWidth, Nat.reducePow]
    rw [Nat.mod_eq_of_lt (a := cmd.poolR.toNat % 256) (by omega),
      Nat.mod_eq_of_lt (a := cmd.poolS.toNat % 256) (by omega), Nat.mod_eq_of_lt (by omega)]
  refine ⟨by omega, ?_, ?_, fun _ ↦ ?_, fun _ j hj ↦ absurd hj (by omega)⟩
  · have := codeArea_lt cmd
    rw [hden, BitVec.toNat_setWidth, harea, Nat.mod_eq_of_lt (by omega)]
  · rw [hsign, Signed.msb_eq, hacc]
  · have h := SerialArith.DivInv.init (n := if s.accR.msb then -s.accR else s.accR) cmd.codeArea
    rwa [Signed.toNat_magnitude, hacc, ← hdiv] at h

theorem Dividing.step {cmd : PoolCmd} {s s' : PoolCtrl} {v : ℤ} {i : ℕ} (hi : i < 32)
    (hv : |v| ≤ 128 * 8192) (h : Dividing cmd s v i) (hdiv : s'.divR = s.divR.next s.divDenomR)
    (hden : s'.divDenomR = s.divDenomR) (hsign : s'.divSignR = s.divSignR) :
    Dividing cmd s' v (i + 1) := by
  refine ⟨by omega, by rw [hden, h.denom], by rw [hsign, h.sign], fun hpos ↦ ?_, fun hzero ↦ ?_⟩
  · have hlt := codeArea_lt cmd
    rw [abs_le] at hv
    rw [hdiv]
    exact (h.pos hpos).advance (by omega) h.denom hpos (by omega) hi
  · intro j hj
    have hden0 : s.divDenomR = 0 := BitVec.eq_of_toNat_eq (h.denom.trans hzero)
    rw [hdiv, hden0, SerialArith.DivRegs.next_zero_quot, BitVec.getLsbD_shiftConcat]
    rcases j with - | j
    · simp
    · simpa [show j + 1 < 32 by omega] using h.zero hzero j (by omega)

theorem Dividing.result {cmd : PoolCmd} {s : PoolCtrl} {l : List ℤ}
    (hl : |l.sum| ≤ 128 * 8192) (h : Dividing cmd s l.sum 32) :
    Signed.sat8 s.signedQuotW.toInt = cmd.codeAvg l := by
  have hq31 : (s.divR.quot.setWidth 31).toNat < 2 ^ 31 := (s.divR.quot.setWidth 31).isLt
  have hq : ((s.divR.quot.setWidth 31).setWidth 32).toNat = (s.divR.quot.setWidth 31).toNat := by
    rw [BitVec.toNat_setWidth, Nat.mod_eq_of_lt (by omega)]
  have hsq : s.signedQuotW.toInt = if s.divSignR then -((s.divR.quot.setWidth 31).toNat : ℤ)
      else (s.divR.quot.setWidth 31).toNat := by
    rw [signedQuotW, Signed.toInt_restore (w := 31) _ (by omega), hq]
  rw [abs_le] at hl
  rw [hsq, h.sign]
  simp only [decide_eq_true_eq]
  by_cases hzero : cmd.codeArea = 0
  · have hones : s.divR.quot.setWidth 31 = BitVec.allOnes 31 := by
      refine BitVec.eq_of_getLsbD_eq fun j hj ↦ ?_
      rw [BitVec.getLsbD_setWidth, h.zero hzero j (by omega), BitVec.getLsbD_allOnes]
      simp
    rw [codeAvg, if_pos hzero, hones, show (BitVec.allOnes 31).toNat = 2147483647 from rfl,
      Signed.sat8]
    split <;> omega
  · have hquot := (h.pos (Nat.pos_of_ne_zero hzero)).final.1
    have hsmall := Nat.div_le_self l.sum.natAbs cmd.codeArea
    rw [codeAvg, if_neg hzero, BitVec.toNat_setWidth, hquot, Nat.mod_eq_of_lt (by omega), avgOf,
      Signed.tdiv_natCast]

/-! ## The invariant -/

variable (cmd : PoolCmd) (m : BitVec 13 → Byte)

/-- The controller is producing output element `e`. -/
structure AtElem (x : Sys PoolCtrl) (e : ℕ) : Prop where
  loaded : Loaded cmd x.be
  outer : Outer cmd x.be e
  log : x.log = (cmd.flatWrites m cmd.codeVal).take e

inductive Phase : Sys PoolCtrl → Prop
  | loadCfg {x} (hs : x.be.state = .loadCfg) (hl : Loaded cmd x.be) (hlog : x.log = []) : Phase x
  | rd {x e p} (hs : x.be.state = .rd) (he : AtElem cmd m x e) (hp : Inner cmd x.be p)
      (hacc : AccIs x.be (cmd.seen m e p)) : Phase x
  | wait {x e p} (hs : x.be.state = .wait) (he : AtElem cmd m x e) (hp : Inner cmd x.be p)
      (hacc : AccIs x.be (cmd.seen m e p)) (hin : cmd.InMap (cmd.ihAt e p) (cmd.iwAt e p))
      (hvalid : x.mem.actBuf.beRdAcceptR = true)
      (hdata : x.mem.actBuf.sram.bRdata = m (.ofNat 13 (cmd.idxAt e p))) : Phase x
  | next {x e p} (hs : x.be.state = .next) (he : AtElem cmd m x e) (hp : Inner cmd x.be p)
      (hacc : AccIs x.be (cmd.seen m e (p + 1))) : Phase x
  | avgDiv {x e i} (hs : x.be.state = .avgDiv) (he : AtElem cmd m x e) (hi : i < 32)
      (hmode : cmd.poolMode = true) (hcnt : x.be.divCntR.toNat + i = 31)
      (hdiv : Dividing cmd x.be (cmd.seen m e cmd.area).sum i) : Phase x
  | wr {x e} (hs : x.be.state = .wr) (he : AtElem cmd m x e)
      (hres : x.be.resultW = .ofInt 8 (cmd.codeVal (cmd.seen m e cmd.area))) : Phase x
  | done {x} (hs : x.be.state = .done) (hlog : x.log = cmd.flatWrites m cmd.codeVal) : Phase x
  | idle {x} (hs : x.be.state = .idle) (hlog : x.log = cmd.flatWrites m cmd.codeVal) : Phase x

structure Inv (x : Sys PoolCtrl) : Prop where
  act : x.mem.act = store m x.log
  phase : Phase cmd m x

/-! ## What one edge does to the system -/

section Edge

variable {cmd} {m} {x : Sys PoolCtrl} {g : Grants} {v : Bool} {e : ℕ}

def rspOf (g : Grants) (x : Sys PoolCtrl) : BeRsp := x.mem.beRsp (x.granted poolBackend g)

theorem be_step : (x.step poolBackend cmd v g).be = x.be.step cmd v (rspOf g x) := rfl

theorem rspOf_rd (hs : x.be.state = .rd) (ho : x.be.oobW = false) :
    (rspOf g x).actRdGnt = g.act := by
  simp [rspOf, NpuMemTop.beRsp, Sys.granted, BeReq.gate, poolBackend, req, hs, ho]

theorem rspOf_wr (hs : x.be.state = .wr) : (rspOf g x).outWrGnt = g.out := by
  simp [rspOf, NpuMemTop.beRsp, Sys.granted, BeReq.gate, poolBackend, req, hs]

theorem log_step (hs : x.be.state ≠ .wr) : (x.step poolBackend cmd v g).log = x.log := by
  simp [Sys.step, Sys.granted, BeReq.gate, BeReq.write, poolBackend, req, hs]

theorem log_step_wr (hs : x.be.state = .wr) : (x.step poolBackend cmd v g).log =
    if g.out then x.log ++ [(x.be.wrAddrW, x.be.resultW)] else x.log := by
  cases hg : g.out <;>
    simp [Sys.step, Sys.granted, BeReq.gate, BeReq.write, poolBackend, req, hs, hg]

theorem act_step (h : x.mem.act = store m x.log) :
    (x.step poolBackend cmd v g).mem.act =
      store m (x.step poolBackend cmd v g).log := by
  rw [Sys.step, act_step_eq_store, h, store_append]

/-- An edge outside the write state that leaves the outer loops alone stays at
the same element. -/
theorem AtElem.of_step (he : AtElem cmd m x e) (hs : x.be.state ≠ .wr) {st : PoolState} {acc : Acc}
    {hasValid : Bool} {r s : Dim} {dr : SerialArith.DivRegs 32} {dd : BitVec 32} {dc : BitVec 5}
    {ds : Bool}
    (hbe : x.be.step cmd v (rspOf g x) =
      { x.be with
        state := st, accR := acc, hasValidR := hasValid, rR := r, sR := s, divR := dr,
        divDenomR := dd, divCntR := dc, divSignR := ds }) :
    AtElem cmd m (x.step poolBackend cmd v g) e := by
  obtain ⟨⟨hcfg, harea, hwxc⟩, ⟨hlt, hc, how, hoh, howb, hohb, hpix⟩, hlog⟩ := he
  refine ⟨?_, ?_, by rw [log_step hs, hlog]⟩ <;> rw [be_step, hbe]
  · exact ⟨hcfg, harea, hwxc⟩
  · exact ⟨hlt, hc, how, hoh, howb, hohb, hpix⟩

theorem numWrites (val : List ℤ → ℤ) : (cmd.flatWrites m val).length = cmd.numOut := by
  rw [flatWrites, List.length_map, List.length_range]

theorem wrAddrW_eq {s : PoolCtrl} (hl : Loaded cmd s) (ho : Outer cmd s e) :
    s.wrAddrW = .ofNat 16 (cmd.outAddr.toNat + e) := by
  have hbase : s.outBaseR = .ofNat 16 cmd.outAddr.toNat := by
    rw [← hl.cfg, ofNat_toNat16]
    rfl
  have hc : s.cR = .ofNat 16 (e % cmd.inC.toNat) := eq_ofNat_of_toNat ho.c
  rw [wrAddrW, hbase, ho.pix, hc, ← BitVec.ofNat_add, ← BitVec.ofNat_add, Nat.add_assoc,
    LoopNest.div_mul_add_mod]

/-- The write of element `e` extends the log by one entry. -/
theorem AtElem.log_succ (he : AtElem cmd m x e)
    (hres : x.be.resultW = .ofInt 8 (cmd.codeVal (cmd.seen m e cmd.area))) :
    x.log ++ [(x.be.wrAddrW, x.be.resultW)] = (cmd.flatWrites m cmd.codeVal).take (e + 1) := by
  have hlt := he.outer.lt
  rw [he.log, wrAddrW_eq he.loaded he.outer, hres, List.take_add_one, flatWrites]
  simp [hlt]

/-- The output region does not overlap the input, so an in-bounds read still
sees the original contents. -/
theorem read_eq (hv : cmd.Valid) (h : x.mem.act = store m x.log)
    (he : AtElem cmd m x e) {p : ℕ} (hin : cmd.InMap (cmd.ihAt e p) (cmd.iwAt e p)) :
    x.mem.act (.ofNat 13 (cmd.idxAt e p)) = m (.ofNat 13 (cmd.idxAt e p)) := by
  have hlt : cmd.idxAt e p < cmd.inAddr.toNat +
      cmd.inH.toNat * cmd.inW.toNat * cmd.inC.toNat := inIdx_lt hin he.outer.digits.2.2
  have hge : cmd.inAddr.toNat ≤ cmd.idxAt e p := by
    rw [idxAt, inIdx]
    omega
  have hin := hv.inRange
  have hout := hv.outRange
  rw [h]
  refine store_of_notMem fun w hu hwa ↦ ?_
  rw [he.log] at hu
  obtain ⟨j, hj, rfl⟩ := List.mem_map.mp (List.mem_of_mem_take hu)
  have hjlt := List.mem_range.mp hj
  have hnat := congrArg BitVec.toNat hwa
  rw [numOut] at hjlt
  simp only [BitVec.toNat_setWidth, BitVec.toNat_ofNat] at hnat
  rw [Nat.mod_eq_of_lt (a := cmd.idxAt e p) (by omega), Nat.mod_mod_of_dvd _ (by norm_num),
    Nat.mod_eq_of_lt (by omega)] at hnat
  have := hv.disjoint
  omega

end Edge

/-! ## One edge keeps the invariant -/

section Step

variable {cmd} {m} {x : Sys PoolCtrl} {e p i : ℕ} (hv : cmd.Valid) (g : Grants)
include hv

theorem phase_loadCfg (hs : x.be.state = .loadCfg) (hl : Loaded cmd x.be) (hlog : x.log = []) :
    Phase cmd m (x.step poolBackend cmd false g) := by
  have hbe : x.be.step cmd false (rspOf g x) = _ := step_loadCfg hs
  have hst : (x.step poolBackend cmd false g).be.state = .rd := by rw [be_step, hbe]
  refine .rd (e := 0) (p := 0) hst ⟨?_, ?_, ?_⟩ ?_ ?_
  · rw [be_step, hbe]
    exact ⟨hl.cfg, hl.area, hl.wxc⟩
  · rw [be_step, hbe]
    exact Outer.zero hv.looping rfl rfl rfl rfl rfl rfl
  · rw [log_step (by simp [hs]), hlog, List.take_zero]
  · rw [be_step, hbe]
    exact Inner.zero hv.looping rfl rfl
  · rw [be_step, hbe]
    exact AccIs.nil rfl

theorem phase_rd (h : x.mem.act = store m x.log)
    (hs : x.be.state = .rd) (he : AtElem cmd m x e) (hp : Inner cmd x.be p)
    (hacc : AccIs x.be (cmd.seen m e p)) : Phase cmd m (x.step poolBackend cmd false g) := by
  have hoob := oobW_iff hv he.loaded he.outer hp
  cases ho : x.be.oobW with
  | true =>
      have hout : ¬cmd.InMap (cmd.ihAt e p) (cmd.iwAt e p) := by
        rw [← hoob, ho]
        simp
      have hbe : x.be.step cmd false (rspOf g x) = _ := step_rd_oob hs ho
      refine .next (e := e) (p := p) (by rw [be_step, hbe])
        (he.of_step (by simp [hs]) hbe) ?_ ?_
      · rw [be_step, hbe]
        exact ⟨hp.1, hp.2, hp.3⟩
      · rw [be_step, hbe, seen_succ, elemAt, if_neg hout, Option.toList_none, List.append_nil]
        exact ⟨hacc.1, hacc.2⟩
  | false =>
      have hin := hoob.mp ho
      cases hg : g.act with
      | true =>
          have hbe : x.be.step cmd false (rspOf g x) = _ :=
            step_rd_gnt hs ho (by rw [rspOf_rd hs ho, hg])
          have hreq : (x.granted poolBackend g).actRdReq = true := by
            simp [Sys.granted, BeReq.gate, poolBackend, req, hs, ho, hg]
          have haddr : (x.granted poolBackend g).actRdAddr = x.be.rdAddrW := by
            simp [Sys.granted, BeReq.gate, poolBackend, req, hs, ho]
          refine .wait (e := e) (p := p) (by rw [be_step, hbe])
            (he.of_step (by simp [hs]) hbe) ?_ ?_ hin
            hreq ?_
          · rw [be_step, hbe]
            exact ⟨hp.1, hp.2, hp.3⟩
          · rw [be_step, hbe]
            exact ⟨hacc.1, hacc.2⟩
          · rw [Sys.step, NpuMemTop.actRdRdata_step, if_pos hreq, haddr,
              rdAddrW_eq hv he.loaded he.outer hp hin, setWidth13_ofNat,
              read_eq hv h he hin]
      | false =>
          have hbe : x.be.step cmd false (rspOf g x) = _ :=
            step_rd_hold hs ho (by rw [rspOf_rd hs ho, hg])
          refine .rd (e := e) (p := p) (by rw [be_step, hbe, hs])
            (he.of_step (by simp [hs]) hbe) ?_ ?_
          · rwa [be_step, hbe]
          · rwa [be_step, hbe]

theorem phase_wait (hs : x.be.state = .wait) (he : AtElem cmd m x e) (hp : Inner cmd x.be p)
    (hacc : AccIs x.be (cmd.seen m e p)) (hin : cmd.InMap (cmd.ihAt e p) (cmd.iwAt e p))
    (hvalid : x.mem.actBuf.beRdAcceptR = true)
    (hdata : x.mem.actBuf.sram.bRdata = m (.ofNat 13 (cmd.idxAt e p))) :
    Phase cmd m (x.step poolBackend cmd false g) := by
  have hbe : x.be.step cmd false (rspOf g x) = _ := step_wait hs hvalid
  refine .next (e := e) (p := p) (by rw [be_step, hbe])
    (he.of_step (by simp [hs]) hbe) ?_ ?_
  · rw [be_step, hbe]
    exact ⟨hp.1, hp.2, hp.3⟩
  · have hrd : (rspOf g x).actRdRdata = m (.ofNat 13 (cmd.idxAt e p)) := hdata
    rw [be_step, hbe, seen_succ, elemAt, if_pos hin, Option.toList_some, int8At]
    exact hacc.snoc _ (abs_sum_seen_le m hv e p) rfl rfl (by rw [hrd])

theorem phase_next (hs : x.be.state = .next) (he : AtElem cmd m x e) (hp : Inner cmd x.be p)
    (hacc : AccIs x.be (cmd.seen m e (p + 1))) :
    Phase cmd m (x.step poolBackend cmd false g) := by
  have hlast := lastInnerW_iff hv.looping he.loaded hp
  cases hl : x.be.lastInnerW with
  | false =>
      have hbe : x.be.step cmd false (rspOf g x) = _ := step_next_inner hs hl
      refine .rd (e := e) (p := p + 1) (by rw [be_step, hbe])
        (he.of_step (by simp [hs]) hbe) ?_ ?_
      · rw [be_step, hbe]
        exact hp.advance hv.looping he.loaded hl rfl rfl
      · rw [be_step, hbe]
        exact ⟨hacc.1, hacc.2⟩
  | true =>
      rw [hlast.mp hl] at hacc
      have hmode := he.loaded.mode
      cases hm : x.be.poolModeR with
      | true =>
          have hbe : x.be.step cmd false (rspOf g x) = _ := step_next_avg hs hl hm
          refine .avgDiv (e := e) (i := 0) (by rw [be_step, hbe])
            (he.of_step (by simp [hs]) hbe) (by omega)
            (by rw [← hmode, hm]) ?_ ?_
          · rw [be_step, hbe]
            rfl
          · rw [be_step, hbe]
            have hsum : x.be.accR.toInt = (cmd.seen m e cmd.area).sum := by
              rw [hacc.acc, hm]
              rfl
            exact Dividing.init he.loaded hsum rfl rfl rfl
      | false =>
          have hbe : x.be.step cmd false (rspOf g x) = _ := step_next_max hs hl hm
          refine .wr (e := e) (by rw [be_step, hbe])
            (he.of_step (by simp [hs]) hbe) ?_
          · have hb := maxOf_bounds fun v (hv : v ∈ cmd.seen m e cmd.area) ↦ mem_seen_bounds m hv
            have hval : cmd.codeVal (cmd.seen m e cmd.area) = maxOf (cmd.seen m e cmd.area) := by
              rw [codeVal, ← hmode, hm]
              rfl
            rw [be_step, hbe, resultW_eq, hval]
            simp only [hm, Bool.false_eq_true, if_false, hacc.acc]
            rw [Signed.sat8_of_bounds hb.1 hb.2]

theorem phase_avgDiv (hs : x.be.state = .avgDiv) (he : AtElem cmd m x e) (hi : i < 32)
    (hmode : cmd.poolMode = true) (hcnt : x.be.divCntR.toNat + i = 31)
    (hdiv : Dividing cmd x.be (cmd.seen m e cmd.area).sum i) :
    Phase cmd m (x.step poolBackend cmd false g) := by
  have hsum := abs_sum_seen_le m hv e cmd.area
  have hbe : x.be.step cmd false (rspOf g x) = _ := step_avgDiv hs
  have hel : AtElem cmd m (x.step poolBackend cmd false g) e := he.of_step (by simp [hs]) hbe
  have hnext : Dividing cmd (x.step poolBackend cmd false g).be
      (cmd.seen m e cmd.area).sum (i + 1) := by
    rw [be_step, hbe]
    exact hdiv.step hi hsum rfl rfl rfl
  by_cases hzero : x.be.divCntR = 0
  · have hlast : i + 1 = 32 := by
      rw [hzero] at hcnt
      simp at hcnt
      omega
    rw [hlast] at hnext
    refine .wr (e := e) (by rw [be_step, hbe]; exact if_pos hzero) hel ?_
    have hm : (x.step poolBackend cmd false g).be.poolModeR = true := by
      rw [hel.loaded.mode, hmode]
    rw [resultW_eq, hm, if_pos rfl, hnext.result hsum, codeVal, if_pos hmode]
  · have hpos : 0 < x.be.divCntR.toNat :=
      Nat.pos_of_ne_zero fun h ↦ hzero (BitVec.eq_of_toNat_eq h)
    refine .avgDiv (e := e) (i := i + 1) (by rw [be_step, hbe]; exact if_neg hzero) hel (by omega)
      hmode ?_ hnext
    rw [be_step, hbe]
    have hone : (1 : BitVec 5).toNat = 1 := rfl
    have := x.be.divCntR.isLt
    simp only [BitVec.toNat_sub, hone]
    omega

theorem phase_wr (hs : x.be.state = .wr) (he : AtElem cmd m x e)
    (hres : x.be.resultW = .ofInt 8 (cmd.codeVal (cmd.seen m e cmd.area))) :
    Phase cmd m (x.step poolBackend cmd false g) := by
  have hlog : (x.step poolBackend cmd false g).log = _ := log_step_wr hs
  have hgnt := rspOf_wr (g := g) hs
  cases hg : g.out with
  | false =>
      have hbe : x.be.step cmd false (rspOf g x) = _ := step_wr_hold hs (by rw [hgnt, hg])
      rw [hg] at hlog
      refine .wr (e := e) (by rw [be_step, hbe, hs]) ⟨?_, ?_, ?_⟩ ?_
      · rw [be_step, hbe]
        exact he.loaded
      · rw [be_step, hbe]
        exact he.outer
      · rw [hlog, ← he.log]
        rfl
      · rw [be_step, hbe, hres]
  | true =>
      rw [hg, if_pos rfl, he.log_succ hres] at hlog
      rw [hg] at hgnt
      have hlast := lastOutputW_iff hv.looping he.loaded he.outer
      cases hl : x.be.lastOutputW with
      | true =>
          have hbe : x.be.step cmd false (rspOf g x) = _ := step_wr_last hs hgnt hl
          refine .done (by rw [be_step, hbe]) ?_
          rw [hlog, hlast.mp hl, List.take_of_length_le (numWrites _).le]
      | false =>
          have hbe : x.be.step cmd false (rspOf g x) = _ := step_wr_advance hs hgnt hl
          refine .rd (e := e + 1) (p := 0) (by rw [be_step, hbe]) ⟨?_, ?_, hlog⟩ ?_ ?_
          · rw [be_step, hbe]
            exact ⟨he.loaded.1, he.loaded.2, he.loaded.3⟩
          · exact he.outer.advance hv.looping he.loaded hs hgnt hl
          · rw [be_step, hbe]
            exact Inner.zero hv.looping rfl rfl
          · rw [be_step, hbe]
            exact AccIs.nil rfl

theorem Inv.step (h : Inv cmd m x) : Inv cmd m (x.step poolBackend cmd false g) := by
  refine ⟨act_step h.act, ?_⟩
  rcases h.phase with ⟨hs, hl, hlog⟩ | ⟨hs, he, hp, hacc⟩ | ⟨hs, he, hp, hacc, hin, hval, hdata⟩ |
    ⟨hs, he, hp, hacc⟩ | ⟨hs, he, hi, hmode, hcnt, hdiv⟩ | ⟨hs, he, hres⟩ | ⟨hs, hlog⟩ | ⟨hs, hlog⟩
  · exact phase_loadCfg hv g hs hl hlog
  · exact phase_rd hv g h.act hs he hp hacc
  · exact phase_wait hv g hs he hp hacc hin hval hdata
  · exact phase_next hv g hs he hp hacc
  · exact phase_avgDiv hv g hs he hi hmode hcnt hdiv
  · exact phase_wr hv g hs he hres
  · have hbe : x.be.step cmd false (rspOf g x) = _ := step_done hs
    exact .idle (by rw [be_step, hbe]) (by rw [log_step (by simp [hs]), hlog])
  · have hbe : x.be.step cmd false (rspOf g x) = _ := step_idle hs
    exact .idle (by rw [be_step, hbe, hs]) (by rw [log_step (by simp [hs]), hlog])

end Step

/-- Accepting a command in the idle state establishes the invariant, whatever
the registers held. -/
theorem Inv.accept {x : Sys PoolCtrl} (hs : x.be.state = .idle) (hlog : x.log = []) (g : Grants) :
    Inv cmd x.mem.act (x.step poolBackend cmd true g) := by
  have hbe : x.be.step cmd true (rspOf g x) = _ := step_accept hs
  have hlog' : (x.step poolBackend cmd true g).log = [] := by rw [log_step (by simp [hs]), hlog]
  refine ⟨act_step (by simp [hlog]), .loadCfg (by rw [be_step, hbe]) ?_ hlog'⟩
  rw [be_step, hbe]
  exact ⟨rfl, rfl, rfl⟩

end PoolCtrl

end LgNpu
