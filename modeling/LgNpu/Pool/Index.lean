import LgNpu.Pool.Ctrl
import LgNpu.Pool.Spec

/-!
# Counters and coordinates of the pooling controller

The loop registers are the digits of the output element `e` and of the window
position `p`; the 33-bit coordinates and the 16-bit read address are then the
exact ones.
-/

namespace LgNpu

namespace PoolCtrl

/-! ## Registers as indices -/

/-- The command as latched. -/
def cfg (s : PoolCtrl) : PoolCmd where
  inAddr := s.inBaseR
  outAddr := s.outBaseR
  inH := s.inHR
  inW := s.inWR
  inC := s.inCR
  poolR := s.poolRR
  poolS := s.poolSR
  strideH := s.strideHR
  strideW := s.strideWR
  padH := s.padHR
  padW := s.padWR
  outH := s.outHR
  outW := s.outWR
  poolMode := s.poolModeR

structure Loaded (cmd : PoolCmd) (s : PoolCtrl) : Prop where
  cfg : s.cfg = cmd
  area : s.poolAreaR = (cmd.poolR.setWidth 8).setWidth 16 * (cmd.poolS.setWidth 8).setWidth 16
  wxc : s.inWxcR = cmd.inW * cmd.inC

/-- The outer loops stand at output element `e`. -/
structure Outer (cmd : PoolCmd) (s : PoolCtrl) (e : ℕ) : Prop where
  lt : e < cmd.numOut
  c : s.cR.toNat = e % cmd.inC.toNat
  ow : s.owR.toNat = e / cmd.inC.toNat % cmd.outW.toNat
  oh : s.ohR.toNat = e / cmd.inC.toNat / cmd.outW.toNat
  owBase : s.owBaseR.toNat = e / cmd.inC.toNat % cmd.outW.toNat * cmd.strideW.toNat
  ohBase : s.ohBaseR.toNat = e / cmd.inC.toNat / cmd.outW.toNat * cmd.strideH.toNat
  pix : s.outPixBaseR = .ofNat 16 (e / cmd.inC.toNat * cmd.inC.toNat)

/-- The inner loops stand at window position `p`. -/
structure Inner (cmd : PoolCmd) (s : PoolCtrl) (p : ℕ) : Prop where
  lt : p < cmd.area
  col : s.sR.toNat = p % cmd.poolS.toNat
  row : s.rR.toNat = p / cmd.poolS.toNat

section Index

variable {cmd : PoolCmd} {s : PoolCtrl} {e p : ℕ}

theorem Loaded.inC (h : Loaded cmd s) : s.inCR = cmd.inC := by rw [← h.cfg]; rfl
theorem Loaded.outW (h : Loaded cmd s) : s.outWR = cmd.outW := by rw [← h.cfg]; rfl
theorem Loaded.outH (h : Loaded cmd s) : s.outHR = cmd.outH := by rw [← h.cfg]; rfl
theorem Loaded.poolR (h : Loaded cmd s) : s.poolRR = cmd.poolR := by rw [← h.cfg]; rfl
theorem Loaded.poolS (h : Loaded cmd s) : s.poolSR = cmd.poolS := by rw [← h.cfg]; rfl
theorem Loaded.mode (h : Loaded cmd s) : s.poolModeR = cmd.poolMode := by rw [← h.cfg]; rfl

theorem Outer.digits (h : Outer cmd s e) :
    e / cmd.inC.toNat / cmd.outW.toNat < cmd.outH.toNat ∧
      e / cmd.inC.toNat % cmd.outW.toNat < cmd.outW.toNat ∧
      e % cmd.inC.toNat < cmd.inC.toNat := by
  have hq := LoopNest.div_lt_of_lt_mul h.lt
  exact ⟨LoopNest.div_lt_of_lt_mul hq, Nat.mod_lt _ (LoopNest.pos_of_lt_mul hq),
    Nat.mod_lt _ (LoopNest.pos_of_lt_mul h.lt)⟩

theorem Inner.digits (h : Inner cmd s p) :
    p / cmd.poolS.toNat < cmd.poolR.toNat ∧ p % cmd.poolS.toNat < cmd.poolS.toNat :=
  ⟨LoopNest.div_lt_of_lt_mul h.lt, Nat.mod_lt _ (LoopNest.pos_of_lt_mul h.lt)⟩

theorem lastOutputW_iff (hv : cmd.Looping) (hl : Loaded cmd s) (h : Outer cmd s e) :
    s.lastOutputW = true ↔ e + 1 = cmd.numOut := by
  obtain ⟨hoh, how, hc⟩ := h.digits
  rw [lastOutputW, Bool.and_eq_true, Bool.and_eq_true, hl.inC, hl.outW, hl.outH,
    eqLast_iff hv.inC_pos, eqLast_iff hv.outW_pos, eqLast_iff hv.outH_pos, h.c, h.ow, h.oh,
    PoolCmd.numOut, LoopNest.last_iff hv.inC_pos, LoopNest.last_iff hv.outW_pos]

theorem lastInnerW_iff (hv : cmd.Looping) (hl : Loaded cmd s) (h : Inner cmd s p) :
    s.lastInnerW = true ↔ p + 1 = cmd.area := by
  rw [lastInnerW, Bool.and_eq_true, hl.poolR, hl.poolS, eqLast_iff hv.poolR_pos,
    eqLast_iff hv.poolS_pos, h.col, h.row, PoolCmd.area, LoopNest.last_iff hv.poolS_pos]

theorem Inner.zero (hv : cmd.Looping) (hs : s.sR = 0) (hr : s.rR = 0) : Inner cmd s 0 :=
  ⟨PoolCmd.area_pos hv, by simp [hs], by simp [hr]⟩

theorem Outer.zero (hv : cmd.Looping) (hc : s.cR = 0) (how : s.owR = 0) (hoh : s.ohR = 0)
    (howb : s.owBaseR = 0) (hohb : s.ohBaseR = 0) (hp : s.outPixBaseR = 0) : Outer cmd s 0 :=
  ⟨PoolCmd.numOut_pos hv, by simp [hc], by simp [how], by simp [hoh], by simp [howb],
    by simp [hohb], by simp [hp]⟩

theorem Inner.advance (hv : cmd.Looping) (hl : Loaded cmd s) (h : Inner cmd s p)
    (hlast : s.lastInnerW = false) {s' : PoolCtrl}
    (hs : s'.sR = if ltLast s.sR s.poolSR then s.sR + 1 else 0)
    (hr : s'.rR = if ltLast s.sR s.poolSR then s.rR else s.rR + 1) : Inner cmd s' (p + 1) := by
  have hne : p + 1 ≠ cmd.area := by
    rw [Ne, ← lastInnerW_iff hv hl h, hlast]
    exact Bool.false_ne_true
  have hlt : p + 1 < cmd.area := by have := h.lt; omega
  obtain ⟨hrow, hcol⟩ := h.digits
  have hcond := ltLast_iff (x := s.sR) hv.poolS_pos
  rw [hl.poolS] at hs hr
  rw [h.col] at hcond
  by_cases hwrap : p % cmd.poolS.toNat + 1 < cmd.poolS.toNat
  · rw [if_pos (hcond.mpr hwrap)] at hs hr
    refine ⟨hlt, ?_, ?_⟩
    · rw [hs, LoopNest.succ_mod_of_lt hwrap, toNat_succ_dim h.col hcol]
    · rw [hr, LoopNest.succ_div_of_lt hwrap, h.row]
  · rw [if_neg (fun hc ↦ hwrap (hcond.mp hc))] at hs hr
    have hedge : p % cmd.poolS.toNat + 1 = cmd.poolS.toNat := by omega
    refine ⟨hlt, ?_, ?_⟩
    · rw [hs, LoopNest.succ_mod_of_eq hedge]
      rfl
    · rw [hr, LoopNest.succ_div_of_eq hedge, toNat_succ_dim h.row hrow]

/-- A base register that follows its counter by strides does not wrap. -/
theorem base_step {b : BitVec 32} {d : Dim} {i : ℕ} (hb : b.toNat = i * d.toNat)
    (hi : i < 2 ^ 16 - 1) : (b + d.setWidth 32).toNat = (i + 1) * d.toNat := by
  have hd := d.isLt
  have hle : (i + 1) * d.toNat ≤ (2 ^ 16 - 1) * (2 ^ 16 - 1) :=
    Nat.mul_le_mul (by omega) (by omega)
  rw [BitVec.toNat_add, BitVec.toNat_setWidth, hb, Nat.mod_eq_of_lt (by omega : d.toNat < 2 ^ 32),
    Nat.add_one_mul, Nat.mod_eq_of_lt]
  rw [Nat.add_one_mul] at hle
  omega

theorem Outer.advance (hv : cmd.Looping) (hl : Loaded cmd s) (h : Outer cmd s e)
    (hst : s.state = .wr) {v : Bool} {rsp : BeRsp} (hg : rsp.outWrGnt = true)
    (hlast : s.lastOutputW = false) : Outer cmd (s.step cmd v rsp) (e + 1) := by
  have hne : e + 1 ≠ cmd.numOut := by
    rw [Ne, ← lastOutputW_iff hv hl h, hlast]
    exact Bool.false_ne_true
  have hlt : e + 1 < cmd.numOut := by have := h.lt; omega
  obtain ⟨hoh, how, hc⟩ := h.digits
  have hcond := ltLast_iff (x := s.cR) hv.inC_pos
  have hcondw := ltLast_iff (x := s.owR) hv.outW_pos
  have hstride : s.strideWR = cmd.strideW ∧ s.strideHR = cmd.strideH := by
    rw [← hl.cfg]
    exact ⟨rfl, rfl⟩
  rw [h.c] at hcond
  rw [h.ow] at hcondw
  rw [step_wr_advance hst hg hlast, hl.inC, hl.outW, hstride.1, hstride.2]
  by_cases hwrap : e % cmd.inC.toNat + 1 < cmd.inC.toNat
  · simp only [if_pos (hcond.mpr hwrap)]
    refine ⟨hlt, ?_, ?_, ?_, ?_, ?_, ?_⟩ <;>
      simp only [LoopNest.succ_mod_of_lt hwrap, LoopNest.succ_div_of_lt hwrap]
    · exact toNat_succ_dim h.c hc
    exacts [h.ow, h.oh, h.owBase, h.ohBase, h.pix]
  have hedge : e % cmd.inC.toNat + 1 = cmd.inC.toNat := by omega
  have hpix : s.outPixBaseR + cmd.inC =
      .ofNat 16 ((e / cmd.inC.toNat + 1) * cmd.inC.toNat) := by
    rw [h.pix, Nat.add_one_mul, ofNat_add_dim]
  simp only [if_neg (fun hc ↦ hwrap (hcond.mp hc))]
  by_cases hwrapw : e / cmd.inC.toNat % cmd.outW.toNat + 1 < cmd.outW.toNat
  · simp only [if_pos (hcondw.mpr hwrapw)]
    refine ⟨hlt, ?_, ?_, ?_, ?_, ?_, ?_⟩ <;>
      simp only [LoopNest.succ_mod_of_eq hedge, LoopNest.succ_div_of_eq hedge,
        LoopNest.succ_mod_of_lt hwrapw, LoopNest.succ_div_of_lt hwrapw]
    · rfl
    · exact toNat_succ_dim h.ow how
    · exact h.oh
    · exact base_step h.owBase (by have := cmd.outW.isLt; omega)
    · exact h.ohBase
    · exact hpix
  · have hedgew : e / cmd.inC.toNat % cmd.outW.toNat + 1 = cmd.outW.toNat := by omega
    -- Another output row is left, so the row counter does not wrap.
    have hrow : e / cmd.inC.toNat / cmd.outW.toNat + 1 < cmd.outH.toNat := by
      have hq := LoopNest.div_lt_of_lt_mul hlt
      rw [LoopNest.succ_div_of_eq hedge] at hq
      have := LoopNest.div_lt_of_lt_mul hq
      rwa [LoopNest.succ_div_of_eq hedgew] at this
    simp only [if_neg (fun hc ↦ hwrapw (hcondw.mp hc))]
    refine ⟨hlt, ?_, ?_, ?_, ?_, ?_, ?_⟩ <;>
      simp only [LoopNest.succ_mod_of_eq hedge, LoopNest.succ_div_of_eq hedge,
        LoopNest.succ_mod_of_eq hedgew, LoopNest.succ_div_of_eq hedgew]
    · rfl
    · rfl
    · exact toNat_succ_dim h.oh hoh
    · simp
    · exact base_step h.ohBase (by have := cmd.outH.isLt; omega)
    · exact hpix

/-! ## Coordinates and addresses -/

theorem coord_toInt {b : BitVec 32} (hb : b.toNat < 2 ^ 31) (r d : Dim) :
    (b.setWidth 33 + r.setWidth 33 - d.setWidth 33).toInt = b.toNat + r.toNat - d.toNat := by
  have hr := r.isLt
  have hd := d.isLt
  have hb33 : (b.setWidth 33).toInt = b.toNat := Signed.toInt_setWidth b le_rfl
  have hr33 : (r.setWidth 33).toInt = r.toNat := Signed.toInt_setWidth r (by omega)
  have hd33 : (d.setWidth 33).toInt = d.toNat := Signed.toInt_setWidth d (by omega)
  have hsum := Signed.toInt_add (w := 32) (b.setWidth 33) (r.setWidth 33) (by omega) (by omega)
  rw [Signed.toInt_sub (w := 32), hsum, hb33, hr33, hd33] <;> omega

theorem ihW_toInt (hv : cmd.Valid) (hl : Loaded cmd s) (ho : Outer cmd s e)
    (hi : Inner cmd s p) : s.ihW.toInt = cmd.ihAt e p := by
  obtain ⟨hoh, -, -⟩ := ho.digits
  have hpad : s.padHR = cmd.padH := by rw [← hl.cfg]; rfl
  have hb : s.ohBaseR.toNat < 2 ^ 31 := by
    have hle : e / cmd.inC.toNat / cmd.outW.toNat * cmd.strideH.toNat ≤
        (cmd.outH.toNat - 1) * cmd.strideH.toNat := Nat.mul_le_mul_right _ (by omega)
    have := hv.fitH
    have := ho.ohBase
    have := cmd.inH.isLt
    have := cmd.padH.isLt
    omega
  rw [ihW, coord_toInt hb, ho.ohBase, hi.row, hpad, PoolCmd.ihAt, PoolCmd.ih]
  push_cast
  rfl

theorem iwW_toInt (hv : cmd.Valid) (hl : Loaded cmd s) (ho : Outer cmd s e)
    (hi : Inner cmd s p) : s.iwW.toInt = cmd.iwAt e p := by
  obtain ⟨-, how, -⟩ := ho.digits
  have hpad : s.padWR = cmd.padW := by rw [← hl.cfg]; rfl
  have hb : s.owBaseR.toNat < 2 ^ 31 := by
    have hle : e / cmd.inC.toNat % cmd.outW.toNat * cmd.strideW.toNat ≤
        (cmd.outW.toNat - 1) * cmd.strideW.toNat := Nat.mul_le_mul_right _ (by omega)
    have := hv.fitW
    have := ho.owBase
    have := cmd.inW.isLt
    have := cmd.padW.isLt
    omega
  rw [iwW, coord_toInt hb, ho.owBase, hi.col, hpad, PoolCmd.iwAt, PoolCmd.iw]
  push_cast
  rfl

theorem oobW_iff (hv : cmd.Valid) (hl : Loaded cmd s) (ho : Outer cmd s e)
    (hi : Inner cmd s p) : s.oobW = false ↔ cmd.InMap (cmd.ihAt e p) (cmd.iwAt e p) := by
  have hin : s.inHR = cmd.inH ∧ s.inWR = cmd.inW := by
    rw [← hl.cfg]
    exact ⟨rfl, rfl⟩
  have hdim : ∀ d : Dim, (d.setWidth 33).toInt = d.toNat :=
    fun d ↦ Signed.toInt_setWidth (w := 32) d (by omega)
  simp only [oobW, BitVec.slt_eq_decide, ihW_toInt hv hl ho hi, iwW_toInt hv hl ho hi, hin,
    hdim, PoolCmd.InMap]
  simp only [Bool.or_eq_false_iff, decide_eq_false_iff_not, Bool.not_eq_eq_eq_not, Bool.not_false,
    decide_eq_true_eq, not_lt]
  exact ⟨fun ⟨⟨⟨h1, h2⟩, h3⟩, h4⟩ ↦ ⟨⟨h1, h2⟩, h3, h4⟩,
    fun ⟨⟨h1, h2⟩, h3, h4⟩ ↦ ⟨⟨⟨h1, h2⟩, h3⟩, h4⟩⟩

theorem setWidth16_of_toInt {x : BitVec 33} {i : ℤ} (h : x.toInt = i) (hi : 0 ≤ i) :
    x.setWidth 16 = .ofNat 16 i.toNat := by
  have hx : x.toNat = i.toNat := by
    rw [BitVec.toInt_eq_toNat_cond] at h
    split at h <;> omega
  rw [← hx, BitVec.ofNat_toNat]

/-- An in-bounds read goes to the element's own address. -/
theorem rdAddrW_eq (hv : cmd.Valid) (hl : Loaded cmd s) (ho : Outer cmd s e)
    (hi : Inner cmd s p) (h : cmd.InMap (cmd.ihAt e p) (cmd.iwAt e p)) :
    s.rdAddrW = .ofNat 16 (cmd.idxAt e p) := by
  have hbase : s.inBaseR = cmd.inAddr := by rw [← hl.cfg]; rfl
  have hc : s.cR = .ofNat 16 (e % cmd.inC.toNat) := eq_ofNat_of_toNat ho.c
  rw [rdAddrW, hbase, hl.wxc, hl.inC, hc, setWidth16_of_toInt (ihW_toInt hv hl ho hi) h.1.1,
    setWidth16_of_toInt (iwW_toInt hv hl ho hi) h.2.1, PoolCmd.idxAt, PoolCmd.inIdx,
    Nat.add_mul, Nat.mul_assoc, ← Nat.add_assoc]
  simp only [BitVec.ofNat_add, BitVec.ofNat_mul, ofNat_toNat16]

end Index

end PoolCtrl

end LgNpu
