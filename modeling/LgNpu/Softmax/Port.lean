import LgNpu.Softmax.Row
import LgNpu.Lib.LoopNest
import LgNpu.Lib.SerialArith

/-!
# The softmax controller on a read port

The controller only sees the values its reads return.  The invariant has one
case for each state: in the first two passes the counters stand at the `b`-th
response of row `i` with at most one read in flight, in the third the divider
works on element `j`.  It holds under every schedule of grants, whatever memory
answers the reads.
-/

namespace LgNpu

namespace SoftmaxCtrl

/-- What the reads of element `j` of row `i` return: in the two scans, and in
the third pass. -/
structure Reads where
  scan : ℕ → ℕ → ℤ
  last : ℕ → ℕ → ℤ
  scan_ge : ∀ i j, -128 ≤ scan i j

namespace Reads

variable (R : Reads) (L : ℕ)

def rowMax (i : ℕ) : ℤ := SoftmaxRow.maxUpTo (R.scan i) L

def sumUpTo (i b : ℕ) : ℕ := SoftmaxRow.expUpTo (R.scan i) (R.rowMax L i) b

/-- The numerator of the division for element `j`. -/
def numer (i j : ℕ) : ℕ := expOf ((R.rowMax L i - R.last i j) % 256).toNat * 127

def out (i j : ℕ) : ℕ := R.numer L i j / R.sumUpTo L i L

variable {L}

theorem out_le (hL : 0 < L) (i j : ℕ) : R.out L i j ≤ 127 :=
  SoftmaxRow.scaled_le (expOf_le _) (SoftmaxRow.le_expUpTo hL fun j _ ↦ R.scan_ge i j)

theorem numer_lt (i j : ℕ) : R.numer L i j < 2 ^ 24 := by
  have := expOf_le ((R.rowMax L i - R.last i j) % 256).toNat
  rw [numer]
  omega

end Reads

/-- The controller with its read port: the response due in this cycle, and the
number of outputs written so far. -/
structure PortView where
  ctl : SoftmaxCtrl
  valid : Bool
  data : Byte
  count : ℕ

/-- The data belongs to the element the controller asks for. -/
structure Answers (R : Reads) (s : SoftmaxCtrl) (data : Byte) : Prop where
  scan : s.scanning → data.toInt = R.scan s.rowR.toNat s.reqCntR.toNat
  last : s.state = .normRd → data.toInt = R.last s.rowR.toNat s.normIdxR.toNat

/-- One cycle with response `rsp`: a granted read is answered in the next. -/
structure PortView.Next (cmd : SoftmaxCmd) (R : Reads) (x : PortView) (rsp : BeRsp)
    (x' : PortView) : Prop where
  valid : rsp.actRdRvalid = x.valid
  data : rsp.actRdRdata = x.data
  requested : rsp.actRdGnt = true → x.ctl.actRdReq = true
  ctl_eq : x'.ctl = x.ctl.step cmd false rsp
  valid_eq : x'.valid = rsp.actRdGnt
  answers : rsp.actRdGnt = true → Answers R x.ctl x'.data
  count_eq : x'.count = x.count + (decide (x.ctl.state = .normWr) && rsp.outWrGnt).toNat

variable (cmd : SoftmaxCmd) (R : Reads)

structure Loaded (s : SoftmaxCtrl) : Prop where
  inBase : s.inBaseR = cmd.inAddr
  outBase : s.outBaseR = cmd.outAddr
  numRows : s.numRowsR = cmd.numRows
  rowLen : s.rowLenR = cmd.rowLen

/-- The controller works on row `i`. -/
structure AtRow (s : SoftmaxCtrl) (i : ℕ) : Prop where
  loaded : Loaded cmd s
  lt : i < cmd.numRows.toNat
  row : s.rowR.toNat = i
  baseIn : s.rowBaseInR = .ofNat 16 (cmd.inAddr.toNat + i * cmd.rowLen.toNat)
  baseOut : s.rowBaseOutR = .ofNat 16 (cmd.outAddr.toNat + i * cmd.rowLen.toNat)

/-- A pass over row `i` has taken `b` responses; the next one may be in
flight. -/
structure Scan (x : PortView) (i b : ℕ) : Prop where
  count : x.count = i * cmd.rowLen.toNat
  rcv : x.ctl.rcvCntR.toNat = b
  req : x.ctl.reqCntR.toNat = b + x.valid.toNat
  req_le : x.ctl.reqCntR.toNat ≤ cmd.rowLen.toNat
  data : x.valid = true → x.data.toInt = R.scan i b

/-- The third pass stands at element `j` of row `i`, whose maximum and sum are
known. -/
structure AtElem (x : PortView) (i j : ℕ) : Prop where
  row : AtRow cmd x.ctl i
  lt : j < cmd.rowLen.toNat
  idx : x.ctl.normIdxR.toNat = j
  count : x.count = i * cmd.rowLen.toNat + j
  max : x.ctl.maxValR.toInt = R.rowMax cmd.rowLen.toNat i
  sum : x.ctl.sumR.toNat = R.sumUpTo cmd.rowLen.toNat i cmd.rowLen.toNat
  quiet : x.ctl.expSumRvalidD = false

inductive Phase : PortView → Prop
  | loadCfg {x} (hs : x.ctl.state = .loadCfg) (hl : Loaded cmd x.ctl) (hcount : x.count = 0)
      (hv : x.valid = false) (hd : x.ctl.expSumRvalidD = false) : Phase x
  | findMax {x i b} (hs : x.ctl.state = .findMax) (hr : AtRow cmd x.ctl i)
      (hp : Scan cmd R x i b) (hb : b < cmd.rowLen.toNat) (hd : x.ctl.expSumRvalidD = false)
      (hsum : x.ctl.sumR = 0)
      (hmax : x.ctl.maxValR.toInt = SoftmaxRow.maxUpTo (R.scan i) b) : Phase x
  | expSum {x i b} (hs : x.ctl.state = .expSum) (hr : AtRow cmd x.ctl i) (hp : Scan cmd R x i b)
      (hmax : x.ctl.maxValR.toInt = R.rowMax cmd.rowLen.toNat i)
      (hsum : x.ctl.sumR.toNat +
        (if x.ctl.expSumRvalidD then x.ctl.expSumLutD.toNat else 0) =
          R.sumUpTo cmd.rowLen.toNat i b) : Phase x
  | normRd {x i j} (hs : x.ctl.state = .normRd) (he : AtElem cmd R x i j) : Phase x
  | normWait {x i j} (hs : x.ctl.state = .normWait) (he : AtElem cmd R x i j)
      (hv : x.valid = true) (hdata : x.data.toInt = R.last i j) : Phase x
  | normDiv {x i j k} (hs : x.ctl.state = .normDiv) (he : AtElem cmd R x i j) (hk : k < 24)
      (hcnt : x.ctl.divCntR.toNat = k)
      (hdiv : SerialArith.SplitInv (R.numer cmd.rowLen.toNat i j)
        (R.sumUpTo cmd.rowLen.toNat i cmd.rowLen.toNat) k (24 - k)
        x.ctl.divNumerR x.ctl.divRemR x.ctl.divQuotR) : Phase x
  | normWr {x i j} (hs : x.ctl.state = .normWr) (he : AtElem cmd R x i j)
      (hquot : x.ctl.divQuotR.toNat = R.out cmd.rowLen.toNat i j) : Phase x
  | done {x} (hs : x.ctl.state = .done)
      (hcount : x.count = cmd.numRows.toNat * cmd.rowLen.toNat)
      (hd : x.ctl.expSumRvalidD = false) : Phase x
  | idle {x} (hs : x.ctl.state = .idle)
      (hcount : x.count = cmd.numRows.toNat * cmd.rowLen.toNat)
      (hd : x.ctl.expSumRvalidD = false) : Phase x

/-! ## What one cycle does -/

section Edge

variable {cmd R} {x x' : PortView} {rsp : BeRsp} {i j b : ℕ}

namespace PortView.Next

variable (h : x.Next cmd R rsp x')
include h

theorem count_of_ne (hs : x.ctl.state ≠ .normWr) : x'.count = x.count := by
  simp [h.count_eq, hs]

theorem not_valid (hreq : x.ctl.actRdReq = false) : x'.valid = false := by
  rw [h.valid_eq, Bool.eq_false_iff]
  intro hg
  exact absurd (h.requested hg) (by simp [hreq])

theorem quiet (hs : x.ctl.state ≠ .expSum) : x'.ctl.expSumRvalidD = false := by
  rw [h.ctl_eq]
  simp [step, hs]

end PortView.Next

/-- The table index is the distance to the maximum modulo 256. -/
theorem toNat_lutExpVal {s : SoftmaxCtrl} {rsp : BeRsp} {mx y : ℤ} (hmx : s.maxValR.toInt = mx)
    (hy : rsp.actRdRdata.toInt = y) :
    (s.lutExpVal rsp).toNat = expOf ((mx - y) % 256).toNat := by
  have hsub : ((s.maxValR - rsp.actRdRdata).toNat : ℤ) = (mx - y) % 256 := by
    rw [← hmx, ← hy, BitVec.toInt_eq_toNat_cond, BitVec.toInt_eq_toNat_cond, BitVec.toNat_sub]
    have := s.maxValR.isLt
    have := rsp.actRdRdata.isLt
    split <;> split <;> omega
  rw [lutExpVal, toNat_softmaxExpLut, lutDiff, ← hsub, Int.toNat_natCast]

/-- For an element of the row itself the distance to the maximum does not
wrap. -/
theorem Reads.wrap_eq {L : ℕ} (hb : b < L) (hle : R.rowMax L i ≤ 127) :
    (R.rowMax L i - R.scan i b) % 256 = R.rowMax L i - R.scan i b := by
  have hmax : R.scan i b ≤ R.rowMax L i := SoftmaxRow.le_maxUpTo hb
  have hge := R.scan_ge i b
  exact Int.emod_eq_of_lt (by omega) (by omega)

/-- One cycle of a pass that takes the response in flight, if any, and issues
the next request when it is granted. -/
theorem Scan.step (h : x.Next cmd R rsp x') (hr : AtRow cmd x.ctl i) (hp : Scan cmd R x i b)
    (hscan : x.ctl.scanning)
    (hreq : x'.ctl.reqCntR = if rsp.actRdGnt ∧ x.ctl.reqCntR.ult x.ctl.rowLenR then
      x.ctl.reqCntR + 1 else x.ctl.reqCntR)
    (hrcv : x'.ctl.rcvCntR = if rsp.actRdRvalid then x.ctl.rcvCntR + 1 else x.ctl.rcvCntR) :
    Scan cmd R x' i (b + x.valid.toNat) := by
  have hlen := cmd.rowLen.isLt
  have hle := hp.req_le
  have hpreq := hp.req
  have hprcv := hp.rcv
  have hne : x.ctl.state ≠ .normWr := by rcases hscan with hs | hs <;> simp [hs]
  have hreqd : x.ctl.actRdReq = x.ctl.reqCntR.ult x.ctl.rowLenR := by
    rcases hscan with hs | hs <;> simp [actRdReq, hs]
  have hult : rsp.actRdGnt = true → x.ctl.reqCntR.toNat < cmd.rowLen.toNat := by
    intro hg
    have hreq := h.requested hg
    rwa [hreqd, BitVec.ult_iff_lt, BitVec.lt_def, hr.loaded.rowLen] at hreq
  have hreq' : x'.ctl.reqCntR.toNat = b + x.valid.toNat + x'.valid.toNat := by
    rw [hreq, h.valid_eq, ← hpreq]
    cases hg : rsp.actRdGnt with
    | false => simp
    | true =>
        have hlt := hult hg
        have hu : x.ctl.reqCntR.ult x.ctl.rowLenR = true := hreqd ▸ h.requested hg
        simp only [hu, and_self, if_true, Bool.toNat_true]
        exact toNat_add_one (by omega)
  refine ⟨?_, ?_, hreq', ?_, ?_⟩
  · rw [h.count_of_ne hne, hp.count]
  · rw [hrcv, h.valid]
    cases hv : x.valid with
    | false => simpa using hprcv
    | true =>
        rw [hv] at hpreq
        simp only [Bool.toNat_true, if_true] at hpreq ⊢
        rw [toNat_add_one (by omega), hprcv]
  · rw [hreq', h.valid_eq, ← hpreq]
    cases hg : rsp.actRdGnt with
    | false => simpa using hle
    | true => exact hult hg
  · intro hv
    rw [h.valid_eq] at hv
    rw [(h.answers hv).scan hscan, hr.row, hpreq]

end Edge

/-! ## One cycle keeps the invariant -/

section Step

variable {cmd R} {x x' : PortView} {rsp : BeRsp} {i j b k : ℕ} (hL : 0 < cmd.rowLen.toNat)

theorem AtRow.congr {s s' : SoftmaxCtrl} (h : AtRow cmd s i) (h1 : s'.inBaseR = s.inBaseR)
    (h2 : s'.outBaseR = s.outBaseR) (h3 : s'.numRowsR = s.numRowsR) (h4 : s'.rowLenR = s.rowLenR)
    (h5 : s'.rowR = s.rowR) (h6 : s'.rowBaseInR = s.rowBaseInR)
    (h7 : s'.rowBaseOutR = s.rowBaseOutR) : AtRow cmd s' i :=
  ⟨⟨h1.trans h.loaded.inBase, h2.trans h.loaded.outBase, h3.trans h.loaded.numRows,
    h4.trans h.loaded.rowLen⟩, h.lt, h5 ▸ h.row, h6.trans h.baseIn, h7.trans h.baseOut⟩

theorem max_step {y : BitVec 8} {s : SoftmaxCtrl} {l : ℤ} (h : s.maxValR.toInt = l) :
    (if s.maxValR.slt y then y else s.maxValR).toInt = max l y.toInt := by
  rw [BitVec.slt_eq_decide, h]
  by_cases hlt : l < y.toInt
  · rw [if_pos (by simpa using hlt)]
    omega
  · rw [if_neg (by simpa using hlt), h]
    omega

include hL

theorem phase_loadCfg (h : x.Next cmd R rsp x') (hrows : 0 < cmd.numRows.toNat)
    (hs : x.ctl.state = .loadCfg) (hl : Loaded cmd x.ctl) (hcount : x.count = 0) :
    Phase cmd R x' := by
  have hbe := h.ctl_eq.trans (step_loadCfg hs)
  have hv : x'.valid = false := h.not_valid (by simp [actRdReq, hs])
  refine .findMax (i := 0) (b := 0) (by rw [hbe]) ?_ ⟨?_, ?_, ?_, ?_, ?_⟩ hL ?_ ?_ ?_
  · rw [hbe]
    exact ⟨⟨hl.inBase, hl.outBase, hl.numRows, hl.rowLen⟩, hrows, rfl,
      by simp [hl.inBase], by simp [hl.outBase]⟩
  · rw [h.count_of_ne (by simp [hs]), hcount, Nat.zero_mul]
  · rw [hbe]
    rfl
  · rw [hbe, hv]
    rfl
  · rw [hbe]
    exact Nat.zero_le _
  · exact fun hv' ↦ absurd (hv.symm.trans hv') Bool.false_ne_true
  · rw [hbe]
  · rw [hbe]
  · rw [hbe]
    rfl

theorem phase_findMax (h : x.Next cmd R rsp x') (hs : x.ctl.state = .findMax)
    (hr : AtRow cmd x.ctl i) (hp : Scan cmd R x i b) (hb : b < cmd.rowLen.toNat)
    (hd : x.ctl.expSumRvalidD = false) (hsum : x.ctl.sumR = 0)
    (hmax : x.ctl.maxValR.toInt = SoftmaxRow.maxUpTo (R.scan i) b) : Phase cmd R x' := by
  have hlast : eqLast x.ctl.rcvCntR x.ctl.rowLenR = true ↔ b + 1 = cmd.rowLen.toNat := by
    rw [hr.loaded.rowLen, eqLast_iff hL, hp.rcv]
  cases hl : rsp.actRdRvalid && eqLast x.ctl.rcvCntR x.ctl.rowLenR with
  | false =>
      have hbe := h.ctl_eq.trans (step_findMax hs hd hl)
      have hscan := hp.step h hr (.inl hs) (by rw [hbe]) (by rw [hbe])
      refine .findMax (by rw [hbe, hs]) ?_ hscan ?_ ?_ ?_ ?_
      · rw [hbe]
        exact hr.congr rfl rfl rfl rfl rfl rfl rfl
      · rw [h.valid] at hl
        cases hv : x.valid with
        | false => simpa using hb
        | true =>
            have hne : b + 1 ≠ cmd.rowLen.toNat := by
              rw [Ne, ← hlast]
              simpa [hv] using hl
            simp only [Bool.toNat_true]
            omega
      · rw [hbe, hd]
      · rw [hbe, hsum]
      · rw [hbe, h.valid, h.data]
        cases hv : x.valid with
        | false => simpa using hmax
        | true =>
            simp only [if_true]
            rw [max_step hmax, hp.data hv]
            exact (SoftmaxRow.maxUpTo_succ _ b).symm
  | true =>
      obtain ⟨hv, heq⟩ := Bool.and_eq_true_iff.mp hl
      have hfull := hlast.mp heq
      have hbe := h.ctl_eq.trans (step_findMax_last hs hd hv heq)
      have hvx : x.valid = true := h.valid ▸ hv
      have hv' : x'.valid = false := by
        have hreq := hp.req
        rw [hvx, Bool.toNat_true, hfull, ← hr.loaded.rowLen] at hreq
        refine h.not_valid ?_
        rw [actRdReq, hs]
        simp [BitVec.ult_eq_decide, hreq]
      refine .expSum (i := i) (b := 0) (by rw [hbe]) ?_ ⟨?_, ?_, ?_, ?_, ?_⟩ ?_ ?_
      · rw [hbe]
        exact hr.congr rfl rfl rfl rfl rfl rfl rfl
      · rw [h.count_of_ne (by simp [hs]), hp.count]
      · rw [hbe]
        rfl
      · rw [hbe, hv']
        rfl
      · rw [hbe]
        exact Nat.zero_le _
      · exact fun hv'' ↦ absurd (hv'.symm.trans hv'') Bool.false_ne_true
      · rw [hbe, h.data, max_step hmax, hp.data hvx, Reads.rowMax, ← hfull]
        exact (SoftmaxRow.maxUpTo_succ _ b).symm
      · rw [hbe, hsum, hd]
        rfl

/-- The pending table value never makes the sum wrap. -/
theorem sum_next (hb : b ≤ cmd.rowLen.toNat) {s : SoftmaxCtrl}
    (hsum : s.sumR.toNat + (if s.expSumRvalidD then s.expSumLutD.toNat else 0) =
      R.sumUpTo cmd.rowLen.toNat i b) :
    (if s.expSumRvalidD then s.sumR + s.expSumLutD.setWidth 32 else s.sumR).toNat =
      R.sumUpTo cmd.rowLen.toNat i b := by
  have hlen := cmd.rowLen.isLt
  have hbound : R.sumUpTo cmd.rowLen.toNat i b ≤ b * 65534 := SoftmaxRow.expUpTo_le _ b
  cases hd : s.expSumRvalidD with
  | false => simpa [hd] using hsum
  | true =>
      have hlut := s.expSumLutD.isLt
      simp only [hd, if_true] at hsum ⊢
      rw [BitVec.toNat_add, BitVec.toNat_setWidth, Nat.mod_eq_of_lt (a := s.expSumLutD.toNat)
        (by omega), hsum, Nat.mod_eq_of_lt (by omega)]

theorem phase_expSum (h : x.Next cmd R rsp x') (hs : x.ctl.state = .expSum)
    (hr : AtRow cmd x.ctl i) (hp : Scan cmd R x i b)
    (hmax : x.ctl.maxValR.toInt = R.rowMax cmd.rowLen.toNat i)
    (hsum : x.ctl.sumR.toNat + (if x.ctl.expSumRvalidD then x.ctl.expSumLutD.toNat else 0) =
      R.sumUpTo cmd.rowLen.toNat i b) : Phase cmd R x' := by
  have hb : b ≤ cmd.rowLen.toNat := by
    have := hp.req
    have := hp.req_le
    omega
  have hnext := sum_next hL hb hsum
  by_cases hfull : x.ctl.rcvCntR = x.ctl.rowLenR
  · have hbL : b = cmd.rowLen.toNat := by rw [← hp.rcv, hfull, hr.loaded.rowLen]
    have hv : x.valid = false := by
      have hreq := hp.req
      have hle := hp.req_le
      cases hv : x.valid with
      | false => rfl
      | true =>
          rw [hv, Bool.toNat_true] at hreq
          omega
    have hult : x.ctl.reqCntR.ult x.ctl.rowLenR = false := by
      have hreq := hp.req
      rw [hv, Bool.toNat_false] at hreq
      rw [BitVec.ult_eq_decide, hr.loaded.rowLen]
      simp
      omega
    have hbe := h.ctl_eq.trans (step_expSum_last hs hfull hult (h.valid.trans hv))
    refine .normRd (i := i) (j := 0) (by rw [hbe]) ⟨?_, hL, ?_, ?_, ?_, ?_, ?_⟩
    · rw [hbe]
      exact hr.congr rfl rfl rfl rfl rfl rfl rfl
    · rw [hbe]
      rfl
    · rw [h.count_of_ne (by simp [hs]), hp.count, Nat.add_zero]
    · rw [hbe, hmax]
    · rw [hbe]
      exact hnext.trans (by rw [hbL])
    · rw [hbe]
  · have hbe := h.ctl_eq.trans (step_expSum hs hfull)
    have hblt : b < cmd.rowLen.toNat := by
      refine lt_of_le_of_ne hb fun heq ↦ hfull (BitVec.eq_of_toNat_eq ?_)
      rw [hp.rcv, heq, hr.loaded.rowLen]
    have hscan := hp.step h hr (.inr hs) (by rw [hbe]) (by rw [hbe])
    refine .expSum (by rw [hbe, hs]) ?_ hscan ?_ ?_
    · rw [hbe]
      exact hr.congr rfl rfl rfl rfl rfl rfl rfl
    · rw [hbe, hmax]
    · rw [hbe]
      simp only [h.valid]
      rw [hnext]
      cases hv : x.valid with
      | false => simp
      | true =>
          have hmx : R.rowMax cmd.rowLen.toNat i ≤ 127 := by
            have := x.ctl.maxValR.toInt_lt
            omega
          simp only [if_true, Bool.toNat_true]
          rw [toNat_lutExpVal hmax (h.data ▸ hp.data hv), Reads.wrap_eq hblt hmx]
          exact (SoftmaxRow.expUpTo_succ _ _ b).symm

omit hL in
/-- In the third pass the element is kept by every edge that leaves the row
registers, the index and the sum alone. -/
theorem AtElem.of_step (h : x.Next cmd R rsp x') (he : AtElem cmd R x i j)
    (hs : x.ctl.state ≠ .normWr) {st : SoftmaxState} {dn : BitVec 24} {dr : BitVec 32}
    {dq : BitVec 8} {dc : BitVec 5}
    (hbe : x'.ctl = { x.ctl with
      state := st, divNumerR := dn, divRemR := dr, divQuotR := dq, divCntR := dc }) :
    AtElem cmd R x' i j := by
  refine ⟨?_, he.lt, ?_, by rw [h.count_of_ne hs, he.count], ?_, ?_, ?_⟩ <;> rw [hbe]
  · exact he.row.congr rfl rfl rfl rfl rfl rfl rfl
  · exact he.idx
  · exact he.max
  · exact he.sum
  · exact he.quiet

omit hL in
theorem phase_normRd (h : x.Next cmd R rsp x') (hs : x.ctl.state = .normRd)
    (he : AtElem cmd R x i j) : Phase cmd R x' := by
  have hbe := h.ctl_eq.trans (step_normRd hs he.quiet)
  have hel := he.of_step h (by simp [hs]) hbe
  cases hg : rsp.actRdGnt with
  | false => exact .normRd (by rw [hbe, hg]; rfl) hel
  | true =>
      refine .normWait (by rw [hbe, hg]; rfl) hel (h.valid_eq.trans hg) ?_
      rw [(h.answers hg).last hs, he.row.row, he.idx]

omit hL in
theorem phase_normWait (h : x.Next cmd R rsp x') (hs : x.ctl.state = .normWait)
    (he : AtElem cmd R x i j) (hv : x.valid = true) (hdata : x.data.toInt = R.last i j) :
    Phase cmd R x' := by
  have hbe := h.ctl_eq.trans (step_normWait hs he.quiet (h.valid.trans hv))
  have hlt := R.numer_lt (L := cmd.rowLen.toNat) i j
  refine .normDiv (k := 0) (by rw [hbe]) (he.of_step h (by simp [hs]) hbe) (by omega) ?_ ?_
  · rw [hbe]
    rfl
  · have hnum : (x.ctl.lutExpVal rsp).setWidth 24 * 127 =
        BitVec.ofNat 24 (R.numer cmd.rowLen.toNat i j) := by
      refine BitVec.eq_of_toNat_eq ?_
      have hlut : (x.ctl.lutExpVal rsp).toNat = _ := toNat_lutExpVal he.max (h.data ▸ hdata)
      have hle := (x.ctl.lutExpVal rsp).isLt
      rw [BitVec.toNat_mul, BitVec.toNat_setWidth, BitVec.toNat_ofNat, Reads.numer, ← hlut,
        Nat.mod_eq_of_lt (a := (x.ctl.lutExpVal rsp).toNat) (by omega)]
      rfl
    rw [hbe]
    simp only [hnum]
    exact SerialArith.SplitInv.init hlt

omit hL in
theorem divTrial_msb (s : SoftmaxCtrl) : s.divTrial.msb = decide (s.divShifted < s.sumR) := by
  have ha := s.divShifted.isLt
  have hb := s.sumR.isLt
  rw [divTrial, BitVec.msb_eq_decide, BitVec.toNat_sub, BitVec.toNat_setWidth,
    BitVec.toNat_setWidth, Nat.mod_eq_of_lt (a := s.divShifted.toNat) (by omega),
    Nat.mod_eq_of_lt (a := s.sumR.toNat) (by omega), decide_eq_decide, BitVec.lt_def]
  omega

omit hL in
theorem divTrial_low (s : SoftmaxCtrl) : s.divTrial.setWidth 32 = s.divShifted - s.sumR := by
  have ha := s.divShifted.isLt
  have hb := s.sumR.isLt
  refine BitVec.eq_of_toNat_eq ?_
  rw [divTrial, BitVec.toNat_setWidth, BitVec.toNat_sub, BitVec.toNat_sub, BitVec.toNat_setWidth,
    BitVec.toNat_setWidth]
  omega

theorem phase_normDiv (h : x.Next cmd R rsp x') (hs : x.ctl.state = .normDiv)
    (he : AtElem cmd R x i j) (hk : k < 24) (hcnt : x.ctl.divCntR.toNat = k)
    (hdiv : SerialArith.SplitInv (R.numer cmd.rowLen.toNat i j)
      (R.sumUpTo cmd.rowLen.toNat i cmd.rowLen.toNat) k (24 - k)
      x.ctl.divNumerR x.ctl.divRemR x.ctl.divQuotR) : Phase cmd R x' := by
  have hbe := h.ctl_eq.trans (step_normDiv hs he.quiet)
  have hel := he.of_step h (by simp [hs]) hbe
  have hq : R.numer cmd.rowLen.toNat i j / R.sumUpTo cmd.rowLen.toNat i cmd.rowLen.toNat ≤ 127 :=
    R.out_le hL i j
  have hsum : 65534 ≤ R.sumUpTo cmd.rowLen.toNat i cmd.rowLen.toNat :=
    SoftmaxRow.le_expUpTo hL fun j _ ↦ R.scan_ge i j
  rw [show 24 - k = (24 - (k + 1)) + 1 by omega] at hdiv
  have hnext := hdiv.step (R.numer_lt i j) (by norm_num) (by omega) (by omega) he.sum
  rw [← show x.ctl.divShifted = x.ctl.divRemR.shiftConcat x.ctl.divNumerR.msb from rfl] at hnext
  have hinv : SerialArith.SplitInv (R.numer cmd.rowLen.toNat i j)
      (R.sumUpTo cmd.rowLen.toNat i cmd.rowLen.toNat) (k + 1) (24 - (k + 1))
      x'.ctl.divNumerR x'.ctl.divRemR x'.ctl.divQuotR := by
    rw [hbe]
    simpa only [divTrial_msb, divTrial_low, decide_eq_true_eq] using hnext
  by_cases hlast : x.ctl.divCntR = 23
  · have hk23 : k = 23 := by rw [← hcnt, hlast]; rfl
    refine .normWr (i := i) (j := j) (by rw [hbe]; exact if_pos hlast) hel ?_
    rw [hk23] at hinv
    exact hinv.final
  · have hk23 : k ≠ 23 := fun hk ↦ hlast (BitVec.eq_of_toNat_eq (hcnt.trans hk))
    refine .normDiv (k := k + 1) (by rw [hbe]; exact if_neg hlast) hel (by omega) ?_ hinv
    rw [hbe]
    exact (toNat_add_one (by omega)).trans (by rw [hcnt])

theorem phase_normWr (h : x.Next cmd R rsp x') (hs : x.ctl.state = .normWr)
    (he : AtElem cmd R x i j) (hquot : x.ctl.divQuotR.toNat = R.out cmd.rowLen.toNat i j) :
    Phase cmd R x' := by
  have hcount := h.count_eq
  simp only [hs, decide_true, Bool.true_and] at hcount
  cases hg : rsp.outWrGnt with
  | false =>
      have hbe := h.ctl_eq.trans (step_normWr_hold hs he.quiet hg)
      rw [hg, Bool.toNat_false, Nat.add_zero] at hcount
      refine .normWr (i := i) (j := j) (by rw [hbe, hs])
        ⟨?_, he.lt, ?_, by rw [hcount, he.count], ?_, ?_, ?_⟩ ?_ <;> rw [hbe]
      exacts [he.row, he.idx, he.max, he.sum, he.quiet, hquot]
  | true =>
      rw [hg, Bool.toNat_true, he.count] at hcount
      have hidx : eqLast x.ctl.normIdxR x.ctl.rowLenR = true ↔ j + 1 = cmd.rowLen.toNat := by
        rw [he.row.loaded.rowLen, eqLast_iff hL, he.idx]
      cases hl : eqLast x.ctl.normIdxR x.ctl.rowLenR with
      | false =>
          have hlt : j + 1 < cmd.rowLen.toNat := by
            have hne : j + 1 ≠ cmd.rowLen.toNat := by rw [Ne, ← hidx, hl]; simp
            have := he.lt
            omega
          have hbe := h.ctl_eq.trans (step_normWr_elem hs he.quiet hg hl)
          refine .normRd (i := i) (j := j + 1) (by rw [hbe]) ⟨?_, hlt, ?_, hcount, ?_, ?_, ?_⟩
            <;> rw [hbe]
          · exact he.row.congr rfl rfl rfl rfl rfl rfl rfl
          · exact toNat_succ_dim he.idx he.lt
          · exact he.max
          · exact he.sum
          · exact he.quiet
      | true =>
          rw [Nat.add_assoc, hidx.mp hl, ← Nat.succ_mul] at hcount
          have hrows : 0 < cmd.numRows.toNat := Nat.zero_lt_of_lt he.row.lt
          have hrow : eqLast x.ctl.rowR x.ctl.numRowsR = true ↔ i + 1 = cmd.numRows.toNat := by
            rw [he.row.loaded.numRows, eqLast_iff hrows, he.row.row]
          have hrowlt : ltLast x.ctl.rowR x.ctl.numRowsR = true ↔
              i + 1 < cmd.numRows.toNat := by
            rw [he.row.loaded.numRows, ltLast_iff hrows, he.row.row]
          cases hr : eqLast x.ctl.rowR x.ctl.numRowsR with
          | true =>
              refine .done (by rw [h.ctl_eq, step_normWr_last hs hg hl hr]) ?_
                (h.quiet (by simp [hs]))
              rw [hcount, ← hrow.mp hr]
          | false =>
              have hlt : i + 1 < cmd.numRows.toNat := by
                have hne : i + 1 ≠ cmd.numRows.toNat := by rw [Ne, ← hrow, hr]; simp
                have := he.row.lt
                omega
              have hbe := h.ctl_eq.trans (step_normWr_row hs he.quiet hg hl hr (hrowlt.mpr hlt))
              have hv' : x'.valid = false := h.not_valid (by simp [actRdReq, hs])
              have hbase : ∀ base : Addr, BitVec.ofNat 16 (base.toNat + i * cmd.rowLen.toNat) +
                  cmd.rowLen = .ofNat 16 (base.toNat + (i + 1) * cmd.rowLen.toNat) := by
                intro base
                rw [Nat.succ_mul, ← Nat.add_assoc, ofNat_add_dim]
              refine .findMax (i := i + 1) (b := 0) (by rw [hbe]) ?_ ⟨hcount, ?_, ?_, ?_, ?_⟩ hL
                ?_ ?_ ?_
              · rw [hbe]
                exact ⟨⟨he.row.loaded.inBase, he.row.loaded.outBase, he.row.loaded.numRows,
                  he.row.loaded.rowLen⟩, hlt, toNat_succ_dim he.row.row he.row.lt,
                  by simp only [he.row.baseIn, he.row.loaded.rowLen, hbase],
                  by simp only [he.row.baseOut, he.row.loaded.rowLen, hbase]⟩
              · rw [hbe]
                rfl
              · rw [hbe, hv']
                rfl
              · rw [hbe]
                exact Nat.zero_le _
              · exact fun hv ↦ absurd (hv'.symm.trans hv) Bool.false_ne_true
              · rw [hbe, he.quiet]
              · rw [hbe]
              · rw [hbe]
                rfl

theorem Phase.step (hrows : 0 < cmd.numRows.toNat) (h : x.Next cmd R rsp x')
    (hx : Phase cmd R x) : Phase cmd R x' := by
  rcases hx with ⟨hs, hl, hcount, -, -⟩ | ⟨hs, hr, hp, hb, hd, hsum, hmax⟩ |
    ⟨hs, hr, hp, hmax, hsum⟩ | ⟨hs, he⟩ | ⟨hs, he, hv, hdata⟩ | ⟨hs, he, hk, hcnt, hdiv⟩ |
    ⟨hs, he, hquot⟩ | ⟨hs, hcount, -⟩ | ⟨hs, hcount, -⟩
  · exact phase_loadCfg hL h hrows hs hl hcount
  · exact phase_findMax hL h hs hr hp hb hd hsum hmax
  · exact phase_expSum hL h hs hr hp hmax hsum
  · exact phase_normRd h hs he
  · exact phase_normWait h hs he hv hdata
  · exact phase_normDiv hL h hs he hk hcnt hdiv
  · exact phase_normWr hL h hs he hquot
  · exact .idle (by rw [h.ctl_eq, step_done_state hs])
      (by rw [h.count_of_ne (by simp [hs]), hcount]) (h.quiet (by simp [hs]))
  · exact .idle (by rw [h.ctl_eq, step_idle_state hs])
      (by rw [h.count_of_ne (by simp [hs]), hcount]) (h.quiet (by simp [hs]))

/-! ## What the port is asked for -/

omit hL in
theorem AtRow.inAddr_add {s : SoftmaxCtrl} (hr : AtRow cmd s i) (d : Dim) :
    s.rowBaseInR + d = .ofNat 16 (cmd.inAddr.toNat + i * cmd.rowLen.toNat + d.toNat) := by
  rw [hr.baseIn, ofNat_add_dim]

omit hL in
theorem AtRow.outAddr_add {s : SoftmaxCtrl} (hr : AtRow cmd s i) (d : Dim) :
    s.rowBaseOutR + d = .ofNat 16 (cmd.outAddr.toNat + i * cmd.rowLen.toNat + d.toNat) := by
  rw [hr.baseOut, ofNat_add_dim]

omit hL in
/-- A scan has written the rows before its own. -/
theorem Phase.of_scanning (hx : Phase cmd R x) (hscan : x.ctl.scanning) :
    AtRow cmd x.ctl x.ctl.rowR.toNat ∧ x.count = x.ctl.rowR.toNat * cmd.rowLen.toNat ∧
      x.ctl.actRdAddr = x.ctl.rowBaseInR + x.ctl.reqCntR := by
  have haddr : x.ctl.actRdAddr = x.ctl.rowBaseInR + x.ctl.reqCntR := by
    rcases hscan with hs | hs <;> simp [actRdAddr, hs]
  cases hx with
  | findMax hs hr hp _ _ _ _ => exact ⟨hr.row.symm ▸ hr, by rw [hr.row, hp.count], haddr⟩
  | expSum hs hr hp _ _ => exact ⟨hr.row.symm ▸ hr, by rw [hr.row, hp.count], haddr⟩
  | _ hs => exact absurd hscan (by simp [scanning, hs])

omit hL in
theorem Phase.of_normRd (hx : Phase cmd R x) (hs : x.ctl.state = .normRd) :
    AtElem cmd R x x.ctl.rowR.toNat x.ctl.normIdxR.toNat ∧
      x.ctl.actRdAddr = x.ctl.rowBaseInR + x.ctl.normIdxR := by
  cases hx with
  | normRd _ he => exact ⟨by rw [he.row.row, he.idx]; exact he, by simp [actRdAddr, hs]⟩
  | _ hs' => exact absurd (hs.symm.trans hs') (by simp)

omit hL in
/-- A requested element lies in the input region and has not been written
over by an in-place output. -/
theorem Phase.of_actRdReq (hx : Phase cmd R x) (hreq : x.ctl.actRdReq = true) :
    ∃ e < cmd.numRows.toNat * cmd.rowLen.toNat,
      x.ctl.actRdAddr = .ofNat 16 (cmd.inAddr.toNat + e) ∧ x.count ≤ e := by
  by_cases hscan : x.ctl.scanning
  · obtain ⟨hr, hcount, haddr⟩ := hx.of_scanning hscan
    have hlt : x.ctl.reqCntR.toNat < cmd.rowLen.toNat := by
      rcases hscan with hs | hs <;>
        simpa [actRdReq, hs, BitVec.ult_eq_decide, hr.loaded.rowLen] using hreq
    refine ⟨_, LoopNest.join_lt hr.lt hlt, ?_, hcount.le.trans (Nat.le_add_right _ _)⟩
    rw [haddr, hr.inAddr_add, Nat.add_assoc]
  · have hs : x.ctl.state = .normRd := by
      rw [scanning, not_or] at hscan
      rw [actRdReq] at hreq
      split at hreq <;> simp_all
    obtain ⟨he, haddr⟩ := hx.of_normRd hs
    refine ⟨_, LoopNest.join_lt he.row.lt he.lt, ?_, he.count.le⟩
    rw [haddr, he.row.inAddr_add, Nat.add_assoc]

omit hL in
theorem Phase.of_normDiv (hx : Phase cmd R x) (hs : x.ctl.state = .normDiv) :
    AtElem cmd R x x.ctl.rowR.toNat x.ctl.normIdxR.toNat := by
  cases hx with
  | normDiv _ he _ _ _ =>
      rw [he.row.row, he.idx]
      exact he
  | _ hs' => exact absurd (hs.symm.trans hs') (by simp)

omit hL in
theorem Phase.quot_of_normWr (hx : Phase cmd R x) (hs : x.ctl.state = .normWr) :
    AtElem cmd R x x.ctl.rowR.toNat x.ctl.normIdxR.toNat ∧
      x.ctl.divQuotR.toNat =
        R.out cmd.rowLen.toNat x.ctl.rowR.toNat x.ctl.normIdxR.toNat := by
  cases hx with
  | normWr _ he hquot =>
      rw [he.row.row, he.idx]
      exact ⟨he, hquot⟩
  | _ hs' => exact absurd (hs.symm.trans hs') (by simp)

/-- The element a write is offered for, and its data. -/
theorem Phase.of_normWr (hx : Phase cmd R x) (hs : x.ctl.state = .normWr) :
    AtElem cmd R x x.ctl.rowR.toNat x.ctl.normIdxR.toNat ∧
      x.ctl.normResult =
        .ofNat 8 (R.out cmd.rowLen.toNat x.ctl.rowR.toNat x.ctl.normIdxR.toNat) := by
  obtain ⟨he, hquot⟩ := hx.quot_of_normWr hs
  have hult : (127 : BitVec 8).ult x.ctl.divQuotR = false := by
    rw [BitVec.ult_eq_decide, hquot]
    exact decide_eq_false (Nat.not_lt.mpr (R.out_le hL _ _))
  refine ⟨he, ?_⟩
  rw [normResult, hult, ← hquot]
  simp

omit hL in
theorem Phase.sum_lt (hx : Phase cmd R x) (hd : x.ctl.expSumRvalidD = true) :
    x.ctl.sumR.toNat + x.ctl.expSumLutD.toNat < 2 ^ 32 := by
  have hlen := cmd.rowLen.isLt
  cases hx with
  | @expSum i b _ hr hp _ hsum =>
      have hle := hp.req_le
      have hreq := hp.req
      have hbound : R.sumUpTo cmd.rowLen.toNat i b ≤ b * 65534 := SoftmaxRow.expUpTo_le _ b
      rw [hd, if_pos rfl] at hsum
      omega
  | loadCfg _ _ _ _ hq => simp [hq] at hd
  | findMax _ _ _ _ hq _ _ => simp [hq] at hd
  | normRd _ he => simp [he.quiet] at hd
  | normWait _ he _ _ => simp [he.quiet] at hd
  | normDiv _ he _ _ _ => simp [he.quiet] at hd
  | normWr _ he _ => simp [he.quiet] at hd
  | done _ _ hq => simp [hq] at hd
  | idle _ _ hq => simp [hq] at hd

omit hL in
theorem Phase.count_of_done (hx : Phase cmd R x) (hs : x.ctl.state = .done) :
    x.count = cmd.numRows.toNat * cmd.rowLen.toNat := by
  cases hx with
  | done _ hcount _ => exact hcount
  | _ hs' => exact absurd (hs.symm.trans hs') (by simp)

end Step

end SoftmaxCtrl

end LgNpu
