import LgNpu.Pool.Finish

/-!
# Pooling end to end
-/

namespace LgNpu

namespace PoolCtrl

open PoolCmd

/-! ## Running a command -/

section Performs

variable {cmd : PoolCmd} {x : Sys PoolCtrl} {gs : ℕ → Grants}

theorem inv_run (gs : ℕ → Grants) (hv : cmd.Valid) (hs : x.be.state = .idle) (hlog : x.log = [])
    (t : ℕ) : Inv cmd x.mem.act (poolBackend.run cmd gs x (t + 1)) :=
  run_induction poolBackend cmd gs _ (Inv.accept cmd hs hlog _) (fun g _ h ↦ h.step hv g) t

theorem log_prefix_of_inv {m : BitVec 13 → Byte} {y : Sys PoolCtrl} (h : Inv cmd m y) :
    y.log <+: cmd.flatWrites m cmd.codeVal := by
  have htake : ∀ {e : ℕ}, AtElem cmd m y e → y.log <+: cmd.flatWrites m cmd.codeVal := by
    intro e he
    rw [he.log]
    exact List.take_prefix _ _
  rcases h.phase with ⟨-, -, hlog⟩ | ⟨-, he, -, -⟩ | ⟨-, he, -, -, -, -, -⟩ | ⟨-, he, -, -⟩ |
    ⟨-, he, -, -, -, -⟩ | ⟨-, he, -⟩ | ⟨-, hlog⟩ | ⟨-, hlog⟩
  · rw [hlog]
    exact List.nil_prefix
  · exact htake he
  · exact htake he
  · exact htake he
  · exact htake he
  · exact htake he
  · rw [hlog]
  · rw [hlog]

theorem log_eq_of_done {m : BitVec 13 → Byte} {y : Sys PoolCtrl} (h : Inv cmd m y)
    (hd : y.be.state = .done) : y.log = cmd.flatWrites m cmd.codeVal := by
  rcases h.phase with ⟨hs, -⟩ | ⟨hs, -⟩ | ⟨hs, -⟩ | ⟨hs, -⟩ | ⟨hs, -⟩ | ⟨hs, -⟩ | ⟨-, hlog⟩ | ⟨hs, -⟩
  case done => exact hlog
  all_goals exact absurd (hs.symm.trans hd) (by simp)

/-- Under every fair schedule the command writes the values of the code and
signals done. -/
theorem performs (hv : cmd.Valid) (hfair : FairGrants gs) (hs : x.be.state = .idle)
    (hlog : x.log = []) :
    poolBackend.Performs cmd gs x (cmd.flatWrites x.mem.act cmd.codeVal) := by
  apply Backend.Performs.of_inv poolBackend cmd gs hlog (Inv cmd x.mem.act) (inv_run gs hv hs hlog)
  · exact fun y h ↦ log_prefix_of_inv h
  · exact fun y h hd ↦ log_eq_of_done h (of_decide_eq_true hd)
  · exact finishes hv.looping hfair hs hlog

theorem nodup_flatWrites (hv : cmd.Valid) (m : BitVec 13 → Byte) (val : List ℤ → ℤ) :
    ((cmd.flatWrites m val).map Prod.fst).Nodup := by
  rw [flatWrites, List.map_map]
  refine List.Nodup.map_on (fun i hi j hj hij ↦ ?_) List.nodup_range
  have hout := hv.outRange
  have hi' := List.mem_range.mp hi
  have hj' := List.mem_range.mp hj
  have hnat := congrArg BitVec.toNat hij
  rw [numOut] at hi' hj'
  simp only [Function.comp_apply, BitVec.toNat_ofNat] at hnat
  omega

/-- Bytes outside the output region are never touched. -/
theorem frame (hv : cmd.Valid) (hs : x.be.state = .idle) (hlog : x.log = [])
    {a : BitVec 13} (ha : ∀ e < cmd.numOut, a ≠ .ofNat 13 (cmd.outAddr.toNat + e)) (t : ℕ) :
    (poolBackend.run cmd gs x t).mem.act a = x.mem.act a := by
  have hpre : (poolBackend.run cmd gs x t).log <+: cmd.flatWrites x.mem.act cmd.codeVal := by
    cases t with
    | zero => rw [run_zero, hlog]; exact List.nil_prefix
    | succ t => exact log_prefix_of_inv (inv_run gs hv hs hlog t)
  rw [act_eq_store poolBackend cmd gs hlog]
  refine store_of_notMem fun w hw hwa ↦ ?_
  obtain ⟨e, he, rfl⟩ := List.mem_map.mp (hpre.subset hw)
  refine ha e (List.mem_range.mp he) ?_
  rw [← hwa]
  exact setWidth13_ofNat _

/-- Every read request is for a byte of the input map. -/
theorem read_inBounds (hv : cmd.Valid) (hs : x.be.state = .idle) (hlog : x.log = []) (t : ℕ)
    (hreq : (poolBackend.req (poolBackend.run cmd gs x t).be).actRdReq = true) :
    ∃ i < cmd.inH.toNat * cmd.inW.toNat * cmd.inC.toNat,
      (poolBackend.req (poolBackend.run cmd gs x t).be).actRdAddr =
        .ofNat 16 (cmd.inAddr.toNat + i) := by
  obtain ⟨hrd, ho⟩ := of_decide_eq_true hreq
  cases t with
  | zero => exact absurd (hs.symm.trans hrd) (by simp)
  | succ t =>
      have hphase := (inv_run gs hv hs hlog t).phase
      have ho' : (poolBackend.run cmd gs x (t + 1)).be.oobW = false := by simpa using ho
      have haddr : (poolBackend.req (poolBackend.run cmd gs x (t + 1)).be).actRdAddr =
          (poolBackend.run cmd gs x (t + 1)).be.rdAddrW := if_pos ⟨hrd, ho⟩
      rw [haddr]
      rcases hphase with ⟨hs, -⟩ | @⟨e, p, -, he, hp, -⟩ | ⟨hs, -⟩ | ⟨hs, -⟩ | ⟨hs, -⟩ | ⟨hs, -⟩ |
        ⟨hs, -⟩ | ⟨hs, -⟩
      case rd =>
        have hin := (oobW_iff hv he.loaded he.outer hp).mp ho'
        have hlt : cmd.idxAt e p < cmd.inAddr.toNat +
            cmd.inH.toNat * cmd.inW.toNat * cmd.inC.toNat := inIdx_lt hin he.outer.digits.2.2
        have hge : cmd.inAddr.toNat ≤ cmd.idxAt e p := by
          rw [idxAt, inIdx]
          omega
        refine ⟨cmd.idxAt e p - cmd.inAddr.toNat, by omega, ?_⟩
        rw [rdAddrW_eq hv he.loaded he.outer hp hin, Nat.add_sub_cancel' hge]
      all_goals exact absurd (hs.symm.trans hrd) (by simp)

end Performs

/-! ## MAX -/

theorem codeVal_eq_maxOf {cmd : PoolCmd} (hmode : cmd.poolMode = false) : cmd.codeVal = maxOf := by
  funext l
  rw [codeVal, hmode]
  rfl

/-- A MAX command under any fair schedule: every output element gets the
maximum of its in-bounds window, nothing else is written, and only the input
map is read. -/
theorem max_pool_correct {cmd : PoolCmd} {gs : ℕ → Grants} {x : Sys PoolCtrl} (hv : cmd.Valid)
    (hmode : cmd.poolMode = false) (hfair : FairGrants gs) (hs : x.be.state = .idle)
    (hlog : x.log = []) :
    poolBackend.Performs cmd gs x (cmd.writesOf x.mem.act maxOf) ∧
      ((cmd.writesOf x.mem.act maxOf).map Prod.fst).Nodup ∧
      (∀ t a, (∀ e < cmd.numOut, a ≠ .ofNat 13 (cmd.outAddr.toNat + e)) →
        (poolBackend.run cmd gs x t).mem.act a = x.mem.act a) ∧
      (∀ t, (poolBackend.run cmd gs x t).mem.wt = x.mem.wt) ∧
      ∀ t, (poolBackend.req (poolBackend.run cmd gs x t).be).actRdReq = true →
        ∃ i < cmd.inH.toNat * cmd.inW.toNat * cmd.inC.toNat,
          (poolBackend.req (poolBackend.run cmd gs x t).be).actRdAddr =
            .ofNat 16 (cmd.inAddr.toNat + i) := by
  have hperf := performs hv hfair hs hlog
  rw [codeVal_eq_maxOf hmode] at hperf
  rw [writesOf_eq]
  exact ⟨hperf, nodup_flatWrites hv _ _, fun t a ha ↦ frame hv hs hlog ha t,
    fun t ↦ wt_run poolBackend cmd gs x t, read_inBounds hv hs hlog⟩

/-- A 3x2 map with one row of padding. -/
def paddedCmd (poolMode : Bool) (poolR : Dim) : PoolCmd where
  inAddr := 0
  outAddr := 4096
  inH := 3
  inW := 2
  inC := 1
  poolR := poolR
  poolS := 2
  strideH := 1
  strideW := 1
  padH := 1
  padW := 0
  outH := 2
  outW := 1
  poolMode := poolMode

theorem max_pool_correct_padded :
    poolBackend.Performs (paddedCmd false 3) (fun _ ↦ .all)
      (.reset .reset (fun a ↦ a.setWidth 8) fun _ ↦ 0)
      [(4096, 3), (4097, 5)] :=
  (max_pool_correct (x := .reset .reset (fun a ↦ a.setWidth 8) fun _ ↦ 0)
    (by constructor <;> decide) rfl fairGrants_all rfl rfl).1

/-! ## AVG -/

/-- An AVG command meets its specification: the truncated average over the full
window area, nothing else written, and no division by zero. -/
structure AvgCorrect (cmd : PoolCmd) (x : Sys PoolCtrl) : Prop where
  performs : poolBackend.Performs cmd (fun _ ↦ .all) x (cmd.writesOf x.mem.act (avgOf cmd.area))
  nodup : ((cmd.writesOf x.mem.act (avgOf cmd.area)).map Prod.fst).Nodup
  frame : ∀ t a, (∀ e < cmd.numOut, a ≠ .ofNat 13 (cmd.outAddr.toNat + e)) →
    (poolBackend.run cmd (fun _ ↦ .all) x t).mem.act a = x.mem.act a
  wt : ∀ t, (poolBackend.run cmd (fun _ ↦ .all) x t).mem.wt = x.mem.wt
  divisor : ∀ t, (poolBackend.run cmd (fun _ ↦ .all) x t).be.state = .avgDiv →
    (poolBackend.run cmd (fun _ ↦ .all) x t).be.divDenomR ≠ 0

/-- The latched divisor `a = (poolR mod 256) * (poolS mod 256)` serves every
window: it is the area, or each window sum is below `a` in magnitude or
saturates either way. -/
def AreaServes (cmd : PoolCmd) (m : BitVec 13 → Byte) : Prop :=
  cmd.poolR.toNat < 256 ∧ cmd.poolS.toNat < 256 ∨
    cmd.codeArea ≠ 0 ∧ ∀ oh < cmd.outH.toNat, ∀ ow < cmd.outW.toNat, ∀ c < cmd.inC.toNat,
      |(cmd.window m oh ow c).sum| < cmd.codeArea ∨
        127 * (cmd.area : ℤ) ≤ (cmd.window m oh ow c).sum ∨
        (cmd.window m oh ow c).sum ≤ -128 * (cmd.area : ℤ)

instance (cmd : PoolCmd) (m : BitVec 13 → Byte) : Decidable (AreaServes cmd m) :=
  inferInstanceAs (Decidable (_ ∨ _))

section Avg

variable {cmd : PoolCmd} {x : Sys PoolCtrl}

theorem codeArea_eq (hr : cmd.poolR.toNat < 256) (hs : cmd.poolS.toNat < 256) :
    cmd.codeArea = cmd.area := by
  rw [codeArea, area, Nat.mod_eq_of_lt hr, Nat.mod_eq_of_lt hs]

/-- Truncating a window side more than halves the area. -/
theorem two_mul_codeArea_lt (hv : cmd.Valid)
    (h : ¬(cmd.poolR.toNat < 256 ∧ cmd.poolS.toNat < 256)) :
    2 * cmd.codeArea < cmd.area := by
  obtain ⟨r, hr⟩ : ∃ r, cmd.poolR.toNat % 256 = r := ⟨_, rfl⟩
  obtain ⟨s, hs⟩ : ∃ s, cmd.poolS.toNat % 256 = s := ⟨_, rfl⟩
  have hrpos := hv.poolR_pos
  have hspos := hv.poolS_pos
  rw [codeArea, area, hr, hs]
  rcases Nat.lt_or_ge cmd.poolR.toNat 256 with hlt | hge
  · calc 2 * (r * s) = r * (2 * s) := by ring
      _ < cmd.poolR.toNat * (2 * s + 1) := by
          rw [show r = cmd.poolR.toNat by omega, Nat.mul_add]
          omega
      _ ≤ cmd.poolR.toNat * cmd.poolS.toNat := Nat.mul_le_mul_left _ (by omega)
  · calc 2 * (r * s) = 2 * r * s := by ring
      _ ≤ 2 * r * cmd.poolS.toNat := Nat.mul_le_mul_left _ (by omega)
      _ < (2 * r + 1) * cmd.poolS.toNat := by
          rw [Nat.add_mul]
          omega
      _ ≤ cmd.poolR.toNat * cmd.poolS.toNat := Nat.mul_le_mul_right _ (by omega)

/-- Dividing by less than half the divisor shows unless both quotients are
zero or both reach the bound. -/
theorem min_div_eq_iff {k a b n : ℕ} (ha : 0 < a) (hab : 2 * a < b) :
    min k (n / a) = min k (n / b) ↔ n < a ∨ k * b ≤ n := by
  have hle : n / b ≤ n / a := Nat.div_le_div_left (by omega) ha
  constructor
  · intro h
    by_contra hcon
    rw [not_or, Nat.not_lt, Nat.not_le] at hcon
    obtain ⟨hna, hnk⟩ := hcon
    have hone : 1 ≤ n / a := (Nat.one_le_div_iff ha).mpr hna
    have hqk : n / b < k := Nat.div_lt_of_lt_mul (by rwa [Nat.mul_comm])
    have hdouble : 2 * (n / b) ≤ n / a := by
      rw [Nat.le_div_iff_mul_le ha]
      calc 2 * (n / b) * a = n / b * (2 * a) := by ring
        _ ≤ n / b * b := Nat.mul_le_mul_left _ hab.le
        _ ≤ n := Nat.div_mul_le_self n b
    omega
  · rintro (hlt | hge)
    · rw [Nat.div_eq_of_lt hlt, Nat.div_eq_of_lt (by omega)]
    · have hkb : k ≤ n / b := (Nat.le_div_iff_mul_le (by omega)).mpr hge
      omega

theorem avgOf_eq_iff {a b : ℕ} (ha : 0 < a) (hab : 2 * a < b) (l : List ℤ) :
    avgOf a l = avgOf b l ↔
      |l.sum| < a ∨ 127 * (b : ℤ) ≤ l.sum ∨ l.sum ≤ -128 * (b : ℤ) := by
  have hb : (0 : ℤ) < b := by omega
  rw [avgOf, avgOf, Signed.tdiv_natCast, Signed.tdiv_natCast, Signed.sat8, Signed.sat8,
    Int.abs_eq_natAbs]
  by_cases hneg : l.sum < 0
  · have h := min_div_eq_iff (k := 128) (n := l.sum.natAbs) ha hab
    rw [if_pos hneg, if_pos hneg]
    generalize l.sum.natAbs / a = qa at h ⊢
    generalize l.sum.natAbs / b = qb at h ⊢
    constructor
    · intro heq
      have := h.mp (by omega)
      omega
    · intro hcond
      have := h.mpr (by omega)
      omega
  · have h := min_div_eq_iff (k := 127) (n := l.sum.natAbs) ha hab
    rw [if_neg hneg, if_neg hneg]
    generalize l.sum.natAbs / a = qa at h ⊢
    generalize l.sum.natAbs / b = qb at h ⊢
    constructor
    · intro heq
      have := h.mp (by omega)
      omega
    · intro hcond
      have := h.mpr (by omega)
      omega

/-- Every AVG command goes through the divider. -/
theorem reaches_avgDiv (hv : cmd.Valid) (hmode : cmd.poolMode = true) (hs : x.be.state = .idle)
    (hlog : x.log = []) : ∃ t, (poolBackend.run cmd (fun _ ↦ .all) x (t + 1)).be.state = .avgDiv := by
  by_contra hnever
  have hbefore : ∀ t, (poolBackend.run cmd (fun _ ↦ .all) x (t + 1)).be.state ∈
      [PoolState.loadCfg, .rd, .wait, .next] := by
    intro t
    induction t with
    | zero =>
        have hbe : x.be.step cmd true (rspOf .all x) = _ := step_accept hs
        rw [run_one, be_step, hbe]
        simp
    | succ t ih =>
        have hnext : (poolBackend.run cmd (fun _ ↦ .all) x (t + 1 + 1)).be.state ≠ .avgDiv :=
          fun h ↦ hnever ⟨t + 1, h⟩
        have hphase := (inv_run (fun _ ↦ .all) hv hs hlog t).phase
        have hm : (poolBackend.run cmd (fun _ ↦ .all) x (t + 1)).be.poolModeR = true := by
          rcases hphase with ⟨-, hl, -⟩ | ⟨-, he, -⟩ | ⟨-, he, -⟩ | ⟨-, he, -⟩ | ⟨hst, -⟩ |
            ⟨hst, -⟩ | ⟨hst, -⟩ | ⟨hst, -⟩
          · rw [hl.mode, hmode]
          · rw [he.loaded.mode, hmode]
          · rw [he.loaded.mode, hmode]
          · rw [he.loaded.mode, hmode]
          all_goals simp [hst] at ih
        rw [run_succ_succ, be_step] at hnext ⊢
        simp only [step, stateNext] at hnext ⊢
        simp only [List.mem_cons, List.not_mem_nil, or_false] at ih
        rcases ih with hst | hst | hst | hst <;> simp only [hst, hm] at hnext ⊢
        · simp
        · split <;> [skip; split] <;> simp
        · split <;> simp
        · split at hnext
          · simp at hnext
          · next hl => simp [hl]
  obtain ⟨T, hT, -⟩ := (performs hv fairGrants_all hs hlog).finish
  have hdone : (poolBackend.run cmd (fun _ ↦ .all) x T).be.state = .done := of_decide_eq_true hT
  cases T with
  | zero => exact absurd (hs.symm.trans hdone) (by simp)
  | succ T =>
      have := hbefore T
      simp [hdone] at this

theorem divDenomR_eq {t : ℕ} (hv : cmd.Valid) (hs : x.be.state = .idle) (hlog : x.log = [])
    (hst : (poolBackend.run cmd (fun _ ↦ .all) x (t + 1)).be.state = .avgDiv) :
    (poolBackend.run cmd (fun _ ↦ .all) x (t + 1)).be.divDenomR.toNat = cmd.codeArea := by
  rcases (inv_run (fun _ ↦ .all) hv hs hlog t).phase with ⟨hs', -⟩ | ⟨hs', -⟩ | ⟨hs', -⟩ |
    ⟨hs', -⟩ | ⟨-, -, -, -, -, hdiv⟩ | ⟨hs', -⟩ | ⟨hs', -⟩ | ⟨hs', -⟩
  case avgDiv => exact hdiv.denom
  all_goals exact absurd (hs'.symm.trans hst) (by simp)

/-- With a zero divisor no AVG command is right. -/
theorem AvgCorrect.codeArea_ne_zero (hv : cmd.Valid) (hmode : cmd.poolMode = true)
    (hs : x.be.state = .idle) (hlog : x.log = []) (h : AvgCorrect cmd x) : cmd.codeArea ≠ 0 := by
  obtain ⟨t, ht⟩ := reaches_avgDiv hv hmode hs hlog
  intro hzero
  refine h.divisor (t + 1) ht (BitVec.eq_of_toNat_eq ?_)
  rw [divDenomR_eq hv hs hlog ht, hzero]
  rfl

theorem codeVal_bounds (hmode : cmd.poolMode = true) (l : List ℤ) :
    -128 ≤ cmd.codeVal l ∧ cmd.codeVal l ≤ 127 := by
  rw [codeVal, if_pos hmode, codeAvg]
  split
  · split <;> omega
  · exact Signed.sat8_bounds _

/-- Two commands' write lists agree when all their values do. -/
theorem flatWrites_inj {m : BitVec 13 → Byte} {val val' : List ℤ → ℤ}
    (hb : ∀ l, -128 ≤ val l ∧ val l ≤ 127) (hb' : ∀ l, -128 ≤ val' l ∧ val' l ≤ 127)
    (h : cmd.flatWrites m val = cmd.flatWrites m val') :
    ∀ e < cmd.numOut, val (cmd.seen m e cmd.area) = val' (cmd.seen m e cmd.area) := by
  intro e he
  have hget := congrArg (fun l ↦ l[e]?) h
  simp only [flatWrites, List.getElem?_map, List.getElem?_range he, Option.map_some,
    Option.some.injEq, Prod.mk.injEq, true_and] at hget
  exact Signed.ofInt8_inj (hb _) (hb' _) hget

/-- In the small case the divisor is the area itself. -/
theorem codeVal_eq_avgOf (hv : cmd.Valid) (hmode : cmd.poolMode = true)
    (hsmall : cmd.poolR.toNat < 256 ∧ cmd.poolS.toNat < 256) : cmd.codeVal = avgOf cmd.area := by
  have harea := area_pos hv.looping
  funext l
  rw [codeVal, if_pos hmode, codeAvg, codeArea_eq hsmall.1 hsmall.2, if_neg (by omega)]

/-- With a truncated divisor the writes are right exactly when it serves every
window. -/
theorem flatWrites_codeVal_iff (hv : cmd.Valid) (hmode : cmd.poolMode = true)
    (hwide : ¬(cmd.poolR.toNat < 256 ∧ cmd.poolS.toNat < 256)) (hpos : 0 < cmd.codeArea)
    (m : BitVec 13 → Byte) :
    cmd.flatWrites m cmd.codeVal = cmd.flatWrites m (avgOf cmd.area) ↔
      ∀ oh < cmd.outH.toNat, ∀ ow < cmd.outW.toNat, ∀ c < cmd.inC.toNat,
        |(cmd.window m oh ow c).sum| < cmd.codeArea ∨
          127 * (cmd.area : ℤ) ≤ (cmd.window m oh ow c).sum ∨
          (cmd.window m oh ow c).sum ≤ -128 * (cmd.area : ℤ) := by
  have htwo := two_mul_codeArea_lt hv hwide
  have hval : ∀ l, cmd.codeVal l = avgOf cmd.codeArea l := fun l ↦ by
    rw [codeVal, if_pos hmode, codeAvg, if_neg (by omega)]
  rw [forall_window_iff cmd m fun l ↦ |l.sum| < cmd.codeArea ∨
    127 * (cmd.area : ℤ) ≤ l.sum ∨ l.sum ≤ -128 * (cmd.area : ℤ)]
  constructor
  · intro heq e he
    rw [← avgOf_eq_iff hpos htwo, ← hval]
    exact flatWrites_inj (codeVal_bounds hmode) (fun l ↦ Signed.sat8_bounds _) heq e he
  · intro hall
    rw [flatWrites, flatWrites]
    refine List.map_congr_left fun e he ↦ ?_
    rw [hval, (avgOf_eq_iff hpos htwo _).mpr (hall e (List.mem_range.mp he))]

theorem AreaServes.writes_eq {m : BitVec 13 → Byte} (h : AreaServes cmd m) (hv : cmd.Valid)
    (hmode : cmd.poolMode = true) :
    cmd.flatWrites m cmd.codeVal = cmd.writesOf m (avgOf cmd.area) := by
  rw [writesOf_eq]
  by_cases hsmall : cmd.poolR.toNat < 256 ∧ cmd.poolS.toNat < 256
  · rw [codeVal_eq_avgOf hv hmode hsmall]
  · obtain ⟨hne, hall⟩ := h.resolve_left hsmall
    exact (flatWrites_codeVal_iff hv hmode hsmall (Nat.pos_of_ne_zero hne) m).mpr hall

/-- In either mode, as long as the divisor of an average serves. -/
theorem writes_eq {m : BitVec 13 → Byte} (hv : cmd.Valid)
    (h : cmd.poolMode = true → AreaServes cmd m) : cmd.flatWrites m cmd.codeVal =
      cmd.writesOf m (if cmd.poolMode then avgOf cmd.area else maxOf) := by
  cases hmode : cmd.poolMode with
  | true => exact (h hmode).writes_eq hv hmode
  | false => rw [codeVal_eq_maxOf hmode, writesOf_eq]; rfl

end Avg

/-- An AVG command is right exactly when the truncated area serves all its
windows. -/
theorem avg_pool_correct_iff {cmd : PoolCmd} {x : Sys PoolCtrl} (hv : cmd.Valid)
    (hmode : cmd.poolMode = true) (hs : x.be.state = .idle) (hlog : x.log = []) :
    AvgCorrect cmd x ↔ AreaServes cmd x.mem.act := by
  have hperf := performs hv fairGrants_all hs hlog
  constructor
  · intro h
    by_cases hsmall : cmd.poolR.toNat < 256 ∧ cmd.poolS.toNat < 256
    · exact .inl hsmall
    · have hne := h.codeArea_ne_zero hv hmode hs hlog
      have heq := hperf.unique _ _ _ h.performs
      rw [writesOf_eq] at heq
      exact .inr ⟨hne, (flatWrites_codeVal_iff hv hmode hsmall (Nat.pos_of_ne_zero hne) _).mp heq⟩
  · intro h
    have harea := area_pos hv.looping
    have hne : cmd.codeArea ≠ 0 := by
      rcases h with hsmall | ⟨hne, -⟩
      · rw [codeArea_eq hsmall.1 hsmall.2]
        exact harea.ne'
      · exact hne
    rw [h.writes_eq hv hmode] at hperf
    refine ⟨hperf, ?_, fun t a ha ↦ frame hv hs hlog ha t, fun t ↦ wt_run poolBackend cmd _ x t, ?_⟩
    · rw [writesOf_eq]
      exact nodup_flatWrites hv _ _
    · intro t ht hzero
      cases t with
      | zero => exact absurd (hs.symm.trans ht) (by simp)
      | succ t =>
          have hden := divDenomR_eq hv hs hlog ht
          rw [hzero] at hden
          exact hne hden.symm

theorem avg_pool_correct_iff_padded :
    AvgCorrect (paddedCmd true 3) (.reset .reset (fun a ↦ a.setWidth 8) fun _ ↦ 0) ↔
      AreaServes (paddedCmd true 3) fun a ↦ a.setWidth 8 :=
  avg_pool_correct_iff
    (x := .reset .reset (fun a ↦ a.setWidth 8) fun _ ↦ 0) (by constructor <;> decide) rfl rfl rfl

/-- A window of 256 rows: its low byte, hence the divisor, is zero. -/
def wideCmd : PoolCmd where
  inAddr := 0
  outAddr := 4096
  inH := 256
  inW := 1
  inC := 1
  poolR := 256
  poolS := 1
  strideH := 1
  strideW := 1
  padH := 0
  padW := 0
  outH := 1
  outW := 1
  poolMode := true

theorem not_avgCorrect_wideCmd :
    wideCmd.Valid ∧ ¬AvgCorrect wideCmd (.reset .reset (fun _ ↦ 0) fun _ ↦ 0) := by
  have hv : wideCmd.Valid := by constructor <;> decide
  exact ⟨hv, fun h ↦ h.codeArea_ne_zero hv rfl rfl rfl rfl⟩

end PoolCtrl

end LgNpu
