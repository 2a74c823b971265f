import LgNpu.Lib.Clocked
import LgNpu.Lib.SerialArith
import LgNpu.Lnorm.Ctrl
import LgNpu.Pool.Ctrl

/-!
# The serial divider and square root in their controllers

A division takes `lnorm_ctrl` and `pool_ctrl` 32 cycles and a square root takes
`lnorm_ctrl` 16, whatever their other ports do.  The registers then hold the
exact results, and no shift on the way drops a bit.
-/

namespace LgNpu

open SerialArith Clocked

/-! ## Division -/

structure SerialDivider (σ τ : Type) where
  state : σ → τ
  divR : σ → DivRegs 32
  divDenomR : σ → BitVec 32
  divCntR : σ → BitVec 5

namespace SerialDivider

variable {σ τ : Type} (c : SerialDivider σ τ) (step : ℕ → σ → σ) (st exit : τ)

/-- In state `st` the divider runs; it gives way to `exit`. -/
structure Runs : Prop extends Paced step c.state c.divCntR st exit where
  divR_step : ∀ t s, c.state s = st → c.divR (step t s) = (c.divR s).next (c.divDenomR s)
  denom_step : ∀ t s, c.state s = st → c.divDenomR (step t s) = c.divDenomR s

/-- The division of `n` begins; denominators have 16 bits. -/
structure Loaded (n : BitVec 32) (s : σ) : Prop where
  state : c.state s = st
  divR : c.divR s = ⟨n, 0⟩
  cnt : c.divCntR s = 31
  pos : 0 < (c.divDenomR s).toNat
  le : (c.divDenomR s).toNat ≤ 65535

/-- The division of `n` by `d`, from `s` on. -/
structure Divides (s : σ) (n d : ℕ) : Prop where
  busy : ∀ k < 32, c.state (run step s k) = st
  ends : c.state (run step s 32) = exit
  quot : (c.divR (run step s 32)).quot.toNat = n / d
  rem : (c.divR (run step s 32)).rem.toNat = n % d
  /-- What is read off the last step itself, a cycle before the registers have it. -/
  last : ((c.divR (run step s 31)).next (c.divDenomR (run step s 31))).quot.toNat = n / d
  rem_lt : ∀ k ≤ 32, (c.divR (run step s k)).rem.toNat < d
  /-- The bit that leaves the remainder is zero. -/
  lossless : ∀ k < 32, (divTrial (c.divR (run step s k))).toNat =
    2 * (c.divR (run step s k)).rem.toNat + (c.divR (run step s k)).quot.msb.toNat

variable {c step st exit} {s : σ} {n : BitVec 32}

theorem Runs.divides (h : c.Runs step st exit) (hs : c.Loaded st n s) :
    c.Divides step st exit s n.toNat (c.divDenomR s).toNat := by
  have hcnt : (c.divCntR s).toNat = 31 := congrArg BitVec.toNat hs.cnt
  have hhalf : (c.divDenomR s).toNat ≤ 2 ^ (32 - 1) := hs.le.trans (by decide)
  have hinv : ∀ k ≤ 32, DivInv n.toNat (c.divDenomR s).toNat k (32 - k) (c.divR (run step s k)) ∧
      c.divDenomR (run step s k) = c.divDenomR s := by
    intro k hk
    refine h.induction hs.state (fun k x ↦ DivInv n.toNat (c.divDenomR s).toNat k (32 - k)
      (c.divR x) ∧ c.divDenomR x = c.divDenomR s) ⟨?_, rfl⟩ ?_ (by omega)
    · rw [hs.divR]
      exact DivInv.init _
    · rintro k x hk hx ⟨hI, hdenom⟩
      refine ⟨?_, (h.denom_step k x hx).trans hdenom⟩
      rw [h.divR_step k x hx]
      exact hI.advance n.isLt (congrArg BitVec.toNat hdenom) hs.pos hhalf (by omega)
  have hbusy : ∀ k < 32, c.state (run step s k) = st := fun k hk ↦
    (h.counting hs.state (by omega)).1
  have hfinal := (hinv 32 le_rfl).1.final
  refine ⟨hbusy, ?_, hfinal.1, hfinal.2, ?_, fun k hk ↦ (hinv k hk).1.rem_lt hs.pos,
    fun k hk ↦ (hinv k hk.le).1.trial_eq (by decide) hs.pos hhalf⟩
  · have hleft := h.left hs.state
    rwa [hcnt] at hleft
  · rw [← h.divR_step 31 _ (hbusy 31 (by decide))]
    exact hfinal.1

end SerialDivider

theorem toNat_denom_le (d : Dim) : (d.setWidth 32).toNat ≤ 65535 := by
  rw [BitVec.toNat_setWidth_of_le (by decide)]
  exact Nat.le_of_lt_succ d.isLt

namespace LnormCtrl

def clock (ins : ℕ → LnormCmd × Bool × BeRsp) (t : ℕ) (s : LnormCtrl) : LnormCtrl :=
  s.step (ins t).1 (ins t).2.1 (ins t).2.2

def divider : SerialDivider LnormCtrl LnormState where
  state := state
  divR := divR
  divDenomR := divDenomR
  divCntR := divCntR

/-- The dividing states and what follows them. -/
inductive Division : LnormState → LnormState → Prop
  | mean : Division .meanDiv .varRd
  | var : Division .varDiv .sqrt
  | norm : Division .normDiv .normWr

variable {s : LnormCtrl} {st exit : LnormState}

theorem Division.step (h : Division st exit) (ins : ℕ → LnormCmd × Bool × BeRsp) (t : ℕ)
    (hs : s.state = st) :
    (clock ins t s).state = (if s.divCntR = 0 then exit else st) ∧
      (clock ins t s).divR = s.divR.next s.divDenomR ∧
      (clock ins t s).divDenomR = s.divDenomR ∧ (clock ins t s).divCntR = s.divCntR - 1 := by
  cases h with
  | mean => simp [clock, step_meanDiv hs]
  | var => simp [clock, step_varDiv hs]
  | norm => simp [clock, step_normDiv hs]

theorem Division.runs (h : Division st exit) (ins : ℕ → LnormCmd × Bool × BeRsp) :
    divider.Runs (clock ins) st exit where
  state_step t _ hs := (h.step ins t hs).1
  divR_step t _ hs := (h.step ins t hs).2.1
  denom_step t _ hs := (h.step ins t hs).2.2.1
  cnt_step t _ hs := (h.step ins t hs).2.2.2

/-- Each division begins this way, unless its denominator is zero. -/
theorem divStart_loads {cmd : LnormCmd} {v : Bool} {rsp : BeRsp} (h : s.divStart rsp)
    (hd : 0 < (s.step cmd v rsp).divDenomR.toNat) :
    ∃ st exit n, Division st exit ∧ divider.Loaded st n (s.step cmd v rsp) := by
  rcases h with ⟨⟨hs | hs, hv⟩, hl⟩ | ⟨hs, hv⟩
  · rw [step_sumWait_last hs hv hl] at hd ⊢
    exact ⟨_, _, _, .mean, rfl, rfl, rfl, hd, toNat_denom_le s.rowLenR⟩
  · rw [step_varWait_last hs hv hl] at hd ⊢
    exact ⟨_, _, _, .var, rfl, rfl, rfl, hd, toNat_denom_le s.rowLenR⟩
  · rw [step_normWait hs hv] at hd ⊢
    exact ⟨_, _, _, .norm, rfl, rfl, rfl, hd, toNat_denom_le s.stdR⟩

end LnormCtrl

namespace PoolCtrl

def clock (ins : ℕ → PoolCmd × Bool × BeRsp) (t : ℕ) (s : PoolCtrl) : PoolCtrl :=
  s.step (ins t).1 (ins t).2.1 (ins t).2.2

def divider : SerialDivider PoolCtrl PoolState where
  state := state
  divR := divR
  divDenomR := divDenomR
  divCntR := divCntR

variable {s : PoolCtrl}

theorem avgDiv_step (ins : ℕ → PoolCmd × Bool × BeRsp) (t : ℕ) (hs : s.state = .avgDiv) :
    (clock ins t s).state = (if s.divCntR = 0 then .wr else .avgDiv) ∧
      (clock ins t s).divR = s.divR.next s.divDenomR ∧
      (clock ins t s).divDenomR = s.divDenomR ∧ (clock ins t s).divCntR = s.divCntR - 1 := by
  simp [clock, step_avgDiv hs]

theorem avgDiv_runs (ins : ℕ → PoolCmd × Bool × BeRsp) :
    divider.Runs (clock ins) .avgDiv .wr where
  state_step t _ hs := (avgDiv_step ins t hs).1
  divR_step t _ hs := (avgDiv_step ins t hs).2.1
  denom_step t _ hs := (avgDiv_step ins t hs).2.2.1
  cnt_step t _ hs := (avgDiv_step ins t hs).2.2.2

theorem avg_loads {cmd : PoolCmd} {v : Bool} {rsp : BeRsp} (hs : s.state = .next)
    (hl : s.lastInnerW = true) (hm : s.poolModeR = true)
    (hd : 0 < (s.step cmd v rsp).divDenomR.toNat) :
    ∃ n, divider.Loaded .avgDiv n (s.step cmd v rsp) := by
  rw [step_next_avg hs hl hm] at hd ⊢
  exact ⟨_, rfl, rfl, rfl, hd, toNat_denom_le s.poolAreaR⟩

end PoolCtrl

/-- The divider loop of either controller is exact and takes 32 cycles. -/
theorem serial_divider :
    (∀ (ins : ℕ → LnormCmd × Bool × BeRsp) (st exit : LnormState), LnormCtrl.Division st exit →
      ∀ (s : LnormCtrl) (n : BitVec 32), LnormCtrl.divider.Loaded st n s →
        LnormCtrl.divider.Divides (LnormCtrl.clock ins) st exit s n.toNat s.divDenomR.toNat) ∧
    ∀ (ins : ℕ → PoolCmd × Bool × BeRsp) (s : PoolCtrl) (n : BitVec 32),
      PoolCtrl.divider.Loaded .avgDiv n s →
        PoolCtrl.divider.Divides (PoolCtrl.clock ins) .avgDiv .wr s n.toNat s.divDenomR.toNat :=
  ⟨fun ins _ _ hdiv _ _ hs ↦ (hdiv.runs ins).divides hs,
    fun ins _ _ hs ↦ (PoolCtrl.avgDiv_runs ins).divides hs⟩

/-- The largest numerator over the largest and the smallest denominator. -/
theorem serial_divider_largest :
    (∃ s : LnormCtrl, ∀ ins, (run (LnormCtrl.clock ins) s 32).divR.quot = 65537) ∧
      ∃ s : PoolCtrl, ∀ ins, (run (PoolCtrl.clock ins) s 32).divR.quot = 0xFFFFFFFF := by
  constructor
  · let s : LnormCtrl := { LnormCtrl.reset with
      state := .meanDiv, divR := ⟨0xFFFFFFFF, 0⟩, divDenomR := 65535, divCntR := 31 }
    have hs : LnormCtrl.divider.Loaded .meanDiv 0xFFFFFFFF s :=
      ⟨rfl, rfl, rfl, by decide, by decide⟩
    refine ⟨s, fun ins ↦ BitVec.eq_of_toNat_eq ?_⟩
    exact (serial_divider.1 ins _ _ .mean s _ hs).quot.trans (by simp [s])
  · let s : PoolCtrl := { PoolCtrl.reset with
      state := .avgDiv, divR := ⟨0xFFFFFFFF, 0⟩, divDenomR := 1, divCntR := 31 }
    have hs : PoolCtrl.divider.Loaded .avgDiv 0xFFFFFFFF s :=
      ⟨rfl, rfl, rfl, by decide, by decide⟩
    refine ⟨s, fun ins ↦ BitVec.eq_of_toNat_eq ?_⟩
    exact (serial_divider.2 ins s _ hs).quot.trans (by simp [s])

/-! ## Square root -/

namespace LnormCtrl

variable {s : LnormCtrl} {x : BitVec 32}

structure RootLoaded (x : BitVec 32) (s : LnormCtrl) : Prop where
  state : s.state = .sqrt
  sqrtR : s.sqrtR = ⟨x, 0, 0⟩
  cnt : s.sqrtCntR = 15

/-- The square root of `n`, from `s` on. -/
structure Roots (step : ℕ → LnormCtrl → LnormCtrl) (s : LnormCtrl) (n : ℕ) : Prop where
  busy : ∀ k < 16, (run step s k).state = .sqrt
  ends : (run step s 16).state = .normRd
  result : (run step s 16).sqrtR.result.toNat = Nat.sqrt n
  rem : (run step s 16).sqrtR.rem.toNat = n - Nat.sqrt n ^ 2
  std : (run step s 16).stdR.toNat = max 1 (Nat.sqrt n)
  /-- The bits that leave the remainder and the result are zero. -/
  rem_lt : ∀ k < 16, (run step s k).sqrtR.rem.toNat < 2 ^ 30
  result_lt : ∀ k < 16, (run step s k).sqrtR.result.toNat < 2 ^ 15
  shifted : ∀ k < 16, (sqrtRemShifted (run step s k).sqrtR).toNat =
    4 * (run step s k).sqrtR.rem.toNat + (run step s k).sqrtR.input.toNat / 2 ^ 30
  trial : ∀ k < 16, (sqrtTrial (run step s k).sqrtR).toNat =
    4 * (run step s k).sqrtR.result.toNat + 1

theorem sqrt_step (ins : ℕ → LnormCmd × Bool × BeRsp) (t : ℕ) (hs : s.state = .sqrt) :
    (clock ins t s).state = (if s.sqrtCntR = 0 then .normRd else .sqrt) ∧
      (clock ins t s).sqrtR = s.sqrtR.next ∧ (clock ins t s).sqrtCntR = s.sqrtCntR - 1 := by
  simp [clock, step_sqrt hs]

theorem sqrt_paced (ins : ℕ → LnormCmd × Bool × BeRsp) :
    Paced (clock ins) state sqrtCntR .sqrt .normRd where
  state_step t _ hs := (sqrt_step ins t hs).1
  cnt_step t _ hs := (sqrt_step ins t hs).2.2

/-- The root captured in the last cycle is at least one. -/
theorem std_captured (ins : ℕ → LnormCmd × Bool × BeRsp) (t : ℕ) (hs : s.state = .sqrt)
    (hcnt : s.sqrtCntR = 0) :
    (clock ins t s).stdR.toNat = max 1 (clock ins t s).sqrtR.result.toNat := by
  rw [clock, step_sqrt hs]
  simp only [hcnt, if_true]
  split
  · next hzero => simp [hzero]
  · next hne =>
      have hpos : s.sqrtR.next.result.toNat ≠ 0 := fun hzero ↦ hne (BitVec.eq_of_toNat_eq hzero)
      omega

/-- The end of the variance division begins the square root. -/
theorem varDiv_loads {cmd : LnormCmd} {v : Bool} {rsp : BeRsp} (hs : s.state = .varDiv)
    (hcnt : s.divCntR = 0) :
    RootLoaded ((s.divR.next s.divDenomR).quot + 1) (s.step cmd v rsp) := by
  rw [step_varDiv hs]
  exact ⟨if_pos hcnt, if_pos hcnt, if_pos hcnt⟩

theorem RootLoaded.inv (hs : RootLoaded x s) (ins : ℕ → LnormCmd × Bool × BeRsp) {k : ℕ}
    (hk : k ≤ 16) : SqrtInv x.toNat k (16 - k) (run (clock ins) s k).sqrtR := by
  have hcnt : s.sqrtCntR.toNat = 15 := congrArg BitVec.toNat hs.cnt
  refine (sqrt_paced ins).induction hs.state
    (fun k x' ↦ SqrtInv x.toNat k (16 - k) x'.sqrtR) ?_ ?_ (by omega)
  · rw [hs.sqrtR]
    exact SqrtInv.init
  · intro k x' hk hx' hI
    rw [(sqrt_step ins k hx').2.1]
    exact hI.advance x.isLt (by decide) (by omega)

/-- The square-root loop is exact and takes 16 cycles. -/
theorem serial_sqrt (hs : RootLoaded x s) (ins : ℕ → LnormCmd × Bool × BeRsp) :
    Roots (clock ins) s x.toNat := by
  have h := sqrt_paced ins
  have hcnt : s.sqrtCntR.toNat = 15 := congrArg BitVec.toNat hs.cnt
  have hbusy : ∀ k < 16, (run (clock ins) s k).state = .sqrt := fun k hk ↦
    (h.counting hs.state (by omega)).1
  have hlow : ∀ k < 16, (run (clock ins) s k).sqrtR.result.toNat < 2 ^ 15 := fun k hk ↦
    ((hs.inv ins hk.le).result_lt x.isLt).trans_le (Nat.pow_le_pow_right (by decide) (by omega))
  have hfinal := (hs.inv ins le_rfl).final
  have hleft := h.left hs.state
  have hlast := h.last hs.state
  rw [hcnt] at hleft hlast
  refine ⟨hbusy, hleft, hfinal.1, hfinal.2, ?_, ?_, hlow, ?_, ?_⟩
  · have hstd := std_captured ins 15 (hbusy 15 (by decide)) hlast
    exact hstd.trans (congrArg (max 1) hfinal.1)
  · intro k hk
    have hle := (hs.inv ins hk.le).rem_le
    have hlt := hlow k hk
    omega
  · intro k hk
    exact toNat_sqrtRemShifted (by decide) ((hs.inv ins hk.le).fits x.isLt (by decide) hk).1
  · intro k hk
    exact toNat_sqrtTrial ((hs.inv ins hk.le).fits x.isLt (by decide) hk).2

theorem serial_sqrt_largest : ∃ s, ∀ ins, (run (clock ins) s 16).stdR = 65535 := by
  let s : LnormCtrl :=
    { reset with state := .sqrt, sqrtR := ⟨0xFFFFFFFF, 0, 0⟩, sqrtCntR := 15 }
  have hs : RootLoaded 0xFFFFFFFF s := ⟨rfl, rfl, rfl⟩
  have hroot : Nat.sqrt 0xFFFFFFFF = 65535 := (Nat.eq_sqrt.mpr (by decide)).symm
  refine ⟨s, fun ins ↦ BitVec.eq_of_toNat_eq ((serial_sqrt hs ins).std.trans ?_)⟩
  exact congrArg (max 1) hroot

end LnormCtrl

end LgNpu
