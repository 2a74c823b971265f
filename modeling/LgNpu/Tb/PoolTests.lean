import LgNpu.Pool.Correct
import LgNpu.Tb.RowTests

/-!
# The test of the pooling kind

`ref_pool` over the integers, and `run_pool_test`: whatever the map, as long as
it fits, the device returns what the reference model computes.
-/

namespace LgNpu

open ForLoop NpuCore

namespace NpuTb

/-! ## The reference model -/

section Window

variable (input : List Byte) (H W C R S strideH strideW padH padW oh ow c : ℕ)

def poolElem (r s : ℕ) : Option ℤ :=
  if inMap H W (oh * strideH + r - padH) (ow * strideW + s - padW) then
    some (intAt input (pixel W C (oh * strideH + r - padH) (ow * strideW + s - padW) c))
  else none

/-- The elements of a window inside the map, in the order of the loops. -/
def poolWindow : List ℤ :=
  (List.range R).flatMap fun r ↦ (List.range S).filterMap
    (poolElem input H W C strideH strideW padH padW oh ow c r)

theorem poolWindow_bounds {v : ℤ}
    (h : v ∈ poolWindow input H W C R S strideH strideW padH padW oh ow c) :
    -128 ≤ v ∧ v ≤ 127 := by
  simp only [poolWindow, List.mem_flatMap, List.mem_filterMap, poolElem,
    Option.ite_none_right_eq_some, Option.some.injEq] at h
  obtain ⟨r, -, s, -, -, rfl⟩ := h
  exact intAt_bounds _ _

theorem length_poolWindow_le :
    (poolWindow input H W C R S strideH strideW padH padW oh ow c).length ≤ R * S := by
  have hrow : ∀ n ∈ (List.range R).map fun r ↦ ((List.range S).filterMap
      (poolElem input H W C strideH strideW padH padW oh ow c r)).length, n ≤ S := by
    intro n hn
    obtain ⟨r, -, rfl⟩ := List.mem_map.mp hn
    exact (List.length_filterMap_le _ _).trans_eq List.length_range
  have hsum := List.sum_le_card_nsmul _ S hrow
  rw [List.length_map, List.length_range, nsmul_eq_mul] at hsum
  rwa [poolWindow, List.length_flatMap]

def poolMax : Byte := loop R (-128 : Byte) fun r maxVal ↦ loop S maxVal fun s maxVal ↦
  if inMap H W (oh * strideH + r - padH) (ow * strideW + s - padW) then
    if maxVal.slt (input.getD (pixel W C (oh * strideH + r - padH) (ow * strideW + s - padW) c) 0)
    then input.getD (pixel W C (oh * strideH + r - padH) (ow * strideW + s - padW) c) 0
    else maxVal
  else maxVal

def poolSum : Acc := loop R (0 : Acc) fun r sum ↦ loop S sum fun s sum ↦
  if inMap H W (oh * strideH + r - padH) (ow * strideW + s - padW) then
    sum + int32At input (pixel W C (oh * strideH + r - padH) (ow * strideW + s - padW) c)
  else sum

theorem toInt_poolMax : (poolMax input H W C R S strideH strideW padH padW oh ow c).toInt =
    PoolCmd.maxOf (poolWindow input H W C R S strideH strideW padH padW oh ow c) := by
  have hmap : (poolMax input H W C R S strideH strideW padH padW oh ow c).toInt =
      loop R (-128 : ℤ) fun r mx ↦ loop S mx fun s mx ↦
        (poolElem input H W C strideH strideW padH padW oh ow c r s).elim mx (max mx) := by
    refine loop_map BitVec.toInt fun r _ mx ↦ loop_map BitVec.toInt fun s _ mx ↦ ?_
    rw [poolElem, BitVec.slt_eq_decide]
    cases inMap H W (oh * strideH + r - padH) (ow * strideW + s - padW) with
    | false => rfl
    | true =>
        simp only [if_true, decide_eq_true_eq, Option.elim_some, intAt]
        split
        · next hlt => rw [max_eq_right hlt.le]
        · next hge => rw [max_eq_left (not_lt.mp hge)]
  rw [hmap, loop_filterMap₂]
  rfl

theorem foldl_ofInt (l : List ℤ) (s : ℤ) :
    l.foldl (fun acc v ↦ acc + BitVec.ofInt 32 v) (.ofInt 32 s) = .ofInt 32 (s + l.sum) := by
  induction l generalizing s with
  | nil => simp
  | cons v l ih => rw [List.foldl_cons, ← BitVec.ofInt_add, ih, List.sum_cons, add_assoc]

theorem poolSum_eq : poolSum input H W C R S strideH strideW padH padW oh ow c =
    .ofInt 32 (poolWindow input H W C R S strideH strideW padH padW oh ow c).sum := by
  have hbody : poolSum input H W C R S strideH strideW padH padW oh ow c =
      loop R (0 : Acc) fun r sum ↦ loop S sum fun s sum ↦
        (poolElem input H W C strideH strideW padH padW oh ow c r s).elim sum
          fun v ↦ sum + .ofInt 32 v := by
    refine loop_congr fun r _ sum ↦ loop_congr fun s _ sum ↦ ?_
    rw [poolElem]
    cases inMap H W (oh * strideH + r - padH) (ow * strideW + s - padW) <;> rfl
  have hsum := foldl_ofInt (poolWindow input H W C R S strideH strideW padH padW oh ow c) 0
  rw [hbody, loop_filterMap₂]
  rwa [zero_add] at hsum

end Window

theorem abs_sum_le_length {l : List ℤ} (h : ∀ v ∈ l, -128 ≤ v ∧ v ≤ 127) :
    |l.sum| ≤ 128 * l.length := by
  induction l with
  | nil => simp
  | cons v l ih =>
      have hv := h v List.mem_cons_self
      have hrest := abs_le.mp (ih fun v hv ↦ h v (List.mem_cons_of_mem _ hv))
      rw [List.sum_cons, List.length_cons]
      push_cast
      exact abs_le.mpr ⟨by omega, by omega⟩

/-- The average of a window sum. -/
def poolAvg (area : ℕ) (sum : Acc) : Byte :=
  let neg := sum.slt 0
  let absSum := if neg then -sum else sum
  let quot := absSum / BitVec.ofNat 32 area
  let result := if neg then -quot else quot
  let result := if (127 : Acc).slt result then 127 else result
  let result := if result.slt (-128) then -128 else result
  result.setWidth 8

theorem poolAvg_eq {area : ℕ} (harea : area < 2 ^ 32) {v : ℤ} (hv : |v| < 2 ^ 31) :
    poolAvg area (.ofInt 32 v) = .ofInt 8 (Signed.sat8 (v.tdiv area)) := by
  obtain ⟨hlo, hhi⟩ := abs_lt.mp hv
  have hv' : (BitVec.ofInt 32 v).toInt = v := by
    rw [BitVec.toInt_ofInt, Signed.bmod_two_pow (w := 31) (by omega) (by omega)]
  have hneg : (BitVec.ofInt 32 v).slt 0 = (BitVec.ofInt 32 v).msb := by
    rw [BitVec.slt_eq_decide, Signed.msb_eq]
    rfl
  have hmsb : (BitVec.ofInt 32 v).msb = decide (v < 0) := by rw [Signed.msb_eq, hv']
  have hquot : ((if (BitVec.ofInt 32 v).msb then -BitVec.ofInt 32 v else .ofInt 32 v) /
      BitVec.ofNat 32 area).toNat = v.natAbs / area := by
    rw [BitVec.toNat_udiv, Signed.toNat_magnitude, hv', BitVec.toNat_ofNat, Nat.mod_eq_of_lt harea]
  have hsmall := Nat.div_le_self v.natAbs area
  have hresult := @Signed.toInt_restore 31 (BitVec.ofInt 32 v).msb _
    (hquot.trans_lt (hsmall.trans_lt (by omega)))
  rw [hquot, hmsb] at hresult
  simp only [decide_eq_true_eq] at hresult
  rw [poolAvg, hneg]
  refine (clamp_eq _).trans ?_
  rw [Signed.tdiv_natCast, ← hresult, hmsb]
  simp only [decide_eq_true_eq]

/-- Output element `e` of the reference. -/
def poolVal (poolMode area : ℕ) (l : List ℤ) : ℤ :=
  if poolMode = 0 then PoolCmd.maxOf l else PoolCmd.avgOf area l

theorem refPool_eq {input : List Byte} {H W C R S strideH strideW padH padW poolMode : ℕ}
    (harea : poolMode = 0 ∨ R * S < 2 ^ 24) :
    refPool input H W C R S strideH strideW padH padW poolMode =
      (List.range (outDim H padH R strideH * outDim W padW S strideW * C)).map fun e ↦
        .ofInt 8 (poolVal poolMode (R * S) (poolWindow input H W C R S strideH strideW padH padW
          (e / C / outDim W padW S strideW) (e / C % outDim W padW S strideW) (e % C))) := by
  have hmax : ∀ oh ow c, poolMax input H W C R S strideH strideW padH padW oh ow c =
      .ofInt 8 (PoolCmd.maxOf (poolWindow input H W C R S strideH strideW padH padW oh ow c)) := by
    intro oh ow c
    rw [← toInt_poolMax, BitVec.ofInt_toInt]
  have havg : R * S < 2 ^ 24 → ∀ oh ow c,
      poolAvg (R * S) (poolSum input H W C R S strideH strideW padH padW oh ow c) =
        .ofInt 8 (PoolCmd.avgOf (R * S)
          (poolWindow input H W C R S strideH strideW padH padW oh ow c)) := by
    intro harea oh ow c
    have hlen := length_poolWindow_le input H W C R S strideH strideW padH padW oh ow c
    have hsum := abs_sum_le_length fun v hv ↦
      poolWindow_bounds input H W C R S strideH strideW padH padW oh ow c hv
    rw [poolSum_eq]
    exact poolAvg_eq (by omega) (by omega)
  have hloop : refPool input H W C R S strideH strideW padH padW poolMode =
      loop (outDim H padH R strideH)
        (List.replicate (outDim H padH R strideH * outDim W padW S strideW * C) 0)
        fun oh out ↦ loop (outDim W padW S strideW) out fun ow out ↦ loop C out fun c out ↦
          out.set ((oh * outDim W padW S strideW + ow) * C + c) (.ofInt 8 (poolVal poolMode (R * S)
            (poolWindow input H W C R S strideH strideW padH padW oh ow c))) := by
    refine loop_congr fun oh _ out ↦ loop_congr fun ow _ out ↦ loop_congr fun c _ out ↦ ?_
    rw [poolVal]
    split
    · exact congrArg (out.set _) (hmax oh ow c)
    · next hmode => exact congrArg (out.set _) (havg (harea.resolve_left hmode) oh ow c)
  rw [hloop, loop_set₃ _ List.length_replicate]

/-! ## The test -/

structure PoolDesc where
  opcode : MmioData
  inAddr : MmioData
  outAddr : MmioData
  inH : MmioData
  inW : MmioData
  inC : MmioData
  poolR : MmioData
  poolS : MmioData
  strideH : MmioData
  strideW : MmioData
  padH : MmioData
  padW : MmioData
  outH : MmioData
  outW : MmioData
  poolMode : MmioData

def PoolDesc.toWords (d : PoolDesc) : NpuCmdDesc :=
  let oh := derivedDim d.inH d.padH d.poolR d.strideH d.outH
  let ow := derivedDim d.inW d.padW d.poolS d.strideW d.outW
  WriteLog.replay cmdClear
    [(0, d.opcode), (1, d.inAddr), (2, d.outAddr), (5, d.inH), (6, d.inW), (7, d.inC),
      (9, d.poolR), (10, d.poolS), (11, d.strideH), (12, d.strideW), (13, halvesWord d.padH oh),
      (14, halvesWord d.padW ow), (15, d.poolMode &&& 1)]

/-- The arguments of `run_pool_test`. -/
structure PoolTest where
  input : List Byte
  H : ℕ
  W : ℕ
  C : ℕ
  R : ℕ
  S : ℕ
  sh : ℕ
  sw : ℕ
  ph : ℕ
  pw : ℕ
  poolMode : ℕ
  inAddr : MmioData
  outAddr : MmioData

namespace PoolTest

variable (p : PoolTest)

def desc : PoolDesc where
  opcode := 6
  inAddr := p.inAddr
  outAddr := p.outAddr
  inH := .ofNat 32 p.H
  inW := .ofNat 32 p.W
  inC := .ofNat 32 p.C
  poolR := .ofNat 32 p.R
  poolS := .ofNat 32 p.S
  strideH := .ofNat 32 p.sh
  strideW := .ofNat 32 p.sw
  padH := .ofNat 32 p.ph
  padW := .ofNat 32 p.pw
  outH := 0
  outW := 0
  poolMode := .ofNat 32 p.poolMode

def OH : ℕ := outDim p.H p.ph p.R p.sh

def OW : ℕ := outDim p.W p.pw p.S p.sw

def run : Test where
  loads := rowLoads p.input p.inAddr p.desc.toWords
  outBase := actBase + p.outAddr
  expected := refPool p.input p.H p.W p.C p.R p.S p.sh p.sw p.ph p.pw p.poolMode

/-- A vector of the right size, a window that fits the padded map and whose area
does not overflow, both regions inside the buffer and apart, and for an average
sides the 8-bit divisor input can hold. -/
structure Fits : Prop where
  input : p.input.length = p.H * p.W * p.C
  hPos : 0 < p.H
  wPos : 0 < p.W
  cPos : 0 < p.C
  rPos : 0 < p.R
  sPos : 0 < p.S
  rows : p.R ≤ p.H + 2 * p.ph
  cols : p.S ≤ p.W + 2 * p.pw
  filt : p.R < 2 ^ 16 ∧ p.S < 2 ^ 16 ∧ p.R * p.S < 2 ^ 31
  sh : 0 < p.sh ∧ p.sh < 2 ^ 16
  sw : 0 < p.sw ∧ p.sw < 2 ^ 16
  ph : p.ph < 2 ^ 16
  pw : p.pw < 2 ^ 16
  poolMode : p.poolMode = 0 ∨ p.poolMode = 1 ∧ p.R < 256 ∧ p.S < 256
  inRange : p.inAddr.toNat + p.H * p.W * p.C ≤ 8192
  outRange : p.outAddr.toNat + p.OH * p.OW * p.C ≤ 8192
  regions : p.inAddr.toNat + p.H * p.W * p.C ≤ p.outAddr.toNat ∨
    p.outAddr.toNat + p.OH * p.OW * p.C ≤ p.inAddr.toNat

/-- The command the words encode. -/
def cmd : PoolCmd where
  inAddr := p.inAddr.setWidth 16
  outAddr := p.outAddr.setWidth 16
  inH := (BitVec.ofNat 32 p.H).setWidth 16
  inW := (BitVec.ofNat 32 p.W).setWidth 16
  inC := (BitVec.ofNat 32 p.C).setWidth 16
  poolR := (BitVec.ofNat 32 p.R).setWidth 16
  poolS := (BitVec.ofNat 32 p.S).setWidth 16
  strideH := (BitVec.ofNat 32 p.sh).setWidth 16
  strideW := (BitVec.ofNat 32 p.sw).setWidth 16
  padH := (BitVec.ofNat 32 p.ph).setWidth 16
  padW := (BitVec.ofNat 32 p.pw).setWidth 16
  outH := (derivedDim (.ofNat 32 p.H) (.ofNat 32 p.ph) (.ofNat 32 p.R) (.ofNat 32 p.sh)
    0).setWidth 16
  outW := (derivedDim (.ofNat 32 p.W) (.ofNat 32 p.pw) (.ofNat 32 p.S) (.ofNat 32 p.sw)
    0).setWidth 16
  poolMode := (BitVec.ofNat 32 p.poolMode).getLsbD 0

theorem convToPoolCmd_toWords : convToPoolCmd (packCmd p.desc.toWords) = p.cmd := by
  simp [packCmd, convToPoolCmd, PoolDesc.toWords, desc, cmd, Function.update,
    -BitVec.getLsbD_eq_getElem, BitVec.getLsbD_ofNat]

variable {p}

section Fits

variable (h : p.Fits)
include h

theorem Fits.oh_eq : p.OH = (p.H + 2 * p.ph - p.R) / p.sh + 1 := outDim_eq h.rows

theorem Fits.ow_eq : p.OW = (p.W + 2 * p.pw - p.S) / p.sw + 1 := outDim_eq h.cols

theorem Fits.out_pos : 0 < p.OH ∧ 0 < p.OW := by
  rw [h.oh_eq, h.ow_eq]
  exact ⟨Nat.succ_pos _, Nat.succ_pos _⟩

theorem Fits.dims_le : p.H ≤ 8192 ∧ p.W ≤ 8192 ∧ p.C ≤ 8192 :=
  factors_le h.hPos h.wPos h.cPos (by have := h.inRange; omega)

theorem Fits.out_le : p.OH ≤ 8192 ∧ p.OW ≤ 8192 ∧ p.C ≤ 8192 :=
  factors_le h.out_pos.1 h.out_pos.2 h.cPos (by have := h.outRange; omega)

theorem Fits.inH : p.cmd.inH.toNat = p.H := toNat_dim (by have := h.dims_le; omega)

theorem Fits.inW : p.cmd.inW.toNat = p.W := toNat_dim (by have := h.dims_le; omega)

theorem Fits.inC : p.cmd.inC.toNat = p.C := toNat_dim (by have := h.dims_le; omega)

theorem Fits.poolR : p.cmd.poolR.toNat = p.R := toNat_dim h.filt.1

theorem Fits.poolS : p.cmd.poolS.toNat = p.S := toNat_dim h.filt.2.1

theorem Fits.strideH : p.cmd.strideH.toNat = p.sh := toNat_dim h.sh.2

theorem Fits.strideW : p.cmd.strideW.toNat = p.sw := toNat_dim h.sw.2

theorem Fits.padH : p.cmd.padH.toNat = p.ph := toNat_dim h.ph

theorem Fits.padW : p.cmd.padW.toNat = p.pw := toNat_dim h.pw

theorem Fits.outH : p.cmd.outH.toNat = p.OH := by
  have hle := h.out_le
  have hdim := toNat_derivedDim (by have := h.dims_le; omega) h.ph h.rows h.sh.1 h.sh.2
  exact (toNat_addr (by rw [hdim, ← OH]; omega)).trans hdim

theorem Fits.outW : p.cmd.outW.toNat = p.OW := by
  have hle := h.out_le
  have hdim := toNat_derivedDim (by have := h.dims_le; omega) h.pw h.cols h.sw.1 h.sw.2
  exact (toNat_addr (by rw [hdim, ← OW]; omega)).trans hdim

theorem Fits.cmd_inAddr : p.cmd.inAddr.toNat = p.inAddr.toNat :=
  toNat_addr (by have := h.inRange; omega)

theorem Fits.cmd_outAddr : p.cmd.outAddr.toNat = p.outAddr.toNat :=
  toNat_addr (by have := h.outRange; omega)

theorem Fits.valid : p.cmd.Valid where
  inH_pos := h.inH ▸ h.hPos
  inW_pos := h.inW ▸ h.wPos
  inC_pos := h.inC ▸ h.cPos
  poolR_pos := h.poolR ▸ h.rPos
  poolS_pos := h.poolS ▸ h.sPos
  strideH_pos := h.strideH ▸ h.sh.1
  strideW_pos := h.strideW ▸ h.sw.1
  outH_pos := h.outH ▸ h.out_pos.1
  outW_pos := h.outW ▸ h.out_pos.2
  fitH := by
    rw [h.outH, h.strideH, h.poolR, h.inH, h.padH, h.oh_eq, Nat.add_sub_cancel]
    have hle := Nat.div_mul_le_self (p.H + 2 * p.ph - p.R) p.sh
    have hrows := h.rows
    omega
  fitW := by
    rw [h.outW, h.strideW, h.poolS, h.inW, h.padW, h.ow_eq, Nat.add_sub_cancel]
    have hle := Nat.div_mul_le_self (p.W + 2 * p.pw - p.S) p.sw
    have hcols := h.cols
    omega
  inRange := by
    rw [h.cmd_inAddr, h.inH, h.inW, h.inC]
    exact h.inRange
  outRange := by
    rw [h.cmd_outAddr, h.outH, h.outW, h.inC]
    exact h.outRange
  disjoint := by
    rw [h.cmd_inAddr, h.cmd_outAddr, h.inH, h.inW, h.inC, h.outH, h.outW]
    exact h.regions

theorem Fits.mode_eq : p.cmd.poolMode = decide (p.poolMode ≠ 0) := by
  rw [cmd]
  rcases h.poolMode with hmode | ⟨hmode, -⟩ <;> rw [hmode] <;> rfl

theorem Fits.val_eq (l : List ℤ) :
    (if p.cmd.poolMode then PoolCmd.avgOf p.cmd.area else PoolCmd.maxOf) l =
      poolVal p.poolMode (p.R * p.S) l := by
  rw [poolVal, h.mode_eq, PoolCmd.area, h.poolR, h.poolS]
  by_cases hmode : p.poolMode = 0 <;> simp [hmode]

theorem Fits.served (act : BitVec 13 → Byte) (hmode : p.cmd.poolMode = true) :
    PoolCtrl.AreaServes p.cmd act := by
  rw [h.mode_eq, decide_eq_true_eq] at hmode
  obtain ⟨-, hR, hS⟩ := h.poolMode.resolve_left hmode
  exact .inl ⟨by rwa [h.poolR], by rwa [h.poolS]⟩

/-- On the loaded map the command sees the windows of the reference. -/
theorem Fits.window_eq {act : BitVec 13 → Byte}
    (hact : Region.Holds act p.inAddr.toNat (p.H * p.W * p.C) fun i ↦ p.input.getD i 0)
    (oh ow : ℕ) {c : ℕ} (hc : c < p.C) : p.cmd.window act oh ow c =
      poolWindow p.input p.H p.W p.C p.R p.S p.sh p.sw p.ph p.pw oh ow c := by
  have helem : ∀ r s, p.cmd.elem act oh ow c r s =
      poolElem p.input p.H p.W p.C p.sh p.sw p.ph p.pw oh ow c r s := by
    intro r s
    have hih : p.cmd.ih oh r = oh * p.sh + r - p.ph := by
      rw [PoolCmd.ih, h.strideH, h.padH]
    have hiw : p.cmd.iw ow s = ow * p.sw + s - p.pw := by
      rw [PoolCmd.iw, h.strideW, h.padW]
    rw [PoolCmd.elem, poolElem, hih, hiw]
    generalize (oh * p.sh + r - p.ph : ℤ) = ih
    generalize (ow * p.sw + s - p.pw : ℤ) = iw
    by_cases hin : p.cmd.InMap ih iw
    · obtain ⟨⟨hi0, hi⟩, hj0, hj⟩ := hin
      rw [h.inH] at hi
      rw [h.inW] at hj
      have hmap : inMap p.H p.W ih iw = true := by simp [inMap, hi0, hi, hj0, hj]
      lift ih to ℕ using hi0
      lift iw to ℕ using hj0
      have hpix : ih * p.W + iw < p.H * p.W := LoopNest.join_lt (by omega) (by omega)
      rw [if_pos ⟨⟨by omega, by rw [h.inH]; omega⟩, by omega, by rw [h.inW]; omega⟩, hmap,
        if_pos rfl, PoolCmd.inIdx, h.cmd_inAddr, h.inW, h.inC, Nat.add_assoc]
      exact congrArg (some ∘ BitVec.toInt) (hact _ (LoopNest.join_lt hpix hc))
    · have hmap : inMap p.H p.W ih iw = false := by
        rw [PoolCmd.InMap, h.inH, h.inW] at hin
        simp only [inMap, Bool.and_eq_false_iff, decide_eq_false_iff_not]
        tauto
      rw [if_neg hin, hmap, if_neg Bool.false_ne_true]
  rw [PoolCmd.window, poolWindow, h.poolR, h.poolS]
  exact List.flatMap_congr fun r _ ↦ List.filterMap_congr fun s _ ↦ helem r s

/-- The writes of the command, element by element. -/
theorem Fits.writes_eq {act : BitVec 13 → Byte}
    (hact : Region.Holds act p.inAddr.toNat (p.H * p.W * p.C) fun i ↦ p.input.getD i 0)
    (val : List ℤ → ℤ) : p.cmd.writesOf act val = (List.range (p.OH * p.OW * p.C)).map fun e ↦
      (.ofNat 16 (p.outAddr.toNat + e), .ofInt 8 (val (poolWindow p.input p.H p.W p.C p.R p.S
        p.sh p.sw p.ph p.pw (e / p.C / p.OW) (e / p.C % p.OW) (e % p.C)))) := by
  rw [PoolCmd.writesOf_eq, PoolCmd.flatWrites, PoolCmd.numOut, h.outH, h.outW, h.inC, h.cmd_outAddr]
  refine List.map_congr_left fun e _ ↦ ?_
  have hwindow := p.cmd.window_eq_seen act e
  rw [h.inC, h.outW, h.window_eq hact _ _ (Nat.mod_lt _ h.cPos)] at hwindow
  rw [hwindow]

end Fits

end PoolTest

theorem pool_test_passes {p : PoolTest} (h : p.Fits) {env : ℕ → DeviceIn} {x : Watched} {a : Ideal}
    (hx : x.Rest a) (hq : 9 ≤ x.quiet) (henv : ∀ t, (env t).host.polls = true) :
    ∃ W, ∀ w, W ≤ w → p.run.Passes env w x := by
  have hin : p.inAddr.toNat + p.input.length ≤ 8192 := by rw [h.input]; exact h.inRange
  obtain ⟨hwords, hact⟩ := @after_rowLoads _ _ p.desc.toWords hin a
  rw [h.input] at hact
  have harea : p.poolMode = 0 ∨ p.R * p.S < 2 ^ 24 := by
    refine h.poolMode.imp_right fun ⟨_, hR, hS⟩ ↦ ?_
    have hle := Nat.mul_le_mul (Nat.le_of_lt_succ hR) (Nat.le_of_lt_succ hS)
    omega
  refine Test.passes_of_table (b := .pool) hx hq henv (loads_rowLoads hin) hwords rfl
    p.convToPoolCmd_toWords h.valid (h.served _) rfl h.outRange (h.writes_eq hact _)
    (refPool_eq harea) fun e _ ↦ ?_
  rw [h.val_eq]
  rfl

/-- The average of two pixels. -/
def twoPixels : PoolTest := ⟨[3, 8], 1, 2, 1, 1, 2, 1, 1, 0, 0, 1, 0, 64⟩

theorem pool_test_passes_two : twoPixels.run.expected = [5] ∧
    ∃ W, ∀ w, W ≤ w → twoPixels.run.Passes quietEnv w
      ⟨.reset (fun _ ↦ 0) (fun _ ↦ 0) (fun _ ↦ 0) fun _ ↦ 0, 0, 9⟩ := by
  refine ⟨by decide, pool_test_passes ⟨?_, ?_, ?_, ?_, ?_, ?_, ?_, ?_, ?_, ?_, ?_, ?_, ?_, ?_, ?_,
    ?_, ?_⟩ (Watched.rest_reset _ _ _ _ _) le_rfl fun _ ↦ rfl⟩ <;> decide

end NpuTb

end LgNpu
