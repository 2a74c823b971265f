import LgNpu.Tb.Mac
import LgNpu.Tb.Programs

/-!
# The tests of the MAC kind

`run_gemm_test` and `run_conv_test`: whatever the operands, as long as they fit,
the device returns what the reference models compute.
-/

namespace LgNpu

open ForLoop NpuCore

namespace NpuTb

/-! ## Words and loads both tests share -/

/-- `(quant_shift & 0x1F) | ((act_mode & 0x3) << 5)`. -/
def quantWord (quantShift actMode : MmioData) : MmioData :=
  quantShift &&& 0x1F ||| (actMode &&& 0x3) <<< 5

@[simp] theorem quantWord_shift (q a : MmioData) :
    (quantWord q a).setWidth 5 = q.setWidth 5 := by
  ext i hi
  interval_cases i <;> simp [quantWord]

@[simp] theorem quantWord_act (q a : MmioData) :
    (quantWord q a).extractLsb' 5 2 = a.setWidth 2 := by
  ext i hi
  interval_cases i <;> simp [quantWord, BitVec.getElem_extractLsb']

/-- `K` zeros stand in for a bias that is not supplied. -/
def biasLoads (base : MmioData) (bias : List Byte) (n : ℕ) : List Mmio :=
  if bias.isEmpty then (List.range n).map fun i ↦ mmioWrite (base + .ofNat 32 i) 0
  else loadBytes base bias

/-- The bytes `biasLoads` writes. -/
def biasBytes (bias : List Byte) (n : ℕ) : List Byte :=
  if bias.isEmpty then List.replicate n 0 else bias

theorem biasLoads_eq (base : MmioData) (bias : List Byte) (n : ℕ) :
    biasLoads base bias n = loadBytes base (biasBytes bias n) := by
  rw [biasLoads, biasBytes]
  split
  · rw [loadBytes, List.length_replicate]
    refine List.map_congr_left fun i hi ↦ ?_
    rw [List.getD_replicate _ (List.mem_range.mp hi)]
    rfl
  · rfl

theorem length_biasBytes {bias : List Byte} {n : ℕ} (h : bias = [] ∨ bias.length = n) :
    (biasBytes bias n).length = n := by
  rw [biasBytes]
  rcases h with rfl | rfl
  · simp
  · cases bias <;> rfl

theorem getD_biasBytes (bias : List Byte) (n i : ℕ) :
    (biasBytes bias n).getD i 0 = bias.getD i 0 := by
  cases bias with
  | nil => simp [biasBytes]
  | cons => rfl

/-- Weights, bias, activations and words, in this order. -/
def macLoads (wt bias act : List Byte) (n : ℕ) (wtAddr biasAddr actAddr : MmioData)
    (words : NpuCmdDesc) : List Mmio :=
  loadBytes (weightBase + wtAddr) wt ++ (biasLoads (weightBase + biasAddr) bias n ++
    (loadBytes (actBase + actAddr) act ++ submitWords words))

section Loads

variable {wt bias act : List Byte} {n : ℕ} {wtAddr biasAddr actAddr : MmioData}
  {words : NpuCmdDesc} {s : Ideal} (hwt : wtAddr.toNat + wt.length ≤ 4096)
  (hbias : bias = [] ∨ bias.length = n) (hn : biasAddr.toNat + n ≤ 4096)
  (hact : actAddr.toNat + act.length ≤ 8192)
include hwt hbias hn hact

theorem loads_macLoads :
    ∀ m ∈ macLoads wt bias act n wtAddr biasAddr actAddr words, m.loads = true := by
  intro m hm
  have hlen := length_biasBytes hbias
  rw [macLoads, biasLoads_eq] at hm
  simp only [List.mem_append] at hm
  rcases hm with hm | hm | hm | hm
  · exact loads_loadBytes (n := 4096) (by decide) (by decide) hwt m hm
  · exact loads_loadBytes (n := 4096) (by decide) (by decide) (by rwa [hlen]) m hm
  · exact loads_loadBytes (n := 8192) (by decide) (by decide) hact m hm
  · exact loads_submitWords words m hm

/-- What the loads leave behind. -/
theorem after_macLoads
    (hdis : wtAddr.toNat + wt.length ≤ biasAddr.toNat ∨ biasAddr.toNat + n ≤ wtAddr.toNat) :
    (s.after (macLoads wt bias act n wtAddr biasAddr actAddr words)).window = words ∧
      Region.Holds (s.after (macLoads wt bias act n wtAddr biasAddr actAddr words)).sram.wt
        wtAddr.toNat wt.length (fun i ↦ wt.getD i 0) ∧
      Region.Holds (s.after (macLoads wt bias act n wtAddr biasAddr actAddr words)).sram.wt
        biasAddr.toNat n (fun i ↦ bias.getD i 0) ∧
      Region.Holds (s.after (macLoads wt bias act n wtAddr biasAddr actAddr words)).sram.act
        actAddr.toNat act.length (fun i ↦ act.getD i 0) := by
  have hlen := length_biasBytes hbias
  have hbytes := @Ideal.after_loadBytes_weight (s.after (loadBytes (weightBase + wtAddr) wt))
    biasAddr (biasBytes bias n) (by rwa [hlen])
  rw [macLoads, biasLoads_eq, Ideal.after_append, Ideal.after_append, Ideal.after_append,
    Ideal.after_submitWords, hbytes, Ideal.after_loadBytes_act hact,
    Ideal.after_loadBytes_weight hwt, hlen]
  refine ⟨rfl, ?_, ?_, Region.holds_cells hact⟩
  · exact (Region.holds_cells hwt).cells hn hwt hdis
  · exact (Region.holds_cells hn).congr fun i _ ↦ getD_biasBytes bias n i

end Loads

theorem activateInt_eq {mode : MmioData} (h : mode.toNat < 3) (v : ℤ) :
    activateInt (mode.setWidth 2) v = refActivate mode v := by
  have hcases : mode = 0 ∨ mode = 1 ∨ mode = 2 := by bv_omega
  rcases hcases with rfl | rfl | rfl <;> rfl

theorem toNat_dim {n : ℕ} (h : n < 2 ^ 16) : ((BitVec.ofNat 32 n).setWidth 16).toNat = n := by
  rw [BitVec.toNat_setWidth, BitVec.toNat_ofNat]
  omega

theorem toNat_shift {n : ℕ} (h : n < 32) : ((BitVec.ofNat 32 n).setWidth 5).toNat = n := by
  rw [BitVec.toNat_setWidth, BitVec.toNat_ofNat]
  omega

theorem toNat_addr {a : MmioData} (h : a.toNat < 2 ^ 16) : (a.setWidth 16).toNat = a.toNat := by
  rw [BitVec.toNat_setWidth, Nat.mod_eq_of_lt h]

theorem factors_le {a b c n : ℕ} (ha : 0 < a) (hb : 0 < b) (hc : 0 < c) (h : a * b * c ≤ n) :
    a ≤ n ∧ b ≤ n ∧ c ≤ n := by
  have hab := Nat.le_mul_of_pos_right (a * b) hc
  have hc' := Nat.le_mul_of_pos_left c (Nat.mul_pos ha hb)
  have ha' := Nat.le_mul_of_pos_right a hb
  have hb' := Nat.le_mul_of_pos_left b ha
  omega

/-! ## Products -/

/-- On the operands of a product the command computes it. -/
theorem GemmCmd_cVal_eq {cmd : GemmCmd} {a b bias : List Byte} {mode : MmioData}
    {act : BitVec 13 → Byte} {wt : BitVec 12 → Byte} (hmode : mode.toNat < 3)
    (hcmd : cmd.actMode = mode.setWidth 2)
    (hact : Region.Holds act cmd.aAddr.toNat (cmd.mDim.toNat * cmd.kDim.toNat) fun i ↦ a.getD i 0)
    (hwt : Region.Holds wt cmd.bAddr.toNat (cmd.kDim.toNat * cmd.nDim.toNat) fun i ↦ b.getD i 0)
    (hbias : Region.Holds wt cmd.biasAddr.toNat cmd.nDim.toNat fun i ↦ bias.getD i 0) {m n : ℕ}
    (hm : m < cmd.mDim.toNat) (hn : n < cmd.nDim.toNat) : cmd.cVal act wt m n =
      gemmVal a b bias cmd.nDim.toNat cmd.kDim.toNat cmd.quantShift.toNat mode m n := by
  have ha : ∀ k < cmd.kDim.toNat, cmd.aVal act m k = intAt a (m * cmd.kDim.toNat + k) :=
    fun k hk ↦ congrArg BitVec.toInt (hact _ (LoopNest.join_lt hm hk))
  have hb : ∀ k < cmd.kDim.toNat, cmd.bVal wt k n = intAt b (k * cmd.nDim.toNat + n) :=
    fun k hk ↦ congrArg BitVec.toInt (hwt _ (LoopNest.join_lt hk hn))
  have hbiasn : cmd.biasOf wt n = intAt bias n := congrArg BitVec.toInt (hbias n hn)
  have hsum : ∑ k ∈ Finset.range cmd.kDim.toNat, cmd.aVal act m k * cmd.bVal wt k n =
      gemmSum a b cmd.nDim.toNat cmd.kDim.toNat m n :=
    Finset.sum_congr rfl fun k hk ↦ by
      rw [ha k (Finset.mem_range.mp hk), hb k (Finset.mem_range.mp hk)]
  rw [GemmCmd.cVal, hsum, hbiasn, hcmd, gemmVal, ← activateInt_eq hmode]

structure GemmDesc where
  opcode : MmioData
  aAddr : MmioData
  cAddr : MmioData
  bAddr : MmioData
  biasAddr : MmioData
  mDim : MmioData
  nDim : MmioData
  kDim : MmioData
  quantShift : MmioData
  actMode : MmioData

def GemmDesc.toWords (d : GemmDesc) : NpuCmdDesc :=
  WriteLog.replay cmdClear
    [(0, d.opcode), (1, d.aAddr), (2, d.cAddr), (3, d.bAddr), (4, d.biasAddr), (5, d.mDim),
      (6, d.nDim), (7, d.kDim), (15, quantWord d.quantShift d.actMode)]

/-- The arguments of `run_gemm_test`, which puts the bias after `B`. -/
structure GemmTest where
  a : List Byte
  b : List Byte
  bias : List Byte
  M : ℕ
  N : ℕ
  K : ℕ
  qshift : ℕ
  actMode : MmioData
  aAddr : MmioData
  bAddr : MmioData
  cAddr : MmioData

namespace GemmTest

variable (p : GemmTest)

def biasAddr : MmioData := p.bAddr + .ofNat 32 p.b.length

def desc : GemmDesc where
  opcode := 2
  aAddr := p.aAddr
  cAddr := p.cAddr
  bAddr := p.bAddr
  biasAddr := p.biasAddr
  mDim := .ofNat 32 p.M
  nDim := .ofNat 32 p.N
  kDim := .ofNat 32 p.K
  quantShift := .ofNat 32 p.qshift
  actMode := p.actMode

def run : Test where
  loads := macLoads p.b p.bias p.a p.N p.bAddr p.biasAddr p.aAddr p.desc.toWords
  outBase := actBase + p.cAddr
  expected := refGemm p.a p.b p.bias p.M p.N p.K p.qshift p.actMode

/-- Vectors of the right size, everything inside the buffers and apart, and a
mode the reference model knows. -/
structure Fits : Prop where
  a : p.a.length = p.M * p.K
  b : p.b.length = p.K * p.N
  bias : p.bias = [] ∨ p.bias.length = p.N
  mPos : 0 < p.M
  nPos : 0 < p.N
  kPos : 0 < p.K
  qshift : p.qshift < 32
  actMode : p.actMode.toNat < 3
  aRange : p.aAddr.toNat + p.M * p.K ≤ 8192
  cRange : p.cAddr.toNat + p.M * p.N ≤ 8192
  wtRange : p.bAddr.toNat + (p.K * p.N + p.N) ≤ 4096
  regions : p.aAddr.toNat + p.M * p.K ≤ p.cAddr.toNat ∨
    p.cAddr.toNat + p.M * p.N ≤ p.aAddr.toNat

/-- The command the words encode. -/
def cmd : GemmCmd where
  aAddr := p.aAddr.setWidth 16
  cAddr := p.cAddr.setWidth 16
  bAddr := p.bAddr.setWidth 16
  biasAddr := p.biasAddr.setWidth 16
  mDim := (BitVec.ofNat 32 p.M).setWidth 16
  nDim := (BitVec.ofNat 32 p.N).setWidth 16
  kDim := (BitVec.ofNat 32 p.K).setWidth 16
  quantShift := (BitVec.ofNat 32 p.qshift).setWidth 5
  actMode := p.actMode.setWidth 2

theorem convToGemmCmd_toWords : convToGemmCmd (packCmd p.desc.toWords) = p.cmd := by
  simp [packCmd, convToGemmCmd, GemmDesc.toWords, desc, cmd, Function.update]

variable {p}

section Fits

variable (h : p.Fits)
include h

theorem Fits.toNat_biasAddr : p.biasAddr.toNat = p.bAddr.toNat + p.K * p.N := by
  have hwt := h.wtRange
  rw [biasAddr, h.b, BitVec.toNat_add, BitVec.toNat_ofNat]
  omega

theorem Fits.dims_le : p.M ≤ 8192 ∧ p.N ≤ 8192 ∧ p.K ≤ 8192 := by
  have ha := h.aRange
  have hc := h.cRange
  have hMK := Nat.le_mul_of_pos_right p.M h.kPos
  have hKM := Nat.le_mul_of_pos_left p.K h.mPos
  have hNM := Nat.le_mul_of_pos_left p.N h.mPos
  omega

theorem Fits.mDim : p.cmd.mDim.toNat = p.M := toNat_dim (by have := h.dims_le; omega)

theorem Fits.nDim : p.cmd.nDim.toNat = p.N := toNat_dim (by have := h.dims_le; omega)

theorem Fits.kDim : p.cmd.kDim.toNat = p.K := toNat_dim (by have := h.dims_le; omega)

theorem Fits.cmd_aAddr : p.cmd.aAddr.toNat = p.aAddr.toNat :=
  toNat_addr (by have := h.aRange; omega)

theorem Fits.cmd_cAddr : p.cmd.cAddr.toNat = p.cAddr.toNat :=
  toNat_addr (by have := h.cRange; omega)

theorem Fits.cmd_bAddr : p.cmd.bAddr.toNat = p.bAddr.toNat :=
  toNat_addr (by have := h.wtRange; omega)

theorem Fits.cmd_biasAddr : p.cmd.biasAddr.toNat = p.bAddr.toNat + p.K * p.N := by
  have hwt := h.wtRange
  have hbias := h.toNat_biasAddr
  exact (toNat_addr (by omega)).trans hbias

theorem Fits.valid : p.cmd.Valid where
  m := h.mDim ▸ h.mPos
  n := h.nDim ▸ h.nPos
  k := h.kDim ▸ h.kPos
  aRange := by
    rw [h.cmd_aAddr, h.mDim, h.kDim]
    exact h.aRange
  cRange := by
    rw [h.cmd_cAddr, h.mDim, h.nDim]
    exact h.cRange
  bRange := by
    rw [h.cmd_bAddr, h.kDim, h.nDim]
    have := h.wtRange
    omega
  biasRange := by
    rw [h.cmd_biasAddr, h.nDim]
    have := h.wtRange
    omega
  regions := by
    rw [h.cmd_aAddr, h.cmd_cAddr, h.mDim, h.nDim, h.kDim]
    exact h.regions

/-- On the loaded operands the command computes the reference product. -/
theorem Fits.cVal_eq {act : BitVec 13 → Byte} {wt : BitVec 12 → Byte}
    (hact : Region.Holds act p.aAddr.toNat (p.M * p.K) fun i ↦ p.a.getD i 0)
    (hwt : Region.Holds wt p.bAddr.toNat (p.K * p.N) fun i ↦ p.b.getD i 0)
    (hbias : Region.Holds wt (p.bAddr.toNat + p.K * p.N) p.N fun i ↦ p.bias.getD i 0) {m n : ℕ}
    (hm : m < p.M) (hn : n < p.N) :
    p.cmd.cVal act wt m n = gemmVal p.a p.b p.bias p.N p.K p.qshift p.actMode m n := by
  have hshift : p.cmd.quantShift.toNat = p.qshift := toNat_shift h.qshift
  rw [← h.cmd_aAddr, ← h.mDim, ← h.kDim] at hact
  rw [← h.cmd_bAddr, ← h.kDim, ← h.nDim] at hwt
  rw [← h.cmd_biasAddr, ← h.nDim] at hbias
  rw [GemmCmd_cVal_eq h.actMode rfl hact hwt hbias (h.mDim ▸ hm) (h.nDim ▸ hn), h.nDim, h.kDim,
    hshift]

end Fits

end GemmTest

theorem GemmCmd_tableWrites_eq (cmd : GemmCmd) (act : BitVec 13 → Byte) (wt : BitVec 12 → Byte) :
    cmd.tableWrites act wt = (List.range (cmd.mDim.toNat * cmd.nDim.toNat)).map fun e ↦
      (.ofNat 16 (cmd.cAddr.toNat + e),
        .ofInt 8 (cmd.cVal act wt (e / cmd.nDim.toNat) (e % cmd.nDim.toNat))) := by
  have hflat := LoopNest.map_range_mul (fun m n ↦ ((.ofNat 16 (cmd.cAddr.toNat +
    (m * cmd.nDim.toNat + n)), .ofInt 8 (cmd.cVal act wt m n)) : Addr × Byte))
    cmd.mDim.toNat cmd.nDim.toNat
  simp only [LoopNest.div_mul_add_mod] at hflat
  exact hflat.symm

theorem gemm_test_passes {p : GemmTest} (h : p.Fits) {env : ℕ → DeviceIn} {x : Watched} {a : Ideal}
    (hx : x.Rest a) (hq : 9 ≤ x.quiet) (henv : ∀ t, (env t).host.polls = true) :
    ∃ W, ∀ w, W ≤ w → p.run.Passes env w x := by
  have hwtRange := h.wtRange
  have hb : p.bAddr.toNat + p.b.length ≤ 4096 := by rw [h.b]; omega
  have hbias : p.biasAddr.toNat + p.N ≤ 4096 := by rw [h.toNat_biasAddr]; omega
  have ha : p.aAddr.toNat + p.a.length ≤ 8192 := by rw [h.a]; exact h.aRange
  obtain ⟨hwords, hwt, hbiasHeld, hact⟩ := @after_macLoads _ _ _ _ _ _ _ p.desc.toWords a hb h.bias
    hbias ha (.inl (by rw [h.toNat_biasAddr, h.b]))
  rw [h.b] at hwt
  rw [h.toNat_biasAddr] at hbiasHeld
  rw [h.a] at hact
  have htable := GemmCmd_tableWrites_eq p.cmd (a.after p.run.loads).sram.act
    (a.after p.run.loads).sram.wt
  rw [h.cmd_cAddr, h.mDim, h.nDim] at htable
  refine Test.passes_of_table (b := .gemm) hx hq henv (loads_macLoads hb h.bias hbias ha) hwords
    rfl p.convToGemmCmd_toWords h.valid trivial rfl h.cRange htable
    (refGemm_eq (by have := h.dims_le; omega)) fun e he ↦ ?_
  exact congrArg (BitVec.ofInt 8) (h.cVal_eq hact hwt hbiasHeld (LoopNest.div_lt_of_lt_mul he)
    (Nat.mod_lt _ (LoopNest.pos_of_lt_mul he)))

/-- One product, with no bias. -/
def oneProduct : GemmTest := ⟨[2], [3], [], 1, 1, 1, 0, 0, 0, 0, 64⟩

/-- No polls. -/
def quietEnv (_ : ℕ) : DeviceIn := ⟨.idle, ⟨false, 0, false⟩, 0, 0, 0⟩

theorem gemm_test_passes_one : oneProduct.run.expected = [6] ∧
    ∃ W, ∀ w, W ≤ w → oneProduct.run.Passes quietEnv w
      ⟨.reset (fun _ ↦ 0) (fun _ ↦ 0) (fun _ ↦ 0) fun _ ↦ 0, 0, 9⟩ := by
  refine ⟨by decide, gemm_test_passes ⟨?_, ?_, ?_, ?_, ?_, ?_, ?_, ?_, ?_, ?_, ?_, ?_⟩
    (Watched.rest_reset _ _ _ _ _) le_rfl fun _ ↦ rfl⟩ <;> decide

/-! ## Convolutions -/

/-- Two half-words in one word. -/
def halvesWord (lo hi : MmioData) : MmioData := lo &&& 0xFFFF ||| (hi &&& 0xFFFF) <<< 16

@[simp] theorem halvesWord_lo (lo hi : MmioData) :
    (halvesWord lo hi).setWidth 16 = lo.setWidth 16 := by
  ext i hi'
  interval_cases i <;> simp [halvesWord]

@[simp] theorem halvesWord_hi (lo hi : MmioData) :
    (halvesWord lo hi).extractLsb' 16 16 = hi.setWidth 16 := by
  ext i hi'
  interval_cases i <;> simp [halvesWord, BitVec.getElem_extractLsb']

/-- The output dimension a descriptor derives when none is given. -/
def derivedDim (inDim pad filt stride out : MmioData) : MmioData :=
  if out = 0 ∧ stride ≠ 0 then (inDim + 2 * pad - filt) / stride + 1 else out

theorem toNat_derivedDim {d pad filt stride : ℕ} (hd : d < 2 ^ 16) (hpad : pad < 2 ^ 16)
    (hfilt : filt ≤ d + 2 * pad) (hstride : 0 < stride) (hstride' : stride < 2 ^ 16) :
    (derivedDim (.ofNat 32 d) (.ofNat 32 pad) (.ofNat 32 filt) (.ofNat 32 stride) 0).toNat =
      outDim d pad filt stride := by
  have hne : BitVec.ofNat 32 stride ≠ 0 := by bv_omega
  have hsum : (BitVec.ofNat 32 d + 2 * BitVec.ofNat 32 pad - BitVec.ofNat 32 filt).toNat =
      d + 2 * pad - filt := by bv_omega
  have hstr : (BitVec.ofNat 32 stride).toNat = stride := by bv_omega
  have hdiv : (d + 2 * pad - filt) / stride ≤ d + 2 * pad - filt := Nat.div_le_self _ _
  rw [derivedDim, if_pos ⟨rfl, hne⟩, BitVec.toNat_add, BitVec.toNat_udiv, hsum, hstr,
    outDim_eq hfilt]
  exact Nat.mod_eq_of_lt (by simp; omega)

structure ConvDesc where
  opcode : MmioData
  actInAddr : MmioData
  actOutAddr : MmioData
  weightAddr : MmioData
  biasAddr : MmioData
  inH : MmioData
  inW : MmioData
  inC : MmioData
  outK : MmioData
  filtR : MmioData
  filtS : MmioData
  strideH : MmioData
  strideW : MmioData
  padH : MmioData
  padW : MmioData
  outH : MmioData
  outW : MmioData
  quantShift : MmioData
  actMode : MmioData

def ConvDesc.toWords (d : ConvDesc) : NpuCmdDesc :=
  let oh := derivedDim d.inH d.padH d.filtR d.strideH d.outH
  let ow := derivedDim d.inW d.padW d.filtS d.strideW d.outW
  WriteLog.replay cmdClear
    [(0, d.opcode), (1, d.actInAddr), (2, d.actOutAddr), (3, d.weightAddr), (4, d.biasAddr),
      (5, d.inH), (6, d.inW), (7, d.inC), (8, d.outK), (9, d.filtR), (10, d.filtS),
      (11, d.strideH), (12, d.strideW), (13, halvesWord d.padH oh), (14, halvesWord d.padW ow),
      (15, quantWord d.quantShift d.actMode)]

/-- The arguments of `run_conv_test`. -/
structure ConvTest where
  act : List Byte
  wt : List Byte
  bias : List Byte
  H : ℕ
  W : ℕ
  C : ℕ
  K : ℕ
  R : ℕ
  S : ℕ
  sh : ℕ
  sw : ℕ
  ph : ℕ
  pw : ℕ
  qshift : ℕ
  actMode : MmioData
  actInAddr : MmioData
  wtAddr : MmioData
  biasAddr : MmioData
  actOutAddr : MmioData

namespace ConvTest

variable (p : ConvTest)

/-- Zeros for a bias that is not supplied go after the weights. -/
def biasAt : MmioData := if p.bias.isEmpty then p.wtAddr + .ofNat 32 p.wt.length else p.biasAddr

def desc : ConvDesc where
  opcode := 1
  actInAddr := p.actInAddr
  actOutAddr := p.actOutAddr
  weightAddr := p.wtAddr
  biasAddr := p.biasAt
  inH := .ofNat 32 p.H
  inW := .ofNat 32 p.W
  inC := .ofNat 32 p.C
  outK := .ofNat 32 p.K
  filtR := .ofNat 32 p.R
  filtS := .ofNat 32 p.S
  strideH := .ofNat 32 p.sh
  strideW := .ofNat 32 p.sw
  padH := .ofNat 32 p.ph
  padW := .ofNat 32 p.pw
  outH := 0
  outW := 0
  quantShift := .ofNat 32 p.qshift
  actMode := p.actMode

def OH : ℕ := outDim p.H p.ph p.R p.sh

def OW : ℕ := outDim p.W p.pw p.S p.sw

def run : Test where
  loads := macLoads p.wt p.bias p.act p.K p.wtAddr p.biasAt p.actInAddr p.desc.toWords
  outBase := actBase + p.actOutAddr
  expected := refConv p.act p.wt p.bias p.H p.W p.C p.K p.R p.S p.sh p.sw p.ph p.pw p.qshift
    p.actMode

/-- Vectors of the right size, a filter that fits the padded map, everything
inside the buffers and apart, and a mode the reference model knows. -/
structure Fits : Prop where
  act : p.act.length = p.H * p.W * p.C
  wt : p.wt.length = p.K * p.R * p.S * p.C
  bias : p.bias = [] ∨ p.bias.length = p.K
  hPos : 0 < p.H
  wPos : 0 < p.W
  cPos : 0 < p.C
  kPos : 0 < p.K
  rPos : 0 < p.R
  sPos : 0 < p.S
  rows : p.R ≤ p.H + 2 * p.ph
  cols : p.S ≤ p.W + 2 * p.pw
  sh : 0 < p.sh ∧ p.sh < 2 ^ 16
  sw : 0 < p.sw ∧ p.sw < 2 ^ 16
  ph : p.ph < 2 ^ 16
  pw : p.pw < 2 ^ 16
  qshift : p.qshift < 32
  actMode : p.actMode.toNat < 3
  inRange : p.actInAddr.toNat + p.H * p.W * p.C ≤ 8192
  outRange : p.actOutAddr.toNat + p.OH * p.OW * p.K ≤ 8192
  wtRange : p.wtAddr.toNat + p.K * p.R * p.S * p.C ≤ 4096
  biasRange : p.biasAt.toNat + p.K ≤ 4096
  biasApart : p.wtAddr.toNat + p.K * p.R * p.S * p.C ≤ p.biasAt.toNat ∨
    p.biasAt.toNat + p.K ≤ p.wtAddr.toNat
  regions : p.actInAddr.toNat + p.H * p.W * p.C ≤ p.actOutAddr.toNat ∨
    p.actOutAddr.toNat + p.OH * p.OW * p.K ≤ p.actInAddr.toNat

/-- The command the words encode. -/
def cmd : ConvCmd where
  opcode := 1
  actInAddr := p.actInAddr.setWidth 16
  actOutAddr := p.actOutAddr.setWidth 16
  weightAddr := p.wtAddr.setWidth 16
  biasAddr := p.biasAt.setWidth 16
  inH := (BitVec.ofNat 32 p.H).setWidth 16
  inW := (BitVec.ofNat 32 p.W).setWidth 16
  inC := (BitVec.ofNat 32 p.C).setWidth 16
  outK := (BitVec.ofNat 32 p.K).setWidth 16
  filtR := (BitVec.ofNat 32 p.R).setWidth 16
  filtS := (BitVec.ofNat 32 p.S).setWidth 16
  strideH := (BitVec.ofNat 32 p.sh).setWidth 16
  strideW := (BitVec.ofNat 32 p.sw).setWidth 16
  padH := (BitVec.ofNat 32 p.ph).setWidth 16
  padW := (BitVec.ofNat 32 p.pw).setWidth 16
  outH := (derivedDim (.ofNat 32 p.H) (.ofNat 32 p.ph) (.ofNat 32 p.R) (.ofNat 32 p.sh)
    0).setWidth 16
  outW := (derivedDim (.ofNat 32 p.W) (.ofNat 32 p.pw) (.ofNat 32 p.S) (.ofNat 32 p.sw)
    0).setWidth 16
  quantShift := (BitVec.ofNat 32 p.qshift).setWidth 5
  actMode := p.actMode.setWidth 2

theorem packCmd_toWords : packCmd p.desc.toWords = p.cmd := by
  simp [packCmd, ConvDesc.toWords, desc, cmd, Function.update]

variable {p}

section Fits

variable (h : p.Fits)
include h

theorem Fits.oh_eq : p.OH = (p.H + 2 * p.ph - p.R) / p.sh + 1 := outDim_eq h.rows

theorem Fits.ow_eq : p.OW = (p.W + 2 * p.pw - p.S) / p.sw + 1 := outDim_eq h.cols

theorem Fits.out_pos : 0 < p.OH ∧ 0 < p.OW := by
  rw [h.oh_eq, h.ow_eq]
  exact ⟨Nat.succ_pos _, Nat.succ_pos _⟩

theorem Fits.dims_le : p.H ≤ 8192 ∧ p.W ≤ 8192 ∧ p.C ≤ 8192 :=
  factors_le h.hPos h.wPos h.cPos (by have := h.inRange; omega)

theorem Fits.out_le : p.OH ≤ 8192 ∧ p.OW ≤ 8192 ∧ p.K ≤ 8192 :=
  factors_le h.out_pos.1 h.out_pos.2 h.kPos (by have := h.outRange; omega)

theorem Fits.filt_le : p.R ≤ 4096 ∧ p.S ≤ 4096 ∧ p.R * p.S * p.C ≤ 4096 := by
  have hwt := h.wtRange
  have hK : p.R * p.S * p.C ≤ p.K * (p.R * p.S * p.C) := Nat.le_mul_of_pos_left _ h.kPos
  have hassoc : p.K * (p.R * p.S * p.C) = p.K * p.R * p.S * p.C := by ring
  have hfac := factors_le (n := 4096) h.rPos h.sPos h.cPos (by omega)
  exact ⟨hfac.1, hfac.2.1, by omega⟩

theorem Fits.inH : p.cmd.inH.toNat = p.H := toNat_dim (by have := h.dims_le; omega)

theorem Fits.inW : p.cmd.inW.toNat = p.W := toNat_dim (by have := h.dims_le; omega)

theorem Fits.inC : p.cmd.inC.toNat = p.C := toNat_dim (by have := h.dims_le; omega)

theorem Fits.outK : p.cmd.outK.toNat = p.K := toNat_dim (by have := h.out_le; omega)

theorem Fits.filtR : p.cmd.filtR.toNat = p.R := toNat_dim (by have := h.filt_le; omega)

theorem Fits.filtS : p.cmd.filtS.toNat = p.S := toNat_dim (by have := h.filt_le; omega)

theorem Fits.strideH : p.cmd.strideH.toNat = p.sh := toNat_dim h.sh.2

theorem Fits.strideW : p.cmd.strideW.toNat = p.sw := toNat_dim h.sw.2

theorem Fits.padH : p.cmd.padH.toNat = p.ph := toNat_dim h.ph

theorem Fits.padW : p.cmd.padW.toNat = p.pw := toNat_dim h.pw

theorem Fits.outH : p.cmd.outH.toNat = p.OH := by
  have hle := h.out_le
  have hdim := toNat_derivedDim (by have := h.dims_le; omega) h.ph h.rows h.sh.1 h.sh.2
  exact (toNat_addr (by rw [hdim, ← OH]; omega)).trans hdim

theorem Fits.outW : p.cmd.outW.toNat = p.OW := by
  have hle := h.out_le
  have hdim := toNat_derivedDim (by have := h.dims_le; omega) h.pw h.cols h.sw.1 h.sw.2
  exact (toNat_addr (by rw [hdim, ← OW]; omega)).trans hdim

theorem Fits.cmd_actInAddr : p.cmd.actInAddr.toNat = p.actInAddr.toNat :=
  toNat_addr (by have := h.inRange; omega)

theorem Fits.cmd_actOutAddr : p.cmd.actOutAddr.toNat = p.actOutAddr.toNat :=
  toNat_addr (by have := h.outRange; omega)

theorem Fits.cmd_weightAddr : p.cmd.weightAddr.toNat = p.wtAddr.toNat :=
  toNat_addr (by have := h.wtRange; omega)

theorem Fits.cmd_biasAddr : p.cmd.biasAddr.toNat = p.biasAt.toNat :=
  toNat_addr (by have := h.biasRange; omega)

theorem Fits.outSize : p.cmd.outSize = p.OH * p.OW * p.K := by
  rw [ConvCmd.outSize, h.outH, h.outW, h.outK]

theorem Fits.valid : p.cmd.Valid where
  outH := h.outH ▸ h.out_pos.1
  outW := h.outW ▸ h.out_pos.2
  k := h.outK ▸ h.kPos
  r := h.filtR ▸ h.rPos
  s := h.filtS ▸ h.sPos
  c := h.inC ▸ h.cPos
  inH := h.inH ▸ h.hPos
  inW := h.inW ▸ h.wPos
  strideH := h.strideH ▸ h.sh.1
  strideW := h.strideW ▸ h.sw.1
  rows := by
    rw [h.outH, h.strideH, h.filtR, h.inH, h.padH, h.oh_eq, Nat.add_sub_cancel]
    have hle := Nat.div_mul_le_self (p.H + 2 * p.ph - p.R) p.sh
    have hrows := h.rows
    omega
  cols := by
    rw [h.outW, h.strideW, h.filtS, h.inW, h.padW, h.ow_eq, Nat.add_sub_cancel]
    have hle := Nat.div_mul_le_self (p.W + 2 * p.pw - p.S) p.sw
    have hcols := h.cols
    omega
  inRange := by
    rw [h.cmd_actInAddr, h.inH, h.inW, h.inC]
    exact h.inRange
  outRange := by
    rw [h.cmd_actOutAddr, h.outSize]
    exact h.outRange
  wtRange := by
    rw [h.cmd_weightAddr, h.outK, h.filtR, h.filtS, h.inC]
    exact h.wtRange
  biasRange := by
    rw [h.cmd_biasAddr, h.outK]
    exact h.biasRange
  regions := by
    rw [h.cmd_actInAddr, h.cmd_actOutAddr, h.inH, h.inW, h.inC, h.outSize]
    exact h.regions

theorem Fits.xVal_eq {act : BitVec 13 → Byte}
    (hact : Region.Holds act p.actInAddr.toNat (p.H * p.W * p.C) fun i ↦ p.act.getD i 0)
    (ih iw : ℤ) {c : ℕ} (hc : c < p.C) :
    p.cmd.xVal act ih iw c = convX p.act p.H p.W p.C ih iw c := by
  rw [ConvCmd.xVal, convX]
  by_cases hin : p.cmd.InMap ih iw
  · obtain ⟨hi0, hi, hj0, hj⟩ := hin
    rw [h.inH] at hi
    rw [h.inW] at hj
    have hmap : inMap p.H p.W ih iw = true := by simp [inMap, hi0, hi, hj0, hj]
    lift ih to ℕ using hi0
    lift iw to ℕ using hj0
    have hpix : ih * p.W + iw < p.H * p.W := LoopNest.join_lt (by omega) (by omega)
    rw [if_pos ⟨by omega, by rw [h.inH]; omega, by omega, by rw [h.inW]; omega⟩, hmap, if_pos rfl,
      h.cmd_actInAddr, h.inW, h.inC]
    exact congrArg BitVec.toInt (hact _ (LoopNest.join_lt hpix hc))
  · have hmap : inMap p.H p.W ih iw = false := by
      rw [ConvCmd.InMap, h.inH, h.inW] at hin
      simp only [inMap, Bool.and_eq_false_iff, decide_eq_false_iff_not]
      tauto
    rw [if_neg hin, hmap, if_neg Bool.false_ne_true]

/-- On the loaded operands the command computes the reference convolution. -/
theorem Fits.yVal_eq {act : BitVec 13 → Byte} {wt : BitVec 12 → Byte}
    (hact : Region.Holds act p.actInAddr.toNat (p.H * p.W * p.C) fun i ↦ p.act.getD i 0)
    (hwt : Region.Holds wt p.wtAddr.toNat (p.K * p.R * p.S * p.C) fun i ↦ p.wt.getD i 0)
    (hbias : Region.Holds wt p.biasAt.toNat p.K fun i ↦ p.bias.getD i 0) (oh ow : ℕ) {k : ℕ}
    (hk : k < p.K) : p.cmd.yVal act wt oh ow k =
      convVal p.act p.wt p.bias p.H p.W p.C p.R p.S p.sh p.sw p.ph p.pw p.qshift p.actMode
        oh ow k := by
  have hw : ∀ r < p.R, ∀ s < p.S, ∀ c < p.C, p.cmd.wVal wt k r s c =
      intAt p.wt (((k * p.R + r) * p.S + s) * p.C + c) := by
    intro r hr s hs c hc
    rw [ConvCmd.wVal, h.cmd_weightAddr, h.filtR, h.filtS, h.inC]
    exact congrArg BitVec.toInt
      (hwt _ (LoopNest.join_lt (LoopNest.join_lt (LoopNest.join_lt hk hr) hs) hc))
  have hbiask : p.cmd.biasOf wt k = intAt p.bias k := by
    rw [ConvCmd.biasOf, h.cmd_biasAddr]
    exact congrArg BitVec.toInt (hbias k hk)
  have hsum : ∑ r ∈ Finset.range p.R, ∑ s ∈ Finset.range p.S, ∑ c ∈ Finset.range p.C,
      p.cmd.xVal act (p.cmd.rowOf oh r) (p.cmd.colOf ow s) c * p.cmd.wVal wt k r s c =
        convSum p.act p.wt p.H p.W p.C p.R p.S p.sh p.sw p.ph p.pw oh ow k := by
    refine Finset.sum_congr rfl fun r hr ↦ Finset.sum_congr rfl fun s hs ↦
      Finset.sum_congr rfl fun c hc ↦ ?_
    have hc' := Finset.mem_range.mp hc
    rw [hw r (Finset.mem_range.mp hr) s (Finset.mem_range.mp hs) c hc', h.xVal_eq hact _ _ hc',
      ConvCmd.rowOf, ConvCmd.colOf, h.strideH, h.strideW, h.padH, h.padW]
    rfl
  have hshift : p.cmd.quantShift.toNat = p.qshift := toNat_shift h.qshift
  rw [ConvCmd.yVal, h.filtR, h.filtS, h.inC, hsum, hbiask, hshift, convVal,
    ← activateInt_eq h.actMode]
  rfl

end Fits

end ConvTest

theorem ConvCmd_tableWrites_eq (cmd : ConvCmd) (act : BitVec 13 → Byte) (wt : BitVec 12 → Byte) :
    cmd.tableWrites act wt =
      (List.range (cmd.outH.toNat * cmd.outW.toNat * cmd.outK.toNat)).map fun e ↦
        (.ofNat 16 (cmd.actOutAddr.toNat + e), .ofInt 8 (cmd.yVal act wt
          (e / cmd.outK.toNat / cmd.outW.toNat) (e / cmd.outK.toNat % cmd.outW.toNat)
          (e % cmd.outK.toNat))) := by
  have hrows := LoopNest.flatMap_range_mul (fun oh ow ↦ (List.range cmd.outK.toNat).map fun k ↦
    ((.ofNat 16 (cmd.outIdx oh ow k), .ofInt 8 (cmd.yVal act wt oh ow k)) : Addr × Byte))
    cmd.outH.toNat cmd.outW.toNat
  have hflat := LoopNest.map_range_mul (fun q k ↦
    ((.ofNat 16 (cmd.outIdx (q / cmd.outW.toNat) (q % cmd.outW.toNat) k),
      .ofInt 8 (cmd.yVal act wt (q / cmd.outW.toNat) (q % cmd.outW.toNat) k)) : Addr × Byte))
    (cmd.outH.toNat * cmd.outW.toNat) cmd.outK.toNat
  simp only [ConvCmd.outIdx, LoopNest.rowMajor, LoopNest.div_mul_add_mod] at hrows hflat
  rw [ConvCmd.tableWrites, hflat]
  exact hrows.symm

theorem conv_test_passes {p : ConvTest} (h : p.Fits) {env : ℕ → DeviceIn} {x : Watched} {a : Ideal}
    (hx : x.Rest a) (hq : 9 ≤ x.quiet) (henv : ∀ t, (env t).host.polls = true) :
    ∃ W, ∀ w, W ≤ w → p.run.Passes env w x := by
  have hwt : p.wtAddr.toNat + p.wt.length ≤ 4096 := by rw [h.wt]; exact h.wtRange
  have hact : p.actInAddr.toNat + p.act.length ≤ 8192 := by rw [h.act]; exact h.inRange
  obtain ⟨hwords, hwtHeld, hbiasHeld, hactHeld⟩ := @after_macLoads _ _ _ _ _ _ _ p.desc.toWords a
    hwt h.bias h.biasRange hact (by rw [h.wt]; exact h.biasApart)
  rw [h.wt] at hwtHeld
  rw [h.act] at hactHeld
  have htable := ConvCmd_tableWrites_eq p.cmd (a.after p.run.loads).sram.act
    (a.after p.run.loads).sram.wt
  rw [h.cmd_actOutAddr, h.outH, h.outW, h.outK] at htable
  refine Test.passes_of_table (b := .conv) hx hq henv (loads_macLoads hwt h.bias h.biasRange hact)
    hwords rfl p.packCmd_toWords h.valid trivial rfl h.outRange htable
    (refConv_eq (by have := h.filt_le; omega)) fun e he ↦ ?_
  exact congrArg (BitVec.ofInt 8) (h.yVal_eq hactHeld hwtHeld hbiasHeld _ _
    (Nat.mod_lt _ (LoopNest.pos_of_lt_mul he)))

/-- One pixel, one weight, half the product. -/
def onePixel : ConvTest := ⟨[6], [3], [], 1, 1, 1, 1, 1, 1, 1, 1, 0, 0, 1, 1, 0, 0, 0, 64⟩

theorem conv_test_passes_one : onePixel.run.expected = [9] ∧
    ∃ W, ∀ w, W ≤ w → onePixel.run.Passes quietEnv w
      ⟨.reset (fun _ ↦ 0) (fun _ ↦ 0) (fun _ ↦ 0) fun _ ↦ 0, 0, 9⟩ := by
  refine ⟨by decide, conv_test_passes ⟨?_, ?_, ?_, ?_, ?_, ?_, ?_, ?_, ?_, ?_, ?_, ?_, ?_, ?_, ?_,
    ?_, ?_, ?_, ?_, ?_, ?_, ?_, ?_⟩ (Watched.rest_reset _ _ _ _ _) le_rfl fun _ ↦ rfl⟩ <;> decide

end NpuTb

end LgNpu
