import LgNpu.Tb.MacTests
import LgNpu.Tb.Rows

/-!
# The tests of the row kind

`run_softmax_test` and `run_lnorm_test`: whatever the rows, in place or onto a
disjoint region, the device returns what the reference models compute.
-/

namespace LgNpu

open NpuCore

namespace RowWise

variable {σ : Type} (c : RowWise σ) (m : BitVec 13 → Byte)

theorem tableWrites_eq_map : c.tableWrites m =
    (List.range (c.numRows.toNat * c.rowLen.toNat)).map fun e ↦ (.ofNat 16 (c.outAddr.toNat + e),
      c.val (c.stat m (e / c.rowLen.toNat))
        (int8At m (c.inIdx (e / c.rowLen.toNat) (e % c.rowLen.toNat)))) := by
  have hflat := LoopNest.map_range_mul (fun i j ↦ ((.ofNat 16 (c.outIdx i j),
    c.val (c.stat m i) (int8At m (c.inIdx i j))) : Addr × Byte)) c.numRows.toNat c.rowLen.toNat
  simp only [outIdx, Nat.add_assoc, LoopNest.div_mul_add_mod] at hflat
  simp only [tableWrites, outIdx, Nat.add_assoc]
  exact hflat.symm

end RowWise

namespace NpuTb

/-! ## What both tests share -/

/-- Activations and words, in this order. -/
def rowLoads (input : List Byte) (inAddr : MmioData) (words : NpuCmdDesc) : List Mmio :=
  loadBytes (actBase + inAddr) input ++ submitWords words

section Loads

variable {input : List Byte} {inAddr : MmioData} {words : NpuCmdDesc}
  (h : inAddr.toNat + input.length ≤ 8192)
include h

theorem loads_rowLoads : ∀ m ∈ rowLoads input inAddr words, m.loads = true := by
  intro m hm
  rcases List.mem_append.mp hm with hm | hm
  · exact loads_loadBytes (n := 8192) (by decide) (by decide) h m hm
  · exact loads_submitWords words m hm

theorem after_rowLoads {s : Ideal} :
    (s.after (rowLoads input inAddr words)).window = words ∧
      Region.Holds (s.after (rowLoads input inAddr words)).sram.act inAddr.toNat input.length
        fun i ↦ input.getD i 0 := by
  rw [rowLoads, Ideal.after_append, Ideal.after_submitWords, Ideal.after_loadBytes_act h]
  exact ⟨rfl, Region.holds_cells h⟩

end Loads

/-- The arguments `run_softmax_test` and `run_lnorm_test` share. -/
structure RowTest where
  input : List Byte
  numRows : ℕ
  rowLen : ℕ
  inAddr : MmioData
  outAddr : MmioData

namespace RowTest

variable (p : RowTest)

def size : ℕ := p.numRows * p.rowLen

/-- A vector of the right size, both regions inside the buffer, identical or
apart. -/
structure Fits : Prop where
  input : p.input.length = p.size
  rowsPos : 0 < p.numRows
  lenPos : 0 < p.rowLen
  inRange : p.inAddr.toNat + p.size ≤ 8192
  outRange : p.outAddr.toNat + p.size ≤ 8192
  regions : p.inAddr = p.outAddr ∨ p.inAddr.toNat + p.size ≤ p.outAddr.toNat ∨
    p.outAddr.toNat + p.size ≤ p.inAddr.toNat

/-- A row-wise operation on the regions and sizes of the test. -/
structure On {σ : Type} (c : RowWise σ) : Prop where
  inAddr : c.inAddr = p.inAddr.setWidth 16
  outAddr : c.outAddr = p.outAddr.setWidth 16
  numRows : c.numRows = (BitVec.ofNat 32 p.numRows).setWidth 16
  rowLen : c.rowLen = (BitVec.ofNat 32 p.rowLen).setWidth 16

variable {p} {σ : Type} {c : RowWise σ} (h : p.Fits)
include h

theorem Fits.dims_le : p.numRows ≤ 8192 ∧ p.rowLen ≤ 8192 := by
  have hin := h.inRange
  have hrows := Nat.le_mul_of_pos_right p.numRows h.lenPos
  have hlen := Nat.le_mul_of_pos_left p.rowLen h.rowsPos
  rw [size] at hin
  omega

variable (hc : p.On c)
include hc

theorem Fits.toNat_inAddr : c.inAddr.toNat = p.inAddr.toNat := by
  rw [hc.inAddr]
  exact toNat_addr (by have := h.inRange; omega)

theorem Fits.toNat_outAddr : c.outAddr.toNat = p.outAddr.toNat := by
  rw [hc.outAddr]
  exact toNat_addr (by have := h.outRange; omega)

theorem Fits.toNat_numRows : c.numRows.toNat = p.numRows := by
  rw [hc.numRows]
  exact toNat_dim (by have := h.dims_le; omega)

theorem Fits.toNat_rowLen : c.rowLen.toNat = p.rowLen := by
  rw [hc.rowLen]
  exact toNat_dim (by have := h.dims_le; omega)

theorem Fits.valid : c.Valid where
  numRows_pos := h.toNat_numRows hc ▸ h.rowsPos
  rowLen_pos := h.toNat_rowLen hc ▸ h.lenPos
  inRange := by
    rw [h.toNat_inAddr hc, RowWise.size, h.toNat_numRows hc, h.toNat_rowLen hc]
    exact h.inRange
  outRange := by
    rw [h.toNat_outAddr hc, RowWise.size, h.toNat_numRows hc, h.toNat_rowLen hc]
    exact h.outRange
  regions := by
    rw [h.toNat_inAddr hc, h.toNat_outAddr hc, RowWise.size, h.toNat_numRows hc,
      h.toNat_rowLen hc, hc.inAddr, hc.outAddr]
    exact h.regions.imp_left (congrArg _)

/-- On the loaded rows the statistics and the values are taken from the
vector. -/
theorem Fits.int8At_inIdx {m : BitVec 13 → Byte}
    (hact : Region.Holds m p.inAddr.toNat p.size fun i ↦ p.input.getD i 0) {i j : ℕ}
    (hi : i < p.numRows) (hj : j < p.rowLen) :
    int8At m (c.inIdx i j) = rowAt p.input (i * p.rowLen) j := by
  rw [RowWise.inIdx, h.toNat_inAddr hc, h.toNat_rowLen hc, Nat.add_assoc]
  exact congrArg BitVec.toInt (hact _ (LoopNest.join_lt hi hj))

/-- The writes of a local operation, element by element. -/
theorem Fits.runWrites_eq (hl : c.Local) (m : BitVec 13 → Byte) :
    c.runWrites m c.numRows.toNat = (List.range p.size).map fun e ↦
      (.ofNat 16 (p.outAddr.toNat + e), c.val (c.stat m (e / p.rowLen))
        (int8At m (c.inIdx (e / p.rowLen) (e % p.rowLen)))) := by
  rw [RowWise.runWrites_eq_tableWrites (h.valid hc) hl, RowWise.tableWrites_eq_map,
    h.toNat_numRows hc, h.toNat_rowLen hc, h.toNat_outAddr hc, size]

end RowTest

/-! ## Softmax -/

structure SoftmaxDesc where
  opcode : MmioData
  inAddr : MmioData
  outAddr : MmioData
  numRows : MmioData
  rowLen : MmioData

def SoftmaxDesc.toWords (d : SoftmaxDesc) : NpuCmdDesc :=
  WriteLog.replay cmdClear
    [(0, d.opcode), (1, d.inAddr), (2, d.outAddr), (5, d.numRows), (6, d.rowLen)]

namespace RowTest

variable (p : RowTest)

def softmaxDesc : SoftmaxDesc where
  opcode := 3
  inAddr := p.inAddr
  outAddr := p.outAddr
  numRows := .ofNat 32 p.numRows
  rowLen := .ofNat 32 p.rowLen

/-- `run_softmax_test`. -/
def runSoftmax : Test where
  loads := rowLoads p.input p.inAddr p.softmaxDesc.toWords
  outBase := actBase + p.outAddr
  expected := refSoftmax p.input p.numRows p.rowLen

/-- The command the words encode. -/
def softmaxCmd : SoftmaxCmd where
  inAddr := p.inAddr.setWidth 16
  outAddr := p.outAddr.setWidth 16
  numRows := (BitVec.ofNat 32 p.numRows).setWidth 16
  rowLen := (BitVec.ofNat 32 p.rowLen).setWidth 16

theorem convToSoftmaxCmd_toWords :
    convToSoftmaxCmd (packCmd p.softmaxDesc.toWords) = p.softmaxCmd := by
  simp [packCmd, convToSoftmaxCmd, SoftmaxDesc.toWords, softmaxDesc, softmaxCmd, Function.update]

theorem on_softmax : p.On p.softmaxCmd.rowWise := ⟨rfl, rfl, rfl, rfl⟩

variable {p}

/-- On the loaded rows the command computes the reference softmax. -/
theorem Fits.softmax_val (h : p.Fits) {m : BitVec 13 → Byte}
    (hact : Region.Holds m p.inAddr.toNat p.size fun i ↦ p.input.getD i 0) {i j : ℕ}
    (hi : i < p.numRows) (hj : j < p.rowLen) :
    p.softmaxCmd.rowWise.val (p.softmaxCmd.rowWise.stat m i)
        (int8At m (p.softmaxCmd.rowWise.inIdx i j)) =
      .ofNat 8 (SoftmaxRow.out (rowAt p.input (i * p.rowLen)) p.rowLen j) := by
  have hrow : ∀ j < p.rowLen, p.softmaxCmd.rowOf m i j = rowAt p.input (i * p.rowLen) j :=
    fun j hj ↦ h.int8At_inIdx p.on_softmax hact hi hj
  have hlen : p.softmaxCmd.rowLen.toNat = p.rowLen := h.toNat_rowLen p.on_softmax
  have hmax : p.softmaxCmd.rowMax m i =
      SoftmaxRow.maxUpTo (rowAt p.input (i * p.rowLen)) p.rowLen := by
    rw [← SoftmaxRow.maxUpTo_congr hrow, SoftmaxCmd.rowMax, hlen]
    rfl
  have hsum : p.softmaxCmd.rowSum m i = SoftmaxRow.expUpTo (rowAt p.input (i * p.rowLen))
      (SoftmaxRow.maxUpTo (rowAt p.input (i * p.rowLen)) p.rowLen) p.rowLen := by
    rw [SoftmaxCmd.rowSum, SoftmaxCmd.sumUpTo, hlen]
    exact @SoftmaxRow.expUpTo_congr (p.softmaxCmd.rowOf m i) _ _ _ _ fun j hj ↦
      congrArg₂ _ hmax (hrow j hj)
  have hexp := p.softmaxCmd.expAt_eq m (i := i) (hlen.symm ▸ hj)
  change BitVec.ofNat 8 (expOf ((p.softmaxCmd.rowMax m i -
    int8At m (p.softmaxCmd.inIdx i j)) % 256).toNat * 127 / p.softmaxCmd.rowSum m i) = _
  rw [hexp, SoftmaxCmd.expAt, hmax, hsum]
  change BitVec.ofNat 8 (expOf (_ - p.softmaxCmd.rowOf m i j).toNat * 127 / _) = _
  rw [hrow j hj]
  rfl

end RowTest

theorem softmax_test_passes {p : RowTest} (h : p.Fits) {env : ℕ → DeviceIn} {x : Watched}
    {a : Ideal} (hx : x.Rest a) (hq : 9 ≤ x.quiet) (henv : ∀ t, (env t).host.polls = true) :
    ∃ W, ∀ w, W ≤ w → p.runSoftmax.Passes env w x := by
  have hlen := h.dims_le
  have hv := h.valid p.on_softmax
  have hin : p.inAddr.toNat + p.input.length ≤ 8192 := by rw [h.input]; exact h.inRange
  obtain ⟨hwords, hact⟩ := @after_rowLoads _ _ p.softmaxDesc.toWords hin a
  rw [h.input] at hact
  refine Test.passes_of_table (b := .softmax) hx hq henv (loads_rowLoads hin) hwords rfl
    p.convToSoftmaxCmd_toWords ⟨hv.numRows_pos, hv.rowLen_pos⟩ trivial rfl h.outRange
    (h.runWrites_eq p.on_softmax p.softmaxCmd.rowWise_local _)
    (refSoftmax_eq _ (by omega)) fun e he ↦ ?_
  exact h.softmax_val hact (LoopNest.div_lt_of_lt_mul he) (Nat.mod_lt _ h.lenPos)

/-- One row of two elements, in place. -/
def oneRow : RowTest := ⟨[0, 0], 1, 2, 16, 16⟩

theorem softmax_test_passes_inPlace : oneRow.runSoftmax.expected = [63, 63] ∧
    ∃ W, ∀ w, W ≤ w → oneRow.runSoftmax.Passes quietEnv w
      ⟨.reset (fun _ ↦ 0) (fun _ ↦ 0) (fun _ ↦ 0) fun _ ↦ 0, 0, 9⟩ := by
  refine ⟨by decide, softmax_test_passes ⟨?_, ?_, ?_, ?_, ?_, ?_⟩
    (Watched.rest_reset _ _ _ _ _) le_rfl fun _ ↦ rfl⟩ <;> decide

/-! ## Layer normalisation -/

structure LnormDesc where
  opcode : MmioData
  inAddr : MmioData
  outAddr : MmioData
  numRows : MmioData
  rowLen : MmioData
  normShift : MmioData

def LnormDesc.toWords (d : LnormDesc) : NpuCmdDesc :=
  WriteLog.replay cmdClear
    [(0, d.opcode), (1, d.inAddr), (2, d.outAddr), (5, d.numRows), (6, d.rowLen),
      (15, d.normShift &&& 0x1F)]

namespace RowTest

variable (p : RowTest) (normShift : ℕ)

def lnormDesc : LnormDesc where
  opcode := 5
  inAddr := p.inAddr
  outAddr := p.outAddr
  numRows := .ofNat 32 p.numRows
  rowLen := .ofNat 32 p.rowLen
  normShift := .ofNat 32 normShift

/-- `run_lnorm_test`. -/
def runLnorm : Test where
  loads := rowLoads p.input p.inAddr (p.lnormDesc normShift).toWords
  outBase := actBase + p.outAddr
  expected := refLnorm p.input p.numRows p.rowLen normShift

/-- The command the words encode. -/
def lnormCmd : LnormCmd where
  inAddr := p.inAddr.setWidth 16
  outAddr := p.outAddr.setWidth 16
  numRows := (BitVec.ofNat 32 p.numRows).setWidth 16
  rowLen := (BitVec.ofNat 32 p.rowLen).setWidth 16
  normShift := (BitVec.ofNat 32 normShift).setWidth 5

theorem convToLnormCmd_toWords :
    convToLnormCmd (packCmd (p.lnormDesc normShift).toWords) = p.lnormCmd normShift := by
  simp [packCmd, convToLnormCmd, LnormDesc.toWords, lnormDesc, lnormCmd, Function.update]
  exact BitVec.and_allOnes

theorem on_lnorm : p.On (p.lnormCmd normShift).rowWise := ⟨rfl, rfl, rfl, rfl⟩

variable {p normShift}

/-- On the loaded rows the command computes the reference normalisation. -/
theorem Fits.lnorm_val (h : p.Fits) (hshift : normShift < 32) {m : BitVec 13 → Byte}
    (hact : Region.Holds m p.inAddr.toNat p.size fun i ↦ p.input.getD i 0) {i j : ℕ}
    (hi : i < p.numRows) (hj : j < p.rowLen) :
    (p.lnormCmd normShift).rowWise.val ((p.lnormCmd normShift).rowWise.stat m i)
        (int8At m ((p.lnormCmd normShift).rowWise.inIdx i j)) =
      .ofInt 8 (normVal normShift (rowMean (rowAt p.input (i * p.rowLen)) p.rowLen)
        (rowSigma (rowAt p.input (i * p.rowLen)) p.rowLen)
        (rowAt p.input (i * p.rowLen) j)) := by
  have hrow : ∀ j < p.rowLen, int8At m ((p.lnormCmd normShift).inIdx i j) =
      rowAt p.input (i * p.rowLen) j := fun j hj ↦
    h.int8At_inIdx (p.on_lnorm normShift) hact hi hj
  have hlen : (p.lnormCmd normShift).rowLen.toNat = p.rowLen :=
    h.toNat_rowLen (p.on_lnorm normShift)
  have hmean : (p.lnormCmd normShift).mean m i =
      rowMean (rowAt p.input (i * p.rowLen)) p.rowLen := by
    rw [LnormCmd.mean, LnormCmd.sumUpTo, hlen, rowMean,
      List.map_congr_left fun j hj ↦ hrow j (List.mem_range.mp hj)]
  have hsigma : (p.lnormCmd normShift).sigma m i =
      rowSigma (rowAt p.input (i * p.rowLen)) p.rowLen := by
    have hterm : ∀ j ∈ List.range p.rowLen,
        (int8At m ((p.lnormCmd normShift).inIdx i j) - (p.lnormCmd normShift).mean m i).natAbs ^ 2 =
          (rowAt p.input (i * p.rowLen) j -
            rowMean (rowAt p.input (i * p.rowLen)) p.rowLen).natAbs ^ 2 :=
      fun j hj ↦ by rw [hrow j (List.mem_range.mp hj), hmean]
    rw [LnormCmd.sigma, LnormCmd.variance, LnormCmd.varUpTo, hlen, List.map_congr_left hterm]
    rfl
  have hshift' : (p.lnormCmd normShift).normShift.toNat = normShift := toNat_shift hshift
  change BitVec.ofInt 8 ((p.lnormCmd normShift).normOf ((p.lnormCmd normShift).mean m i)
    ((p.lnormCmd normShift).sigma m i) (int8At m ((p.lnormCmd normShift).inIdx i j))) = _
  rw [hmean, hsigma, hrow j hj, LnormCmd.normOf, hshift', normVal]

end RowTest

theorem lnorm_test_passes {p : RowTest} (h : p.Fits) {normShift : ℕ} (hshift : normShift < 32)
    {env : ℕ → DeviceIn} {x : Watched} {a : Ideal} (hx : x.Rest a) (hq : 9 ≤ x.quiet)
    (henv : ∀ t, (env t).host.polls = true) :
    ∃ W, ∀ w, W ≤ w → (p.runLnorm normShift).Passes env w x := by
  have hlen := h.dims_le
  have hv := h.valid (p.on_lnorm normShift)
  have hin : p.inAddr.toNat + p.input.length ≤ 8192 := by rw [h.input]; exact h.inRange
  obtain ⟨hwords, hact⟩ := @after_rowLoads _ _ (p.lnormDesc normShift).toWords hin a
  rw [h.input] at hact
  refine Test.passes_of_table (b := .lnorm) hx hq henv (loads_rowLoads hin) hwords rfl
    (p.convToLnormCmd_toWords normShift) ⟨hv.numRows_pos, hv.rowLen_pos⟩ trivial rfl h.outRange
    (h.runWrites_eq (p.on_lnorm normShift) (p.lnormCmd normShift).rowWise_local _)
    (refLnorm_eq _ (by omega) hshift) fun e he ↦ ?_
  exact h.lnorm_val hshift hact (LoopNest.div_lt_of_lt_mul he) (Nat.mod_lt _ h.lenPos)

/-- Two elements with mean 2 and deviation 2. -/
def twoApart : RowTest := ⟨[0, 4], 1, 2, 0, 64⟩

theorem lnorm_test_passes_apart : (twoApart.runLnorm 3).expected = [-8, 8] ∧
    ∃ W, ∀ w, W ≤ w → (twoApart.runLnorm 3).Passes quietEnv w
      ⟨.reset (fun _ ↦ 0) (fun _ ↦ 0) (fun _ ↦ 0) fun _ ↦ 0, 0, 9⟩ := by
  refine ⟨by decide +kernel, lnorm_test_passes ⟨?_, ?_, ?_, ?_, ?_, ?_⟩ ?_
    (Watched.rest_reset _ _ _ _ _) le_rfl fun _ ↦ rfl⟩ <;> decide

end NpuTb

end LgNpu
