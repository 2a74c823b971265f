import LgNpu.Gemm.Feed
import LgNpu.Mac.Ending
import LgNpu.Mac.Exact

/-!
# Products end to end

A GEMM command in range writes the saturated products of the original contents,
each byte once, and nothing else.
-/

namespace LgNpu

namespace GemmCmd

variable (cmd : GemmCmd)

/-- `A` and `C` inside the activation buffer and disjoint, `B` and the bias
inside the weight buffer. -/
structure Valid (cmd : GemmCmd) : Prop extends Positive cmd where
  aRange : cmd.aAddr.toNat + cmd.mDim.toNat * cmd.kDim.toNat ≤ 8192
  cRange : cmd.cAddr.toNat + cmd.mDim.toNat * cmd.nDim.toNat ≤ 8192
  bRange : cmd.bAddr.toNat + cmd.kDim.toNat * cmd.nDim.toNat ≤ 4096
  biasRange : cmd.biasAddr.toNat + cmd.nDim.toNat ≤ 4096
  regions : cmd.aAddr.toNat + cmd.mDim.toNat * cmd.kDim.toNat ≤ cmd.cAddr.toNat ∨
    cmd.cAddr.toNat + cmd.mDim.toNat * cmd.nDim.toNat ≤ cmd.aAddr.toNat

/-! ## The reference product -/

variable (act : BitVec 13 → Byte) (wt : BitVec 12 → Byte)

/-- `A[m, k]`, `B[k, n]` and `bias[n]`. -/
def aVal (m k : ℕ) : ℤ := int8At act (cmd.aAddr.toNat + (m * cmd.kDim.toNat + k))

def bVal (k n : ℕ) : ℤ := (wt (.ofNat 12 (cmd.bAddr.toNat + (k * cmd.nDim.toNat + n)))).toInt

def biasOf (n : ℕ) : ℤ := (wt (.ofNat 12 (cmd.biasAddr.toNat + n))).toInt

/-- `C[m, n]`. -/
def cVal (m n : ℕ) : ℤ :=
  Signed.sat8 (activateInt cmd.actMode
    (∑ k ∈ Finset.range cmd.kDim.toNat, cmd.aVal act m k * cmd.bVal wt k n + cmd.biasOf wt n) >>>
      cmd.quantShift.toNat)

/-- The writes of a command, row by row, all from the original contents. -/
def tableWrites : Writes :=
  (List.range cmd.mDim.toNat).flatMap fun m ↦ (List.range cmd.nDim.toNat).map fun n ↦
    (.ofNat 16 (cmd.cAddr.toNat + (m * cmd.nDim.toNat + n)), .ofInt 8 (cmd.cVal act wt m n))

variable {cmd act wt}

/-! ## The job computes it -/

theorem actAddr_eq (i : ℕ) : cmd.job.actAddr i =
    .ofNat 16 (cmd.aAddr.toNat + (cmd.mAt i * cmd.kDim.toNat + cmd.kAt i)) := by
  rw [← add_ofNat, BitVec.ofNat_add, ← ofNat_mul_dim]
  rfl

theorem wtAddr_eq (i : ℕ) : cmd.job.wtAddr i =
    .ofNat 16 (cmd.bAddr.toNat + (cmd.kAt i * cmd.nDim.toNat + cmd.nAt i)) := by
  rw [← add_ofNat, BitVec.ofNat_add, ← ofNat_mul_dim]
  rfl

theorem wrAddr_eq (e : ℕ) : cmd.job.wrAddr e = .ofNat 16 (cmd.cAddr.toNat +
    (e / cmd.nDim.toNat * cmd.nDim.toNat + e % cmd.nDim.toNat)) := by
  rw [← add_ofNat, BitVec.ofNat_add, ← ofNat_mul_dim]
  rfl

theorem biasVal_eq (e : ℕ) : (cmd.job.biasVal wt e).toInt = cmd.biasOf wt (e % cmd.nDim.toNat) := by
  rw [biasOf, ← setWidth12_ofNat, ← add_ofNat]
  rfl

theorem dot_eq (e : ℕ) :
    cmd.job.dot (cmd.job.readsOf act) wt e cmd.job.its = ∑ k ∈ Finset.range cmd.kDim.toNat,
      cmd.aVal act (e / cmd.nDim.toNat) k * cmd.bVal wt k (e % cmd.nDim.toNat) := by
  refine Finset.sum_congr rfl fun k hk ↦ ?_
  have hk' : k < cmd.kDim.toNat := Finset.mem_range.mp hk
  have hi : e * cmd.job.its + k = e * cmd.kDim.toNat + k := rfl
  have helem : (e * cmd.kDim.toNat + k) / cmd.kDim.toNat = e := LoopNest.join_div hk'
  have hm : cmd.mAt (e * cmd.kDim.toNat + k) = e / cmd.nDim.toNat := by rw [mAt, helem]
  have hn : cmd.nAt (e * cmd.kDim.toNat + k) = e % cmd.nDim.toNat := by rw [nAt, helem]
  have hkAt : cmd.kAt (e * cmd.kDim.toNat + k) = k := LoopNest.join_mod hk'
  have hact : cmd.job.actVal (cmd.job.readsOf act) (e * cmd.kDim.toNat + k) =
      act ((cmd.job.actAddr (e * cmd.kDim.toNat + k)).setWidth 13) := rfl
  have hwt : cmd.job.wtVal wt (e * cmd.kDim.toNat + k) =
      wt ((cmd.job.wtAddr (e * cmd.kDim.toNat + k)).setWidth 12) := rfl
  rw [hi, hact, hwt, actAddr_eq, wtAddr_eq, setWidth13_ofNat, setWidth12_ofNat, hm,
    hn, hkAt]
  rfl

theorem exactOut_eq (e : ℕ) :
    cmd.job.exactOut (cmd.job.readsOf act) wt e =
      cmd.cVal act wt (e / cmd.nDim.toNat) (e % cmd.nDim.toNat) := by
  rw [MacJob.exactOut, dot_eq, biasVal_eq]
  rfl

theorem writes_eq (hp : cmd.Positive) :
    cmd.job.writes (cmd.job.readsOf act) wt = cmd.tableWrites act wt := by
  rw [tableWrites, ← LoopNest.map_range_mul]
  refine List.map_congr_left fun e _ ↦ ?_
  rw [wrAddr_eq, MacJob.outVal_eq cmd.kDim.isLt.le hp.k, exactOut_eq]

/-! ## The regions -/

theorem Valid.operand_lt (hv : cmd.Valid) {i : ℕ} (hi : i < cmd.job.total) :
    cmd.mAt i * cmd.kDim.toNat + cmd.kAt i < cmd.mDim.toNat * cmd.kDim.toNat := by
  have helem : i / cmd.kDim.toNat < cmd.mDim.toNat * cmd.nDim.toNat :=
    LoopNest.div_lt_of_lt_mul hi
  exact LoopNest.join_lt (LoopNest.div_lt_of_lt_mul helem) (Nat.mod_lt _ hv.k)

theorem Valid.disjoint (hv : cmd.Valid) : cmd.job.Disjoint := by
  intro i hi _ e he hsame
  have hlt := hv.operand_lt hi
  have he' : e < cmd.mDim.toNat * cmd.nDim.toNat := he
  have haRange := hv.aRange
  have hcRange := hv.cRange
  have hregions := hv.regions
  rw [actAddr_eq, wrAddr_eq, LoopNest.div_mul_add_mod, setWidth13_ofNat, setWidth13_ofNat]
    at hsame
  have hnat := congrArg BitVec.toNat hsame
  simp only [BitVec.toNat_ofNat] at hnat
  omega

theorem Valid.nodup (hv : cmd.Valid) : ((cmd.tableWrites act wt).map Prod.fst).Nodup := by
  have hcRange := hv.cRange
  rw [← writes_eq hv.toPositive, MacJob.writes, MacJob.writesUpTo, List.map_map]
  refine List.Nodup.map_on (fun e he e' he' heq ↦ ?_) List.nodup_range
  have hlt : e < cmd.mDim.toNat * cmd.nDim.toNat := List.mem_range.mp he
  have hlt' : e' < cmd.mDim.toNat * cmd.nDim.toNat := List.mem_range.mp he'
  have hnat := congrArg BitVec.toNat heq
  simp only [Function.comp_apply, wrAddr_eq, LoopNest.div_mul_add_mod,
    BitVec.toNat_ofNat] at hnat
  omega

end GemmCmd

/-- A GEMM command on the buffers: exactly the writes of the table, each to its
own byte. -/
theorem gemm_correct {cmd : GemmCmd} {x : Sys (Mac GemmFront)} (hv : cmd.Valid)
    (hq : Mac.Quiet GemmFront.Rest x) (hlog : x.log = []) :
    gemmBackend.Emits cmd (fun _ ↦ .all) x (cmd.tableWrites x.mem.act x.mem.wt) ∧
      ((cmd.tableWrites x.mem.act x.mem.wt).map Prod.fst).Nodup ∧
      (∀ t a, (∀ m < cmd.mDim.toNat, ∀ n < cmd.nDim.toNat,
          a ≠ .ofNat 13 (cmd.cAddr.toNat + (m * cmd.nDim.toNat + n))) →
        (gemmBackend.run cmd (fun _ ↦ .all) x t).mem.act a = x.mem.act a) ∧
      ∀ t, (gemmBackend.run cmd (fun _ ↦ .all) x t).mem.wt = x.mem.wt := by
  have hemits : gemmBackend.Emits cmd (fun _ ↦ .all) x (cmd.tableWrites x.mem.act x.mem.wt) := by
    rw [← GemmCmd.writes_eq hv.toPositive]
    exact MacJob.emits (GemmFront.feeds hv.toPositive) hv.job cmd.keeps hq hlog hv.disjoint
  refine ⟨hemits, hv.nodup, fun t a ha ↦ hemits.frame hlog (fun e he hsame ↦ ?_) t,
    fun t ↦ wt_run gemmBackend cmd _ x t⟩
  obtain ⟨m, hm, hrow⟩ := List.mem_flatMap.mp he
  obtain ⟨n, hn, rfl⟩ := List.mem_map.mp hrow
  refine ha m (List.mem_range.mp hm) n (List.mem_range.mp hn) ?_
  rw [← hsame]
  exact setWidth13_ofNat _

/-- Two rows of two, halved. -/
def halvedCmd : GemmCmd := ⟨0, 64, 0, 32, 2, 2, 2, 1, ActMode.actRelu⟩

theorem gemm_correct_halved :
    halvedCmd.tableWrites (fun a ↦ a.setWidth 8) (fun a ↦ a.setWidth 8) =
        [(64, 17), (65, 18), (66, 19), (67, 22)] ∧
      gemmBackend.Emits halvedCmd (fun _ ↦ .all)
        (.reset ⟨.reset, .reset⟩ (fun a ↦ a.setWidth 8) fun a ↦ a.setWidth 8)
        (halvedCmd.tableWrites (fun a ↦ a.setWidth 8) fun a ↦ a.setWidth 8) := by
  refine ⟨by decide, ?_⟩
  exact (@gemm_correct halvedCmd
    (.reset ⟨.reset, .reset⟩ (fun a ↦ a.setWidth 8) fun a ↦ a.setWidth 8)
    ⟨⟨by decide, by decide, by decide⟩, by decide, by decide, by decide, by decide, by decide⟩
    ⟨⟨rfl, rfl⟩, MacPath.quiet_reset, rfl⟩ rfl).1

end LgNpu
