import LgNpu.System
import LgNpu.Lib.LoopNest

/-!
# Row-wise operations

Softmax and layer normalisation first scan a row for some statistic and then
replace its elements one by one, reading each again just before it is written.
`runWrites` is that order of writes; when the two regions are identical or
disjoint it is the table `tableWrites` of the original contents.
-/

namespace LgNpu

structure RowWise (σ : Type) where
  inAddr : Addr
  outAddr : Addr
  numRows : Dim
  rowLen : Dim
  /-- What the scans of a row leave behind. -/
  stat : (BitVec 13 → Byte) → ℕ → σ
  val : σ → ℤ → Byte

namespace RowWise

variable {σ : Type} (c : RowWise σ) (m : BitVec 13 → Byte)

def inIdx (i j : ℕ) : ℕ := c.inAddr.toNat + i * c.rowLen.toNat + j

def outIdx (i j : ℕ) : ℕ := c.outAddr.toNat + i * c.rowLen.toNat + j

def size : ℕ := c.numRows.toNat * c.rowLen.toNat

/-- Positive sizes, both regions inside the activation buffer, identical or
disjoint. -/
structure Valid : Prop where
  numRows_pos : 0 < c.numRows.toNat
  rowLen_pos : 0 < c.rowLen.toNat
  inRange : c.inAddr.toNat + c.size ≤ 8192
  outRange : c.outAddr.toNat + c.size ≤ 8192
  regions : c.inAddr = c.outAddr ∨ c.inAddr.toNat + c.size ≤ c.outAddr.toNat ∨
    c.outAddr.toNat + c.size ≤ c.inAddr.toNat

/-! ## The order of the hardware -/

/-- The first `n` writes of row `i`, whose scans saw `m`. -/
def rowWrites (i n : ℕ) : Writes :=
  WriteLog.program store
    (fun j m' ↦ [(.ofNat 16 (c.outIdx i j), c.val (c.stat m i) (int8At m' (c.inIdx i j)))]) m n

def runWrites (n : ℕ) : Writes :=
  WriteLog.program store (fun i m' ↦ c.rowWrites m' i c.rowLen.toNat) m n

/-- The activation buffer when row `i` starts. -/
def rowMem (i : ℕ) : BitVec 13 → Byte := store m (c.runWrites m i)

/-- The log before element `j` of row `i` is written. -/
def logAt (i j : ℕ) : Writes := c.runWrites m i ++ c.rowWrites (c.rowMem m i) i j

/-- The value of element `j` of row `i` when it is read for the last time. -/
def readAt (i j : ℕ) : ℤ := int8At (store m (c.logAt m i j)) (c.inIdx i j)

theorem length_rowWrites (i n : ℕ) : (c.rowWrites m i n).length = n := by
  rw [rowWrites, WriteLog.length_program (L := 1) _ _ _ fun _ _ ↦ rfl, Nat.mul_one]

theorem length_runWrites (n : ℕ) : (c.runWrites m n).length = n * c.rowLen.toNat :=
  WriteLog.length_program _ _ _ (fun i m' ↦ c.length_rowWrites m' i _) n

theorem length_logAt (i j : ℕ) : (c.logAt m i j).length = i * c.rowLen.toNat + j := by
  rw [logAt, List.length_append, length_runWrites, length_rowWrites]

theorem logAt_zero (i : ℕ) : c.logAt m i 0 = c.runWrites m i := List.append_nil _

theorem logAt_succ (i j : ℕ) : c.logAt m i (j + 1) = c.logAt m i j ++
    [(.ofNat 16 (c.outIdx i j), c.val (c.stat (c.rowMem m i) i) (c.readAt m i j))] := by
  rw [logAt, logAt, rowWrites, WriteLog.program_succ, ← List.append_assoc, readAt, logAt,
    store_append]
  rfl

theorem logAt_row (i : ℕ) : c.logAt m i c.rowLen.toNat = c.runWrites m (i + 1) := rfl

theorem logAt_isPrefix {i j : ℕ} (hi : i < c.numRows.toNat) (hj : j ≤ c.rowLen.toNat) :
    c.logAt m i j <+: c.runWrites m c.numRows.toNat := by
  refine List.IsPrefix.trans ?_ (WriteLog.program_isPrefix store
    (fun i m' ↦ c.rowWrites m' i c.rowLen.toNat) m (show i + 1 ≤ c.numRows.toNat from hi))
  rw [WriteLog.program_succ, logAt]
  exact (List.prefix_append_right_inj _).mpr (WriteLog.program_isPrefix _ _ _ hj)

/-! ## Addresses -/

theorem map_fst_rowWrites (i n : ℕ) : (c.rowWrites m i n).map Prod.fst =
    (List.range n).map fun j ↦ .ofNat 16 (c.outIdx i j) := by
  induction n with
  | zero => rfl
  | succ n ih =>
      rw [rowWrites] at ih ⊢
      rw [WriteLog.program_succ, List.map_append, ih, List.range_succ, List.map_append]
      rfl

/-- The `e`-th write goes to the `e`-th output byte. -/
theorem map_fst_runWrites (n : ℕ) : (c.runWrites m n).map Prod.fst =
    (List.range (n * c.rowLen.toNat)).map fun e ↦ .ofNat 16 (c.outAddr.toNat + e) := by
  induction n with
  | zero => simp [runWrites]
  | succ n ih =>
      rw [runWrites] at ih ⊢
      rw [WriteLog.program_succ, List.map_append, ih, map_fst_rowWrites, Nat.succ_mul,
        List.range_add, List.map_append, List.map_map]
      simp only [outIdx, Function.comp_def, Nat.add_assoc]

theorem map_fst_logAt (i j : ℕ) : (c.logAt m i j).map Prod.fst =
    (List.range (i * c.rowLen.toNat + j)).map fun e ↦ .ofNat 16 (c.outAddr.toNat + e) := by
  rw [logAt, List.map_append, map_fst_runWrites, map_fst_rowWrites, List.range_add,
    List.map_append, List.map_map]
  simp only [outIdx, Function.comp_def, Nat.add_assoc]

variable {c m}

theorem nodup_runWrites (hv : c.Valid) :
    ((c.runWrites m c.numRows.toNat).map Prod.fst).Nodup := by
  rw [map_fst_runWrites]
  refine List.Nodup.map_on (fun i hi j hj hij ↦ ?_) List.nodup_range
  have hout := hv.outRange
  have hi' := List.mem_range.mp hi
  have hj' := List.mem_range.mp hj
  have hnat := congrArg BitVec.toNat hij
  rw [size] at hout
  simp only [BitVec.toNat_ofNat] at hnat
  omega

/-- Only output bytes are written. -/
theorem store_of_isPrefix {ws : Writes} (hws : ws <+: c.runWrites m c.numRows.toNat) {a : BitVec 13}
    (ha : ∀ e < c.size, a ≠ .ofNat 13 (c.outAddr.toNat + e)) : store m ws a = m a := by
  refine store_of_notMem fun w hw hwa ↦ ?_
  have hmem := List.mem_map_of_mem (f := Prod.fst) (hws.subset hw)
  rw [map_fst_runWrites] at hmem
  obtain ⟨e, he, hwe⟩ := List.mem_map.mp hmem
  refine ha e (List.mem_range.mp he) ?_
  rw [← hwa, ← hwe]
  exact setWidth13_ofNat _

/-! ## In place or onto a disjoint region -/

variable (c m) in
/-- The writes computed from the original contents at once. -/
def tableWrites : Writes :=
  (List.range c.numRows.toNat).flatMap fun i ↦ (List.range c.rowLen.toNat).map fun j ↦
    (.ofNat 16 (c.outIdx i j), c.val (c.stat m i) (int8At m (c.inIdx i j)))

/-- A row is read before anything overwrites it. -/
theorem int8At_store (hv : c.Valid) {ws : Writes} {e q : ℕ} (hq : q < c.size) (he : e ≤ q)
    (hws : ws.map Prod.fst = (List.range e).map fun e ↦ .ofNat 16 (c.outAddr.toNat + e)) :
    int8At (store m ws) (c.inAddr.toNat + q) = int8At m (c.inAddr.toNat + q) := by
  have hin := hv.inRange
  have hout := hv.outRange
  have hreg : c.inAddr.toNat = c.outAddr.toNat ∨ _ := hv.regions.imp_left (congrArg _)
  rw [int8At, int8At, store_of_notMem]
  intro w hw hwa
  obtain ⟨e', he', hwe⟩ := List.mem_map.mp (hws ▸ List.mem_map_of_mem (f := Prod.fst) hw)
  have hlt := List.mem_range.mp he'
  rw [← hwe] at hwa
  have hnat := congrArg BitVec.toNat hwa
  simp only [BitVec.toNat_setWidth, BitVec.toNat_ofNat] at hnat
  omega

theorem rowMem_eq (hv : c.Valid) {i j : ℕ} (hi : i < c.numRows.toNat) (hj : j < c.rowLen.toNat) :
    int8At (c.rowMem m i) (c.inIdx i j) = int8At m (c.inIdx i j) := by
  rw [rowMem, inIdx, Nat.add_assoc]
  exact int8At_store hv (LoopNest.join_lt hi hj) (Nat.le_add_right _ _) (c.map_fst_runWrites m i)

theorem readAt_eq (hv : c.Valid) {i j : ℕ} (hi : i < c.numRows.toNat) (hj : j < c.rowLen.toNat) :
    c.readAt m i j = int8At m (c.inIdx i j) := by
  rw [readAt, inIdx, Nat.add_assoc]
  exact int8At_store hv (LoopNest.join_lt hi hj) le_rfl (c.map_fst_logAt m i j)

/-- The statistic of a row only looks at that row. -/
def Local (c : RowWise σ) : Prop := ∀ m m' i,
  (∀ j < c.rowLen.toNat, int8At m (c.inIdx i j) = int8At m' (c.inIdx i j)) → c.stat m i = c.stat m' i

theorem stat_rowMem (hv : c.Valid) (hl : c.Local) {i : ℕ} (hi : i < c.numRows.toNat) :
    c.stat (c.rowMem m i) i = c.stat m i := hl _ _ _ fun _ hj ↦ rowMem_eq hv hi hj

theorem runWrites_eq_tableWrites (hv : c.Valid) (hl : c.Local) :
    c.runWrites m c.numRows.toNat = c.tableWrites m := by
  rw [runWrites, tableWrites]
  refine WriteLog.program_eq_flatMap _ _ _ _ fun i hi ↦ ?_
  rw [← runWrites, ← rowMem, rowWrites, List.map_eq_flatMap]
  refine WriteLog.program_eq_flatMap _ _ _ _ fun j hj ↦ ?_
  have hread := readAt_eq (m := m) hv hi hj
  rw [readAt, logAt, store_append, ← rowMem] at hread
  rw [← rowWrites, hread, stat_rowMem hv hl hi]

end RowWise

end LgNpu
