import LgNpu.Softmax.Row
import LgNpu.RowWise
import LgNpu.Lib.Signed

/-!
# What a softmax command computes

The row-wise reference over the naturals, and its instance of the general
row-wise order of writes.
-/

namespace LgNpu

namespace SoftmaxCmd

variable (cmd : SoftmaxCmd) (m : BitVec 13 → Byte)

def inIdx (i j : ℕ) : ℕ := cmd.inAddr.toNat + i * cmd.rowLen.toNat + j

def outIdx (i j : ℕ) : ℕ := cmd.outAddr.toNat + i * cmd.rowLen.toNat + j

/-! ## Rows -/

/-- The maximum of the first `b` elements of row `i`. -/
def maxUpTo (i b : ℕ) : ℤ := ((List.range b).map fun j ↦ int8At m (cmd.inIdx i j)).foldl max (-128)

def rowMax (i : ℕ) : ℤ := cmd.maxUpTo m i cmd.rowLen.toNat

/-- `e_j` for element `j` of row `i`. -/
def expAt (i j : ℕ) : ℕ := expOf (cmd.rowMax m i - int8At m (cmd.inIdx i j)).toNat

def sumUpTo (i b : ℕ) : ℕ := ((List.range b).map (cmd.expAt m i)).sum

def rowSum (i : ℕ) : ℕ := cmd.sumUpTo m i cmd.rowLen.toNat

/-- The writes of a command: `floor (e_j * 127 / sum)` for each element. -/
def writesOf : Writes :=
  (List.range cmd.numRows.toNat).flatMap fun i ↦
    (List.range cmd.rowLen.toNat).map fun j ↦
      (.ofNat 16 (cmd.outIdx i j), .ofNat 8 (cmd.expAt m i j * 127 / cmd.rowSum m i))

/-! ## The order of the hardware -/

/-- The third pass on one element: `e` is taken from the value read now. -/
def normOf (mx : ℤ) (sum : ℕ) (x : ℤ) : ℕ := expOf ((mx - x) % 256).toNat * 127 / sum

/-- Softmax as a row-wise operation: the scans leave the maximum and the sum. -/
def rowWise : RowWise (ℤ × ℕ) where
  inAddr := cmd.inAddr
  outAddr := cmd.outAddr
  numRows := cmd.numRows
  rowLen := cmd.rowLen
  stat m i := (cmd.rowMax m i, cmd.rowSum m i)
  val st x := .ofNat 8 (normOf st.1 st.2 x)

def rowOf (i j : ℕ) : ℤ := int8At m (cmd.inIdx i j)

theorem rowOf_ge (i j : ℕ) : -128 ≤ cmd.rowOf m i j := (int8At_bounds m _).1

theorem maxUpTo_succ (i b : ℕ) :
    cmd.maxUpTo m i (b + 1) = max (cmd.maxUpTo m i b) (int8At m (cmd.inIdx i b)) :=
  SoftmaxRow.maxUpTo_succ (cmd.rowOf m i) b

theorem sumUpTo_succ (i b : ℕ) :
    cmd.sumUpTo m i (b + 1) = cmd.sumUpTo m i b + cmd.expAt m i b :=
  SoftmaxRow.expUpTo_succ (cmd.rowOf m i) _ b

theorem maxUpTo_bounds (i b : ℕ) : -128 ≤ cmd.maxUpTo m i b ∧ cmd.maxUpTo m i b ≤ 127 :=
  ⟨SoftmaxRow.neg_le_maxUpTo (cmd.rowOf m i) b,
    SoftmaxRow.maxUpTo_le (by norm_num) fun _ _ ↦ (int8At_bounds m _).2⟩

theorem le_maxUpTo {i j b : ℕ} (h : j < b) : int8At m (cmd.inIdx i j) ≤ cmd.maxUpTo m i b :=
  @SoftmaxRow.le_maxUpTo (cmd.rowOf m i) j b h

theorem le_rowSum (hL : 0 < cmd.rowLen.toNat) (i : ℕ) : 65534 ≤ cmd.rowSum m i :=
  SoftmaxRow.le_expUpTo hL fun j _ ↦ cmd.rowOf_ge m i j

/-- For an element of the row itself the distance to the maximum does not
wrap. -/
theorem expAt_eq {i j : ℕ} (hj : j < cmd.rowLen.toNat) :
    expOf ((cmd.rowMax m i - int8At m (cmd.inIdx i j)) % 256).toNat = cmd.expAt m i j := by
  have hle : int8At m (cmd.inIdx i j) ≤ cmd.rowMax m i := cmd.le_maxUpTo m hj
  have hx := int8At_bounds m (cmd.inIdx i j)
  have hmx : -128 ≤ cmd.rowMax m i ∧ cmd.rowMax m i ≤ 127 := cmd.maxUpTo_bounds m i _
  rw [expAt, Int.emod_eq_of_lt (by omega) (by omega)]

theorem rowWise_local : cmd.rowWise.Local := by
  intro m m' i h
  change ∀ j < cmd.rowLen.toNat, int8At m (cmd.inIdx i j) = int8At m' (cmd.inIdx i j) at h
  have hmax : cmd.rowMax m i = cmd.rowMax m' i := SoftmaxRow.maxUpTo_congr h
  have hsum : cmd.rowSum m i = cmd.rowSum m' i :=
    SoftmaxRow.expUpTo_congr fun j hj ↦ congrArg₂ _ hmax (h j hj)
  exact congrArg₂ Prod.mk hmax hsum

theorem tableWrites_eq : cmd.rowWise.tableWrites m = cmd.writesOf m := by
  rw [RowWise.tableWrites, writesOf]
  refine List.flatMap_congr fun i _ ↦ List.map_congr_left fun j hj ↦ ?_
  rw [← cmd.expAt_eq m (List.mem_range.mp hj)]
  rfl

end SoftmaxCmd

end LgNpu
