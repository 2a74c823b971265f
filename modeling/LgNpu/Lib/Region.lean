import LgNpu.Lib.WriteLog
import Mathlib.Algebra.Order.Ring.Nat

/-!
# Vectors in a memory

A vector written cell by cell from an address on, as a log: what it leaves in
its own region, and that it leaves the rest alone.
-/

namespace Region

variable {β : Type*} {w : ℕ}

/-- The writes that put `v 0, …, v (len - 1)` at `base`. -/
def cells (w base len : ℕ) (v : ℕ → β) : List (BitVec w × β) :=
  (List.range len).map fun i ↦ (.ofNat w (base + i), v i)

/-- The vector is in the memory. -/
def Holds (m : BitVec w → β) (base len : ℕ) (v : ℕ → β) : Prop :=
  ∀ i < len, m (.ofNat w (base + i)) = v i

variable {base len : ℕ} {v : ℕ → β} {m : BitVec w → β}

theorem cells_succ : cells w base (len + 1) v =
    cells w base len v ++ [(.ofNat w (base + len), v len)] := by
  simp [cells, List.range_succ]

theorem ofNat_inj {i j : ℕ} (hi : i < 2 ^ w) (hj : j < 2 ^ w)
    (h : BitVec.ofNat w i = BitVec.ofNat w j) : i = j := by
  have hnat := congrArg BitVec.toNat h
  rwa [BitVec.toNat_ofNat, BitVec.toNat_ofNat, Nat.mod_eq_of_lt hi, Nat.mod_eq_of_lt hj] at hnat

theorem nodup_cells (h : base + len ≤ 2 ^ w) : ((cells w base len v).map Prod.fst).Nodup := by
  rw [cells, List.map_map]
  refine List.Nodup.map_on (fun i hi j hj hij ↦ ?_) List.nodup_range
  have hi' := List.mem_range.mp hi
  have hj' := List.mem_range.mp hj
  have := ofNat_inj (by omega) (by omega) hij
  omega

theorem holds_cells (h : base + len ≤ 2 ^ w) :
    Holds (WriteLog.replay m (cells w base len v)) base len v := by
  intro i hi
  apply WriteLog.replay_of_mem (nodup_cells h)
  exact List.mem_map_of_mem (List.mem_range.mpr hi)

/-- A vector elsewhere survives. -/
theorem Holds.cells {base' len' : ℕ} {v' : ℕ → β} (hv : Holds m base' len' v')
    (h : base + len ≤ 2 ^ w) (h' : base' + len' ≤ 2 ^ w)
    (hdis : base' + len' ≤ base ∨ base + len ≤ base') :
    Holds (WriteLog.replay m (cells w base len v)) base' len' v' := by
  intro i hi
  rw [WriteLog.replay_of_notMem]
  · exact hv i hi
  · intro c hc hci
    obtain ⟨j, hj, rfl⟩ := List.mem_map.mp hc
    have hj' := List.mem_range.mp hj
    have := ofNat_inj (by omega) (by omega) hci
    omega

theorem Holds.congr {v' : ℕ → β} (hv : Holds m base len v) (h : ∀ i < len, v i = v' i) :
    Holds m base len v' := fun i hi ↦ (hv i hi).trans (h i hi)

end Region
