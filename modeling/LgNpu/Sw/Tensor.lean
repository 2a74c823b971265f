import LgNpu.Pkg
import LgNpu.Lib.CountedLoop
import LgNpu.Lib.LoopNest
import LgNpu.Lib.WriteLog
import Mathlib.Data.List.Perm.Basic
import Mathlib.Data.List.Basic

/-!
# Tensor descriptors and layout conversion

`lgnpu_tensor.h` and `tensor_desc.c`.  Index arithmetic is checked: a product
that does not fit its C type stops the run with a fault, for a signed `int` as
undefined behaviour and for `size_t` because no index is meant to wrap.
Buffers are functions of the offset from their pointer, and `dst` and `src` do
not overlap.
-/

namespace LgNpu

/-! ## Descriptors -/

inductive NpuTensorErr
  | ok | nullPtr | zeroDim | batchUnsup | layoutUnknown | overflow | bufTooSmall
  deriving DecidableEq

def layoutNhwc : BitVec 32 := 0
def layoutNchw : BitVec 32 := 1
def layoutCount : BitVec 32 := 2

structure NpuTensorDesc where
  baseAddr : BitVec 16
  dimN : BitVec 16
  dimH : BitVec 16
  dimW : BitVec 16
  dimC : BitVec 16
  /-- Any value of the underlying integer, named or not. -/
  layout : BitVec 32

def npuTensorValidate : Option NpuTensorDesc → NpuTensorErr
  | none => .nullPtr
  | some desc =>
      if desc.dimN = 0 ∨ desc.dimH = 0 ∨ desc.dimW = 0 ∨ desc.dimC = 0 then .zeroDim
      else if desc.dimN ≠ 1 then .batchUnsup
      else if layoutCount.ule desc.layout then .layoutUnknown
      else
        let hw := desc.dimH.setWidth 32 * desc.dimW.setWidth 32
        if (desc.dimH.setWidth 32).umulOverflow (desc.dimW.setWidth 32) ||
            hw.umulOverflow (desc.dimC.setWidth 32) then .overflow
        else .ok

namespace NpuTensorDesc

/-- The number of bytes of one image. -/
def hwc (d : NpuTensorDesc) : ℕ := d.dimH.toNat * d.dimW.toNat * d.dimC.toNat

/-- What validation is for: one image, no empty dimension, a known layout and a
size of 32 bits. -/
structure Valid (d : NpuTensorDesc) : Prop where
  batch : d.dimN = 1
  height : 0 < d.dimH.toNat
  width : 0 < d.dimW.toNat
  channels : 0 < d.dimC.toNat
  layout : d.layout = layoutNhwc ∨ d.layout = layoutNchw
  size : d.hwc < 2 ^ 32

end NpuTensorDesc

theorem mul_lt_sq {x y : BitVec 16} : x.toNat * y.toNat < 2 ^ 32 :=
  calc x.toNat * y.toNat < 2 ^ 16 * 2 ^ 16 := Nat.mul_lt_mul'' x.isLt y.isLt
    _ = 2 ^ 32 := by norm_num

theorem toNat_widen (x : BitVec 16) : (x.setWidth 32).toNat = x.toNat := by
  have := x.isLt
  rw [BitVec.toNat_setWidth, Nat.mod_eq_of_lt (by omega)]

theorem ne_zero_iff_pos (x : BitVec 16) : ¬x = 0 ↔ 0 < x.toNat := by
  rw [Nat.pos_iff_ne_zero, ne_eq, ← BitVec.toNat_inj]
  rfl

theorem layoutCount_ule (x : BitVec 32) :
    layoutCount.ule x = false ↔ x = layoutNhwc ∨ x = layoutNchw := by
  simp only [layoutCount, layoutNhwc, layoutNchw, BitVec.ule_eq_decide, decide_eq_false_iff_not]
  constructor
  · intro h
    bv_omega
  · rintro (h | h) <;> rw [h] <;> decide

/-- The first product always fits; the second is the size. -/
theorem mul_overflow_eq (d : NpuTensorDesc) :
    ((d.dimH.setWidth 32).umulOverflow (d.dimW.setWidth 32) ||
      (d.dimH.setWidth 32 * d.dimW.setWidth 32).umulOverflow (d.dimC.setWidth 32)) =
      decide (2 ^ 32 ≤ d.hwc) := by
  have hlt := @mul_lt_sq d.dimH d.dimW
  have hhw : (d.dimH.setWidth 32 * d.dimW.setWidth 32).toNat = d.dimH.toNat * d.dimW.toNat := by
    rw [BitVec.toNat_mul, toNat_widen, toNat_widen, Nat.mod_eq_of_lt hlt]
  simp only [BitVec.umulOverflow, hhw, toNat_widen, ge_iff_le]
  rw [decide_eq_false (by omega), Bool.false_or]
  rfl

theorem npuTensorValidate_eq_ok (d : NpuTensorDesc) :
    npuTensorValidate (some d) = .ok ↔ d.Valid := by
  simp only [npuTensorValidate, mul_overflow_eq]
  constructor
  · intro h
    split_ifs at h with hz hn hl hs
    simp only [not_or, ne_zero_iff_pos] at hz
    exact ⟨not_not.mp hn, hz.2.1, hz.2.2.1, hz.2.2.2,
      (layoutCount_ule _).mp (Bool.eq_false_iff.mpr hl), by simpa using hs⟩
  · intro h
    rw [if_neg, if_neg (not_not.mpr h.batch), if_neg, if_neg]
    · simpa using h.size
    · simp [(layoutCount_ule _).mpr h.layout]
    · simp only [not_or, ne_zero_iff_pos]
      exact ⟨by rw [h.batch]; decide, h.height, h.width, h.channels⟩

/-! ## Checked arithmetic and copies -/

inductive Fault
  | intOverflow | sizeWrap
  deriving DecidableEq

/-- A product of `size_t`. -/
def sizeMul (a b : ℕ) : Except Fault ℕ := if a * b < 2 ^ 64 then .ok (a * b) else .error .sizeWrap

/-- A product of two `uint16_t`, which are promoted to `int`. -/
def intMul (a b : BitVec 16) : Except Fault ℕ :=
  if a.toNat * b.toNat < 2 ^ 31 then .ok (a.toNat * b.toNat) else .error .intOverflow

/-- The destination and the copies made so far, as offsets into both buffers. -/
structure CopyState where
  dst : ℕ → Byte
  trace : List (ℕ × ℕ)

/-- `dst[a.1] = src[a.2]` -/
def CopyState.copyByte (src : ℕ → Byte) (s : CopyState) (a : ℕ × ℕ) : CopyState where
  dst := Function.update s.dst a.1 (src a.2)
  trace := s.trace ++ [a]

def memmove (src : ℕ → Byte) (total : ℕ) (s : CopyState) : CopyState :=
  ((List.range total).map fun i ↦ (i, i)).foldl (CopyState.copyByte src) s

/-! ## Conversion -/

open CountedLoop (forLt) in
/-- The permutation, with the offsets of the source's pointers. -/
def convertNchwToNhwc (src : ℕ → Byte) (N H W C : BitVec 16) (s : CopyState) :
    Except Fault CopyState := do
  let HW ← sizeMul H.toNat W.toNat
  let WC ← sizeMul W.toNat C.toNat
  let HWC ← sizeMul HW C.toNat
  forLt N (fun n s ↦ do
    let dn ← sizeMul n.toNat HWC
    let sn ← sizeMul n.toNat HWC
    forLt C (fun c s ↦ do
      let dc := dn + c.toNat
      let sc := sn + (← sizeMul c.toNat HW)
      forLt H (fun h s ↦ do
        let sh := sc + (← sizeMul h.toNat W.toNat)
        let dh := dc + (← sizeMul h.toNat WC)
        forLt W (fun w s ↦ do
          let wC ← intMul w C
          .ok (s.copyByte src (dh + wC, sh + w.toNat))) 0 s) 0 s) 0 s) 0 s

def npuTensorElementCount (desc : NpuTensorDesc) : Except Fault ℕ := do
  let nh ← sizeMul desc.dimN.toNat desc.dimH.toNat
  let nhw ← sizeMul nh desc.dimW.toNat
  sizeMul nhw desc.dimC.toNat

def npuTensorByteSize (desc : NpuTensorDesc) : Except Fault ℕ := npuTensorElementCount desc

/-- A return code, the destination and the copies made. -/
structure Converted where
  err : NpuTensorErr
  dst : Option (ℕ → Byte)
  trace : List (ℕ × ℕ)

def npuTensorConvertToNhwc (dst src : Option (ℕ → Byte)) (desc : Option NpuTensorDesc)
    (bufBytes : BitVec 64) : Except Fault Converted :=
  match dst, src with
  | some out, some inp =>
      match npuTensorValidate desc, desc with
      | .ok, some d => do
          let total ← npuTensorByteSize d
          if bufBytes.toNat < total then .ok ⟨.bufTooSmall, dst, []⟩
          else if d.layout = layoutNhwc then
            let s := memmove inp total ⟨out, []⟩
            .ok ⟨.ok, some s.dst, s.trace⟩
          else if d.layout = layoutNchw then
            let s ← convertNchwToNhwc inp d.dimN d.dimH d.dimW d.dimC ⟨out, []⟩
            .ok ⟨.ok, some s.dst, s.trace⟩
          else .ok ⟨.layoutUnknown, dst, []⟩
      | err, _ => .ok ⟨err, dst, []⟩
  | _, _ => .ok ⟨.nullPtr, dst, []⟩

/-! ## No `size_t` product wraps -/

section

variable {a b : ℕ}

theorem sizeMul_ok (h : a * b < 2 ^ 64) : sizeMul a b = .ok (a * b) := if_pos h

theorem intMul_ok {x y : BitVec 16} (h : x.toNat * y.toNat < 2 ^ 31) :
    intMul x y = .ok (x.toNat * y.toNat) := if_pos h

theorem intMul_error {x y : BitVec 16} (h : 2 ^ 31 ≤ x.toNat * y.toNat) :
    intMul x y = .error .intOverflow := if_neg (by omega)

/-- Three dimensions stay far below `2 ^ 64`, four still below. -/
theorem mul_lt_cube (x y z : BitVec 16) : x.toNat * y.toNat * z.toNat < 2 ^ 48 :=
  calc x.toNat * y.toNat * z.toNat < 2 ^ 32 * 2 ^ 16 := Nat.mul_lt_mul'' mul_lt_sq z.isLt
    _ = 2 ^ 48 := by norm_num

theorem sizeMul_sq (x y : BitVec 16) : sizeMul x.toNat y.toNat = .ok (x.toNat * y.toNat) :=
  sizeMul_ok (by have := @mul_lt_sq x y; omega)

theorem sizeMul_cube (x y z : BitVec 16) :
    sizeMul (x.toNat * y.toNat) z.toNat = .ok (x.toNat * y.toNat * z.toNat) :=
  sizeMul_ok (by have := mul_lt_cube x y z; omega)

theorem sizeMul_plane (x y z : BitVec 16) :
    sizeMul x.toNat (y.toNat * z.toNat) = .ok (x.toNat * (y.toNat * z.toNat)) := by
  rw [sizeMul_ok]
  have := mul_lt_cube y z x
  rw [Nat.mul_comm]
  omega

theorem sizeMul_volume (x y z v : BitVec 16) :
    sizeMul v.toNat (x.toNat * y.toNat * z.toNat) =
      .ok (v.toNat * (x.toNat * y.toNat * z.toNat)) := by
  rw [sizeMul_ok]
  calc v.toNat * (x.toNat * y.toNat * z.toNat) < 2 ^ 16 * 2 ^ 48 :=
        Nat.mul_lt_mul'' v.isLt (mul_lt_cube x y z)
    _ = 2 ^ 64 := by norm_num

theorem npuTensorByteSize_eq {d : NpuTensorDesc} (h : d.dimN = 1) :
    npuTensorByteSize d = .ok d.hwc := by
  have hn : d.dimN.toNat = 1 := by rw [h]; rfl
  have hnh : sizeMul d.dimN.toNat d.dimH.toNat = .ok d.dimH.toNat := by
    rw [hn, sizeMul_ok (by have := d.dimH.isLt; omega), Nat.one_mul]
  simp only [npuTensorByteSize, npuTensorElementCount, hnh, bind, Except.bind, sizeMul_sq,
    sizeMul_cube, NpuTensorDesc.hwc]

end

/-! ## The copies of a conversion -/

open LoopNest

theorem foldl_copyByte (src : ℕ → Byte) (l : List (ℕ × ℕ)) (s : CopyState) :
    l.foldl (CopyState.copyByte src) s =
      ⟨WriteLog.replay s.dst (l.map fun a ↦ (a.1, src a.2)), s.trace ++ l⟩ := by
  induction l generalizing s with
  | nil => simp
  | cons a l ih =>
      rw [List.foldl_cons, ih]
      simp [CopyState.copyByte]

/-- The copies of a conversion in the order of the loops. -/
def nchwCopies (H W C : ℕ) : List (ℕ × ℕ) :=
  (List.range C).flatMap fun c ↦ (List.range H).flatMap fun h ↦
    (List.range W).map fun w ↦ (rowMajor W C h w c, rowMajor H W c h w)

open CountedLoop in
/-- Without a signed overflow the innermost loop copies one row of one channel. -/
theorem row_loop_ok (src : ℕ → Byte) {W C : BitVec 16} (hint : (W.toNat - 1) * C.toNat < 2 ^ 31)
    (dh sh : ℕ) (s : CopyState) :
    forLt W (fun w s ↦ do
      let wC ← intMul w C
      .ok (s.copyByte src (dh + wC, sh + w.toNat))) 0 s =
    .ok ((List.range W.toNat).foldl
      (fun s w ↦ s.copyByte src (dh + w * C.toNat, sh + w)) s) := by
  refine forLt_eq_foldl (fun w hw s ↦ ?_) s
  have hle : w.toNat * C.toNat ≤ (W.toNat - 1) * C.toNat := Nat.mul_le_mul_right _ (by omega)
  rw [intMul_ok (by omega)]
  rfl

open CountedLoop in
theorem convertNchwToNhwc_ok (src : ℕ → Byte) {N H W C : BitVec 16} (hN : N = 1)
    (hint : (W.toNat - 1) * C.toNat < 2 ^ 31) (s : CopyState) :
    convertNchwToNhwc src N H W C s =
      .ok ((nchwCopies H.toNat W.toNat C.toNat).foldl (CopyState.copyByte src) s) := by
  simp only [convertNchwToNhwc, sizeMul_sq, sizeMul_cube, bind, Except.bind, sizeMul_volume,
    sizeMul_plane]
  have hrow := row_loop_ok src hint
  simp only [bind, Except.bind] at hrow
  simp only [hrow]
  -- Every level is a fold; with one image the outermost is a single round.
  let row (n c h : ℕ) (s : CopyState) : CopyState :=
    (List.range W.toNat).foldl (fun s w ↦ s.copyByte src
      (n * (H.toNat * W.toNat * C.toNat) + c + h * (W.toNat * C.toNat) + w * C.toNat,
        n * (H.toNat * W.toNat * C.toNat) + c * (H.toNat * W.toNat) + h * W.toNat + w)) s
  let channel (n c : ℕ) (s : CopyState) : CopyState :=
    (List.range H.toNat).foldl (fun s h ↦ row n c h s) s
  have hchannel : ∀ (n c : ℕ) (s : CopyState), forLt H (fun h s ↦ .ok (row n c h.toNat s)) 0 s =
      (.ok (channel n c s) : Except Fault CopyState) :=
    fun n c s ↦ @forLt_eq_foldl _ _ _ _ _ (fun s h ↦ row n c h s) (fun _ _ _ ↦ rfl) s
  have himage : ∀ (n : ℕ) (s : CopyState), forLt C (fun c s ↦ .ok (channel n c.toNat s)) 0 s =
      (.ok ((List.range C.toNat).foldl (fun s c ↦ channel n c s) s) : Except Fault CopyState) :=
    fun n s ↦ @forLt_eq_foldl _ _ _ _ _ (fun s c ↦ channel n c s) (fun _ _ _ ↦ rfl) s
  calc forLt N (fun n s ↦ forLt C (fun c s ↦ forLt H (fun h s ↦ .ok (row n.toNat c.toNat h.toNat s))
        0 s) 0 s) 0 s
      = .ok ((List.range N.toNat).foldl
          (fun s n ↦ (List.range C.toNat).foldl (fun s c ↦ channel n c s) s) s) := by
        simp only [hchannel, himage]
        exact @forLt_eq_foldl _ _ _ _ _
          (fun s n ↦ (List.range C.toNat).foldl (fun s c ↦ channel n c s) s) (fun _ _ _ ↦ rfl) s
    _ = .ok ((nchwCopies H.toNat W.toNat C.toNat).foldl (CopyState.copyByte src) s) := by
        have hdst : ∀ c h w, 0 * (H.toNat * W.toNat * C.toNat) + c + h * (W.toNat * C.toNat) +
            w * C.toNat = rowMajor W.toNat C.toNat h w c := fun c h w ↦ by
          rw [rowMajor]; ring
        have hsrc : ∀ c h w, 0 * (H.toNat * W.toNat * C.toNat) + c * (H.toNat * W.toNat) +
            h * W.toNat + w = rowMajor H.toNat W.toNat c h w := fun c h w ↦ by
          rw [rowMajor]; ring
        have hone : List.range N.toNat = [0] := by rw [hN]; rfl
        simp only [hone, List.foldl_cons, List.foldl_nil, nchwCopies, List.foldl_flatMap,
          List.foldl_map, channel, row, hdst, hsrc]

theorem mem_nchwCopies {H W C : ℕ} {a : ℕ × ℕ} : a ∈ nchwCopies H W C ↔
    ∃ c < C, ∃ h < H, ∃ w < W, (rowMajor W C h w c, rowMajor H W c h w) = a := by
  simp [nchwCopies]

theorem length_nchwCopies (H W C : ℕ) : (nchwCopies H W C).length = H * W * C := by
  simp [nchwCopies, Nat.mul_comm]

/-- A list that is long enough to be an enumeration and misses nothing is one. -/
theorem perm_range_of_forall_mem {l : List ℕ} {n : ℕ} (hlen : l.length = n)
    (h : ∀ i < n, i ∈ l) : l.Perm (List.range n) := by
  have hsub : (List.range n).Subperm l :=
    List.subperm_of_subset List.nodup_range fun i hi ↦ h i (List.mem_range.mp hi)
  exact (hsub.perm_of_length_le (by simp [hlen])).symm

theorem nchwCopies_fst_perm (H W C : ℕ) :
    ((nchwCopies H W C).map Prod.fst).Perm (List.range (H * W * C)) := by
  refine perm_range_of_forall_mem (by simp [length_nchwCopies]) fun n hn ↦ ?_
  obtain ⟨h, w, c, hh, hw, hc, rfl⟩ := exists_rowMajor hn
  exact List.mem_map.mpr ⟨_, mem_nchwCopies.mpr ⟨c, hc, h, hh, w, hw, rfl⟩, rfl⟩

theorem nchwCopies_snd_perm (H W C : ℕ) :
    ((nchwCopies H W C).map Prod.snd).Perm (List.range (H * W * C)) := by
  refine perm_range_of_forall_mem (by simp [length_nchwCopies]) fun n hn ↦ ?_
  obtain ⟨c, h, w, hc, hh, hw, rfl⟩ :=
    exists_rowMajor (show n < C * H * W by rwa [show C * H * W = H * W * C by ring])
  exact List.mem_map.mpr ⟨_, mem_nchwCopies.mpr ⟨c, hc, h, hh, w, hw, rfl⟩, rfl⟩

section

variable {src : ℕ → Byte} {l : List (ℕ × ℕ)} {n : ℕ} {s : CopyState}
  (hl : (l.map Prod.fst).Perm (List.range n))
include hl

/-- Copies to pairwise different places all stay. -/
theorem foldl_copyByte_of_mem {i j : ℕ} (h : (i, j) ∈ l) :
    (l.foldl (CopyState.copyByte src) s).dst i = src j := by
  have hfst : (l.map fun a ↦ (a.1, src a.2)).map Prod.fst = l.map Prod.fst := by simp
  rw [foldl_copyByte]
  exact WriteLog.replay_of_mem (by rw [hfst, hl.nodup_iff]; exact List.nodup_range)
    (List.mem_map_of_mem (f := fun a : ℕ × ℕ ↦ (a.1, src a.2)) h)

theorem foldl_copyByte_of_le {i : ℕ} (h : n ≤ i) :
    (l.foldl (CopyState.copyByte src) s).dst i = s.dst i := by
  rw [foldl_copyByte]
  refine WriteLog.replay_of_notMem fun a ha hai ↦ ?_
  obtain ⟨b, hb, rfl⟩ := List.mem_map.mp ha
  have hmem := hl.mem_iff.mp (List.mem_map_of_mem (f := Prod.fst) hb)
  rw [List.mem_range] at hmem
  simp only at hai
  omega

end

/-! ## The conversion -/

section

variable (desc : Option NpuTensorDesc) (bufBytes : BitVec 64) (dst src : ℕ → Byte)

/-- The conversion ran: `trace` writes every byte of the image once and reads
every byte once, and the layouts decide which goes where. -/
structure Placed (d : NpuTensorDesc) (out : ℕ → Byte) (trace : List (ℕ × ℕ)) : Prop where
  writes : (trace.map Prod.fst).Perm (List.range d.hwc)
  reads : (trace.map Prod.snd).Perm (List.range d.hwc)
  nhwc : d.layout = layoutNhwc → ∀ i < d.hwc, out i = src i
  nchw : d.layout = layoutNchw → ∀ h < d.dimH.toNat, ∀ w < d.dimW.toNat, ∀ c < d.dimC.toNat,
    out ((h * d.dimW.toNat + w) * d.dimC.toNat + c) =
      src ((c * d.dimH.toNat + h) * d.dimW.toNat + w)
  rest : ∀ i, d.hwc ≤ i → out i = dst i

/-- A run without a fault that succeeds for a valid descriptor and a large
enough buffer, and otherwise leaves the destination alone. -/
def Converts (r : Except Fault Converted) : Prop :=
  ∃ e out trace, r = .ok ⟨e, some out, trace⟩ ∧
    (e = .ok ↔ ∃ d, desc = some d ∧ d.Valid ∧ d.hwc ≤ bufBytes.toNat) ∧
    (e = .ok → ∀ d, desc = some d → Placed dst src d out trace) ∧
    (e ≠ .ok → out = dst ∧ trace = [])

/-- The last column of a channel lies `2 ^ 31` bytes or more behind the first. -/
def Overflows : Prop :=
  ∃ d, desc = some d ∧ d.Valid ∧ d.hwc ≤ bufBytes.toNat ∧ d.layout = layoutNchw ∧
    2 ^ 31 ≤ (d.dimW.toNat - 1) * d.dimC.toNat

variable {desc bufBytes dst src}

theorem convert_invalid {e : NpuTensorErr} (he : npuTensorValidate desc = e) (hne : e ≠ .ok) :
    npuTensorConvertToNhwc (some dst) (some src) desc bufBytes = .ok ⟨e, some dst, []⟩ := by
  cases desc with
  | none => rw [← he]; rfl
  | some d =>
      simp only [npuTensorConvertToNhwc, he]
      cases e <;> first | rfl | exact absurd rfl hne

theorem convert_valid {d : NpuTensorDesc} (hv : d.Valid) :
    npuTensorConvertToNhwc (some dst) (some src) (some d) bufBytes =
      if bufBytes.toNat < d.hwc then .ok ⟨.bufTooSmall, some dst, []⟩
      else if d.layout = layoutNhwc then
        .ok ⟨.ok, some (memmove src d.hwc ⟨dst, []⟩).dst, (memmove src d.hwc ⟨dst, []⟩).trace⟩
      else (convertNchwToNhwc src d.dimN d.dimH d.dimW d.dimC ⟨dst, []⟩).map fun s ↦
        ⟨.ok, some s.dst, s.trace⟩ := by
  simp only [npuTensorConvertToNhwc, (npuTensorValidate_eq_ok d).mpr hv,
    npuTensorByteSize_eq hv.batch, bind, Except.bind]
  split_ifs with hsmall hnhwc hnchw
  · rfl
  · rfl
  · cases convertNchwToNhwc src d.dimN d.dimH d.dimW d.dimC ⟨dst, []⟩ <;> rfl
  · exact absurd hv.layout (not_or.mpr ⟨hnhwc, hnchw⟩)

theorem placed_memmove {d : NpuTensorDesc} (h : d.layout = layoutNhwc) :
    Placed dst src d (memmove src d.hwc ⟨dst, []⟩).dst (memmove src d.hwc ⟨dst, []⟩).trace := by
  have hperm : (((List.range d.hwc).map fun i ↦ (i, i)).map Prod.fst).Perm (List.range d.hwc) := by
    rw [List.map_map]
    exact .of_eq (List.map_id _)
  have htrace : (memmove src d.hwc ⟨dst, []⟩).trace = (List.range d.hwc).map fun i ↦ (i, i) := by
    rw [memmove, foldl_copyByte]
    rfl
  refine ⟨by rw [htrace]; exact hperm, by rw [htrace, List.map_map]; exact .of_eq (List.map_id _),
    fun _ i hi ↦ ?_, fun hn ↦ ?_, fun i hi ↦ foldl_copyByte_of_le hperm hi⟩
  · exact foldl_copyByte_of_mem hperm (List.mem_map.mpr ⟨i, List.mem_range.mpr hi, rfl⟩)
  · rw [h] at hn
    exact absurd hn (by decide)

theorem placed_nchw {d : NpuTensorDesc} (h : d.layout = layoutNchw) {s : CopyState}
    (hs : s = (nchwCopies d.dimH.toNat d.dimW.toNat d.dimC.toNat).foldl (CopyState.copyByte src)
      ⟨dst, []⟩) : Placed dst src d s.dst s.trace := by
  have hperm := nchwCopies_fst_perm d.dimH.toNat d.dimW.toNat d.dimC.toNat
  have htrace : s.trace = nchwCopies d.dimH.toNat d.dimW.toNat d.dimC.toNat := by
    rw [hs, foldl_copyByte]
    rfl
  subst hs
  refine ⟨by rw [htrace]; exact hperm, by rw [htrace]; exact nchwCopies_snd_perm _ _ _,
    fun hn ↦ ?_, fun _ i hi w hw c hc ↦ ?_, fun i hi ↦ foldl_copyByte_of_le hperm hi⟩
  · rw [h] at hn
    exact absurd hn (by decide)
  · exact foldl_copyByte_of_mem hperm (mem_nchwCopies.mpr ⟨c, hc, i, hi, w, hw, rfl⟩)

open CountedLoop in
theorem row_loop_overflow {W C : BitVec 16} (hW : 0 < W.toNat)
    (hint : 2 ^ 31 ≤ (W.toNat - 1) * C.toNat) (dh sh : ℕ) (s : CopyState) :
    forLt W (fun w s ↦ do
      let wC ← intMul w C
      .ok (s.copyByte src (dh + wC, sh + w.toNat))) 0 s = .error .intOverflow := by
  have hlast : (W - 1).toNat = W.toNat - 1 := by bv_omega
  refine forLt_eq_error (fun w s e h ↦ ?_) (j := W - 1) (by omega) (fun s ↦ ?_) s
  · unfold intMul at h
    split at h
    · cases h
    · cases h
      rfl
  · rw [intMul_error (by rwa [hlast])]
    rfl

open CountedLoop in
/-- The first row of the first channel already runs into the overflow. -/
theorem convertNchwToNhwc_overflow {d : NpuTensorDesc} (hv : d.Valid)
    (hint : 2 ^ 31 ≤ (d.dimW.toNat - 1) * d.dimC.toNat) (s : CopyState) :
    convertNchwToNhwc src d.dimN d.dimH d.dimW d.dimC s = .error .intOverflow := by
  have hrow := @row_loop_overflow src _ _ hv.width hint
  simp only [bind, Except.bind] at hrow
  simp only [convertNchwToNhwc, sizeMul_sq, sizeMul_cube, bind, Except.bind, sizeMul_volume,
    sizeMul_plane, hrow]
  exact forLt_zero_of_error (by rw [hv.batch]; decide) (forLt_zero_of_error hv.channels
    (forLt_zero_of_error hv.height rfl))

/-- The conversion does what it is for unless the index of a column overflows
`int`, and `int` is the only type in which an index ever overflows. -/
theorem npuTensorConvertToNhwc_correct (desc : Option NpuTensorDesc) (bufBytes : BitVec 64)
    (dst src : ℕ → Byte) :
    (Converts desc bufBytes dst src (npuTensorConvertToNhwc (some dst) (some src) desc bufBytes) ↔
      ¬Overflows desc bufBytes) ∧
    (Overflows desc bufBytes → npuTensorConvertToNhwc (some dst) (some src) desc bufBytes =
      .error .intOverflow) := by
  have hfault : Overflows desc bufBytes → npuTensorConvertToNhwc (some dst) (some src) desc
      bufBytes = .error .intOverflow := by
    rintro ⟨d, rfl, hv, hbuf, hl, hint⟩
    rw [convert_valid hv, if_neg (by omega), if_neg (by rw [hl]; decide),
      convertNchwToNhwc_overflow hv hint]
    rfl
  refine ⟨⟨fun h hover ↦ ?_, fun h ↦ ?_⟩, hfault⟩
  · obtain ⟨e, out, trace, hr, -⟩ := h
    rw [hfault hover] at hr
    cases hr
  · by_cases hvalid : ∃ d, desc = some d ∧ d.Valid
    · obtain ⟨d, rfl, hv⟩ := hvalid
      have hfits : (∃ d', some d = some d' ∧ d'.Valid ∧ d'.hwc ≤ bufBytes.toNat) ↔
          d.hwc ≤ bufBytes.toNat := by
        constructor
        · rintro ⟨d', hd', -, hle⟩
          cases hd'
          exact hle
        · exact fun hle ↦ ⟨d, rfl, hv, hle⟩
      rw [Converts, convert_valid hv, hfits]
      split_ifs with hsmall hnhwc
      · exact ⟨_, _, _, rfl, by simpa using hsmall, nofun, fun _ ↦ ⟨rfl, rfl⟩⟩
      · refine ⟨_, _, _, rfl, by simpa using hsmall, fun _ d' hd' ↦ ?_, fun hne ↦ absurd rfl hne⟩
        cases hd'
        exact placed_memmove hnhwc
      · have hnchw := hv.layout.resolve_left hnhwc
        have hint : (d.dimW.toNat - 1) * d.dimC.toNat < 2 ^ 31 := by
          by_contra hnot
          exact h ⟨d, rfl, hv, by omega, hnchw, by omega⟩
        rw [convertNchwToNhwc_ok src hv.batch hint]
        refine ⟨_, _, _, rfl, by simpa using hsmall, fun _ d' hd' ↦ ?_, fun hne ↦ absurd rfl hne⟩
        cases hd'
        exact placed_nchw hnchw rfl
    · have herr : npuTensorValidate desc ≠ .ok := by
        intro hok
        cases desc with
        | none => cases hok
        | some d => exact hvalid ⟨d, rfl, (npuTensorValidate_eq_ok d).mp hok⟩
      refine ⟨_, _, _, convert_invalid rfl herr, iff_of_false herr ?_, fun hok ↦ absurd hok herr,
        fun _ ↦ ⟨rfl, rfl⟩⟩
      rintro ⟨d, hd, hv, -⟩
      exact hvalid ⟨d, hd, hv⟩

/-- One row of `65535` columns and as many channels. -/
def wideRow : NpuTensorDesc := ⟨0, 1, 1, 65535, 65535, layoutNchw⟩

theorem not_converts_wideRow :
    ¬Converts (some wideRow) (-1) (fun _ ↦ 0) (fun _ ↦ 0)
      (npuTensorConvertToNhwc (some fun _ ↦ 0) (some fun _ ↦ 0) (some wideRow) (-1)) := by
  have hv : wideRow.Valid :=
    ⟨rfl, by decide, by decide, by decide, .inr rfl, by decide⟩
  rintro ⟨e, out, trace, hr, -⟩
  rw [convert_valid hv, if_neg (by decide), if_neg (by decide),
    convertNchwToNhwc_overflow hv (by decide)] at hr
  cases hr

end

end LgNpu
