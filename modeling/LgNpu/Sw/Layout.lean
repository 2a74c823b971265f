import LgNpu.Sw.Tensor
import LgNpu.Conv.Ctrl
import LgNpu.Pool.Index
import LgNpu.Lib.Signed
import LgNpu.Lib.Clocked
import Mathlib.Data.Set.Function
import Mathlib.Order.Interval.Set.Defs

/-!
# One layout in software and hardware

`npu_tensor_nhwc_offset`, the conversion of the runtime, the address generator
of the convolution and the read address of the pooling controller place the
element `(h, w, c)` of a tensor alike.
-/

namespace LgNpu

open LoopNest

/-! ## The offset of the runtime -/

/-- All arithmetic is `size_t`. -/
def npuTensorNhwcOffset (desc : NpuTensorDesc) (n h w c : BitVec 16) : BitVec 64 :=
  desc.baseAddr.setWidth 64 +
    (((n.setWidth 64 * desc.dimH.setWidth 64 + h.setWidth 64) * desc.dimW.setWidth 64 +
      w.setWidth 64) * desc.dimC.setWidth 64 + c.setWidth 64)

/-- An element of the tensor, as three coordinates. -/
def NpuTensorDesc.Inside (d : NpuTensorDesc) (h w c : ℕ) : Prop :=
  h < d.dimH.toNat ∧ w < d.dimW.toNat ∧ c < d.dimC.toNat

/-- The address of an element over the natural numbers. -/
def NpuTensorDesc.addrOf (d : NpuTensorDesc) (h w c : ℕ) : ℕ :=
  d.baseAddr.toNat + rowMajor d.dimW.toNat d.dimC.toNat h w c

section

variable {d : NpuTensorDesc}

theorem NpuTensorDesc.Inside.lt {h w c : ℕ} (hin : d.Inside h w c) :
    rowMajor d.dimW.toNat d.dimC.toNat h w c < d.hwc :=
  rowMajor_lt hin.1 hin.2.1 hin.2.2

theorem npuTensorNhwcOffset_toNat (hlt : d.hwc < 2 ^ 48) {h w c : BitVec 16}
    (hin : d.Inside h.toNat w.toNat c.toNat) :
    (npuTensorNhwcOffset d 0 h w c).toNat = d.addrOf h.toNat w.toNat c.toNat := by
  have hpos := hin.lt
  have hwide : ∀ x : BitVec 16, x.setWidth 64 = .ofNat 64 x.toNat := fun x ↦ by
    rw [BitVec.ofNat_toNat]
  have hzero :
      (0 : BitVec 16).setWidth 64 * d.dimH.setWidth 64 + h.setWidth 64 = h.setWidth 64 := by
    simp
  have hofNat : npuTensorNhwcOffset d 0 h w c = .ofNat 64 (d.addrOf h.toNat w.toNat c.toNat) := by
    rw [npuTensorNhwcOffset, hzero]
    simp only [hwide, NpuTensorDesc.addrOf, rowMajor, BitVec.ofNat_add, BitVec.ofNat_mul]
  have hbase := d.baseAddr.isLt
  rw [hofNat, BitVec.toNat_ofNat, Nat.mod_eq_of_lt]
  rw [NpuTensorDesc.addrOf]
  omega

/-- The offsets of the elements fill the tensor's interval, each once. -/
theorem nhwcOffset_bijOn (hlt : d.hwc < 2 ^ 48) :
    Set.BijOn (fun x : BitVec 16 × BitVec 16 × BitVec 16 ↦
        (npuTensorNhwcOffset d 0 x.1 x.2.1 x.2.2).toNat)
      {x | d.Inside x.1.toNat x.2.1.toNat x.2.2.toNat}
      (Set.Ico d.baseAddr.toNat (d.baseAddr.toNat + d.hwc)) := by
  refine ⟨fun x (hx : d.Inside _ _ _) ↦ ?_, fun x (hx : d.Inside _ _ _) y (hy : d.Inside _ _ _)
    hxy ↦ ?_, fun a ha ↦ ?_⟩
  · have hpos := hx.lt
    simp only [npuTensorNhwcOffset_toNat hlt hx, NpuTensorDesc.addrOf]
    exact ⟨by omega, by omega⟩
  · simp only [npuTensorNhwcOffset_toNat hlt hx, npuTensorNhwcOffset_toNat hlt hy,
      NpuTensorDesc.addrOf, Nat.add_left_cancel_iff] at hxy
    obtain ⟨hh, hw, hc⟩ := rowMajor_inj hx.2.1 hx.2.2 hy.2.1 hy.2.2 hxy
    exact Prod.ext (BitVec.eq_of_toNat_eq hh)
      (Prod.ext (BitVec.eq_of_toNat_eq hw) (BitVec.eq_of_toNat_eq hc))
  · obtain ⟨hle, hlt'⟩ := ha
    obtain ⟨h, w, c, hh, hw, hc, he⟩ :=
      exists_rowMajor (show a - d.baseAddr.toNat < d.hwc by omega)
    have hval : ∀ {x : ℕ} {b : BitVec 16}, x < b.toNat → (BitVec.ofNat 16 x).toNat = x :=
      fun hx ↦ by rw [BitVec.toNat_ofNat, Nat.mod_eq_of_lt (by omega)]
    have hin : d.Inside (BitVec.ofNat 16 h).toNat (BitVec.ofNat 16 w).toNat
        (BitVec.ofNat 16 c).toNat := by
      rw [NpuTensorDesc.Inside, hval hh, hval hw, hval hc]
      exact ⟨hh, hw, hc⟩
    refine ⟨(.ofNat 16 h, .ofNat 16 w, .ofNat 16 c), hin, ?_⟩
    simp only [npuTensorNhwcOffset_toNat hlt hin, NpuTensorDesc.addrOf, hval hh, hval hw, hval hc,
      he]
    omega

/-! ## The conversion -/

/-- Converting an NCHW source puts element `(h, w, c)` at its offset from the
base and nothing else there. -/
theorem convert_places (hv : d.Valid) (hsmall : d.hwc ≤ 65536) (hl : d.layout = layoutNchw)
    {bufBytes : BitVec 64} (hbuf : d.hwc ≤ bufBytes.toNat) (dst src : ℕ → Byte) :
    ∃ out trace, npuTensorConvertToNhwc (some dst) (some src) (some d) bufBytes =
        .ok ⟨.ok, some out, trace⟩ ∧
      ∀ h w c, d.Inside h w c → ∀ i, (i, rowMajor d.dimH.toNat d.dimW.toNat c h w) ∈ trace ↔
        d.baseAddr.toNat + i = d.addrOf h w c := by
  have hint : (d.dimW.toNat - 1) * d.dimC.toNat < 2 ^ 31 := by
    have hle : (d.dimW.toNat - 1) * d.dimC.toNat ≤ d.dimH.toNat * d.dimW.toNat * d.dimC.toNat :=
      Nat.mul_le_mul_right _ ((Nat.sub_le _ _).trans (Nat.le_mul_of_pos_left _ hv.height))
    rw [← NpuTensorDesc.hwc] at hle
    omega
  refine ⟨((nchwCopies d.dimH.toNat d.dimW.toNat d.dimC.toNat).foldl (CopyState.copyByte src)
    ⟨dst, []⟩).dst, nchwCopies d.dimH.toNat d.dimW.toNat d.dimC.toNat, ?_, fun h w c hin i ↦ ?_⟩
  · rw [convert_valid hv, if_neg (by omega), if_neg (by rw [hl]; decide),
      convertNchwToNhwc_ok src hv.batch hint, foldl_copyByte]
    rfl
  · rw [mem_nchwCopies, NpuTensorDesc.addrOf]
    constructor
    · rintro ⟨c', hc', h', hh', w', hw', he⟩
      obtain ⟨rfl, hsrc⟩ := Prod.mk.inj he
      obtain ⟨rfl, rfl, rfl⟩ := rowMajor_inj hh' hw' hin.1 hin.2.1 hsrc
      rfl
    · intro he
      exact ⟨c, hin.2.2, h, hin.1, w, hin.2.1, by rw [Nat.add_left_cancel he]⟩

end

/-! ## Addresses of 16 bits -/

/-- Inside the address space 16-bit arithmetic does not wrap. -/
theorem addr16_toNat {d : NpuTensorDesc} {h w c : BitVec 16}
    (hfit : d.baseAddr.toNat + d.hwc ≤ 65536) (hin : d.Inside h.toNat w.toNat c.toNat) :
    (d.baseAddr + ((h * d.dimW + w) * d.dimC + c)).toNat = d.addrOf h.toNat w.toNat c.toNat := by
  have hpos := hin.lt
  have hself : ∀ x : BitVec 16, BitVec.ofNat 16 x.toNat = x := fun x ↦ by simp
  have hofNat : d.baseAddr + ((h * d.dimW + w) * d.dimC + c) =
      .ofNat 16 (d.addrOf h.toNat w.toNat c.toNat) := by
    simp only [NpuTensorDesc.addrOf, rowMajor, BitVec.ofNat_add, BitVec.ofNat_mul, hself]
  rw [hofNat, BitVec.toNat_ofNat, Nat.mod_eq_of_lt]
  rw [NpuTensorDesc.addrOf]
  omega

/-! ## The address generator of the convolution -/

/-- A coordinate inside the map is exact in 17 bits. -/
theorem inCoord_eq_ofNat {o stride f pad : Dim} {x : ℕ}
    (h : (o.toNat * stride.toNat + f.toNat : ℤ) - pad.toNat = x) :
    inCoord o stride f pad = .ofNat 17 x := by
  have hnat : o.toNat * stride.toNat + f.toNat = x + pad.toNat := by omega
  have hwide : ∀ y : Dim, y.setWidth 17 = .ofNat 17 y.toNat := fun y ↦ by rw [BitVec.ofNat_toNat]
  rw [inCoord, hwide o, hwide stride, hwide f, hwide pad, ← BitVec.ofNat_mul, ← BitVec.ofNat_add,
    hnat, BitVec.ofNat_add, BitVec.add_sub_cancel]

theorem outside_ofNat {x : ℕ} {b : Dim} (h : x < b.toNat) : outside (.ofNat 17 x) b = false := by
  have hb := b.isLt
  have hx : (BitVec.ofNat 17 x).toInt = x := by
    rw [BitVec.toInt_eq_toNat_of_lt] <;> rw [BitVec.toNat_ofNat, Nat.mod_eq_of_lt (by omega)]
    omega
  have hbi : (b.setWidth 17).toInt = b.toNat := Signed.toInt_setWidth (w := 16) b le_rfl
  simp only [outside, BitVec.slt_eq_decide, hx, hbi]
  simp
  omega

namespace ConvAddrGen

/-- The address four edges after an iteration is taken, whatever the handshake
and the indices do meanwhile. -/
theorem out_of_taken {g : ConvAddrGen} (hg : g.state = .idle) (i i₁ i₂ i₃ : ConvAddrIn)
    (v₁ v₂ v₃ r₀ r₁ r₂ r₃ : Bool) {g' : ConvAddrGen}
    (hg' : g' = (((g.step true r₀ i).step v₁ r₁ i₁).step v₂ r₂ i₂).step v₃ r₃ i₃) :
    g'.state = .out ∧
      g'.actAddrR = i.actBase + ((((i.ihCalcW.setWidth 16).setWidth 32 * i.inW.setWidth 32 +
        (i.iwCalcW.setWidth 16).setWidth 32) * i.inC.setWidth 32) + i.c.setWidth 32).setWidth 16 ∧
      g'.zeroPadR = (outside i.ihCalcW i.inH || outside i.iwCalcW i.inW) := by
  subst hg'
  simp [step, taking, hg]

end ConvAddrGen

namespace ConvFront

/-- The front end under any commands, offers and handshakes. -/
def run (cmds : ℕ → ConvCmd) (valids readys : ℕ → Bool) (s : ConvFront) : ℕ → ConvFront :=
  Clocked.run (fun t s ↦ s.step (cmds t) (valids t) (readys t)) s

theorem addrGen_run_succ (cmds : ℕ → ConvCmd) (valids readys : ℕ → Bool) (s : ConvFront) (t : ℕ) :
    (s.run cmds valids readys (t + 1)).addrGen =
      (s.run cmds valids readys t).addrGen.step (s.run cmds valids readys t).ctrl.iterValid
        (readys t) (s.run cmds valids readys t).addrIn :=
  rfl

end ConvFront

section

variable {d : NpuTensorDesc} {h w c : BitVec 16}

/-- An iteration over the element `(h, w, c)` leads to a read of its address. -/
theorem conv_reads (hfit : d.baseAddr.toNat + d.hwc ≤ 65536)
    (hin : d.Inside h.toNat w.toNat c.toNat) {s : ConvFront} (ha : s.iterAccept = true)
    (hbase : s.ctrl.cmdR.actInAddr = d.baseAddr) (hH : s.ctrl.cmdR.inH = d.dimH)
    (hW : s.ctrl.cmdR.inW = d.dimW) (hC : s.ctrl.cmdR.inC = d.dimC)
    (hrow : (s.ctrl.ohR.toNat * s.ctrl.cmdR.strideH.toNat + s.ctrl.rR.toNat : ℤ) -
      s.ctrl.cmdR.padH.toNat = h.toNat)
    (hcol : (s.ctrl.owR.toNat * s.ctrl.cmdR.strideW.toNat + s.ctrl.sR.toNat : ℤ) -
      s.ctrl.cmdR.padW.toNat = w.toNat)
    (hchan : s.ctrl.cR = c) (cmds : ℕ → ConvCmd) (valids readys : ℕ → Bool) :
    (convFront.out (s.run cmds valids readys 4)).addrGenValid = true ∧
      (convFront.out (s.run cmds valids readys 4)).zeroPad = false ∧
      (convFront.out (s.run cmds valids readys 4)).actAddr.toNat =
        d.addrOf h.toNat w.toNat c.toNat := by
  obtain ⟨hvalid, hready⟩ := Bool.and_eq_true_iff.mp ha
  have hidle : s.addrGen.state = .idle := by simpa [ConvAddrGen.inReady] using hready
  have hgen : ∃ v₁ v₂ v₃ r₀ r₁ r₂ r₃ i₁ i₂ i₃, (s.run cmds valids readys 4).addrGen =
      (((s.addrGen.step true r₀ s.addrIn).step v₁ r₁ i₁).step v₂ r₂ i₂).step v₃ r₃ i₃ := by
    rw [← hvalid]
    rw [ConvFront.addrGen_run_succ, ConvFront.addrGen_run_succ, ConvFront.addrGen_run_succ,
      ConvFront.addrGen_run_succ]
    exact ⟨_, _, _, _, _, _, _, _, _, _, rfl⟩
  obtain ⟨v₁, v₂, v₃, r₀, r₁, r₂, r₃, i₁, i₂, i₃, hgen⟩ := hgen
  obtain ⟨hout, haddr, hzero⟩ :=
    ConvAddrGen.out_of_taken hidle s.addrIn i₁ i₂ i₃ v₁ v₂ v₃ r₀ r₁ r₂ r₃ hgen
  have hih : s.addrIn.ihCalcW = .ofNat 17 h.toNat := inCoord_eq_ofNat hrow
  have hiw : s.addrIn.iwCalcW = .ofNat 17 w.toNat := inCoord_eq_ofNat hcol
  refine ⟨by simp [convFront, ConvAddrGen.outValid, hout], ?_, ?_⟩
  · change (s.run cmds valids readys 4).addrGen.zeroPadR = false
    rw [hzero, hih, hiw, show s.addrIn.inH = d.dimH from hH, show s.addrIn.inW = d.dimW from hW,
      outside_ofNat hin.1, outside_ofNat hin.2.1, Bool.or_false]
  · change (s.run cmds valids readys 4).addrGen.actAddrR.toNat = _
    rw [haddr, hih, hiw, show s.addrIn.actBase = d.baseAddr from hbase,
      show s.addrIn.inW = d.dimW from hW, show s.addrIn.inC = d.dimC from hC,
      show s.addrIn.c = c from hchan, ← addr16_toNat hfit hin]
    have hcut : ∀ x : BitVec 16, (BitVec.ofNat 17 x.toNat).setWidth 16 = x := fun x ↦ by
      rw [BitVec.setWidth_ofNat_of_le (by omega), BitVec.ofNat_toNat, BitVec.setWidth_eq]
    have hback : ∀ x : BitVec 16, (x.setWidth 32).setWidth 16 = x := fun x ↦ by
      rw [BitVec.setWidth_setWidth_of_le _ (by omega), BitVec.setWidth_eq]
    rw [hcut, hcut, BitVec.setWidth_add _ _ (by omega), BitVec.setWidth_mul _ _ (by omega),
      BitVec.setWidth_add _ _ (by omega), BitVec.setWidth_mul _ _ (by omega)]
    simp only [hback]

end

/-! ## The read address of the pooling controller -/

namespace PoolCtrl

/-- The controller under any commands, offers and responses. -/
def run (cmds : ℕ → PoolCmd) (valids : ℕ → Bool) (rsps : ℕ → BeRsp) (s : PoolCtrl) :
    ℕ → PoolCtrl :=
  Clocked.run (fun t s ↦ s.step (cmds t) (valids t) (rsps t)) s

/-- The outer counters stay below their bounds and the bases follow them by
strides, where there is a bound. -/
structure Walking (s : PoolCtrl) : Prop where
  c : 0 < s.inCR.toNat → s.cR.toNat < s.inCR.toNat
  ow : 0 < s.outWR.toNat → s.owR.toNat < s.outWR.toNat ∧
    s.owBaseR.toNat = s.owR.toNat * s.strideWR.toNat
  oh : 0 < s.inCR.toNat → 0 < s.outWR.toNat → 0 < s.outHR.toNat →
    s.ohR.toNat < s.outHR.toNat ∧ s.ohBaseR.toNat = s.ohR.toNat * s.strideHR.toNat

structure Kept (s : PoolCtrl) : Prop where
  wxc : s.inWxcR = s.inWR * s.inCR
  walking : s.state ≠ .idle → s.state ≠ .loadCfg → s.Walking

variable {s : PoolCtrl}

theorem Walking.start (hc : s.cR = 0) (how : s.owR = 0) (hoh : s.ohR = 0) (howb : s.owBaseR = 0)
    (hohb : s.ohBaseR = 0) : s.Walking where
  c hpos := by simpa [hc] using hpos
  ow hpos := by simpa [how, howb] using hpos
  oh _ _ hpos := by simpa [hoh, hohb] using hpos

/-- At its bound or below it, a counter that cannot go on is the last one. -/
theorem eqLast_of_not_ltLast {x b : Dim} (hx : x.toNat < b.toNat) (h : ltLast x b = false) :
    eqLast x b = true := by
  rw [eqLast_iff (by omega)]
  by_contra hne
  rw [(ltLast_iff (by omega)).mpr (by omega)] at h
  cases h

theorem Walking.advance (h : s.Walking) {rsp : BeRsp} {cmd : PoolCmd} {v : Bool}
    (hs : s.state = .wr) (hg : rsp.outWrGnt = true) (hl : s.lastOutputW = false) :
    (s.step cmd v rsp).Walking := by
  rw [step_wr_advance hs hg hl]
  refine ⟨fun (hc : 0 < s.inCR.toNat) ↦ ?_, fun (how : 0 < s.outWR.toNat) ↦ ?_,
    fun (hc : 0 < s.inCR.toNat) (how : 0 < s.outWR.toNat) (hoh : 0 < s.outHR.toNat) ↦ ?_⟩
  · cases hlt : ltLast s.cR s.inCR with
    | true =>
        have hnext := (ltLast_iff hc).mp hlt
        simp only [if_true, toNat_succ_dim rfl (h.c hc)]
        exact hnext
    | false => simpa using hc
  · obtain ⟨hlt, hbase⟩ := h.ow how
    cases hc : ltLast s.cR s.inCR with
    | true => exact ⟨hlt, hbase⟩
    | false =>
        cases hw : ltLast s.owR s.outWR with
        | true =>
            have hnext := (ltLast_iff how).mp hw
            have hsucc := toNat_succ_dim rfl hlt
            have hbound := s.outWR.isLt
            simp only [if_true, if_false, Bool.false_eq_true, hsucc]
            exact ⟨hnext, base_step hbase (by omega)⟩
        | false => simpa using how
  · obtain ⟨hlt, hbase⟩ := h.oh hc how hoh
    cases hcl : ltLast s.cR s.inCR with
    | true => exact ⟨hlt, hbase⟩
    | false =>
        cases hwl : ltLast s.owR s.outWR with
        | true => exact ⟨hlt, hbase⟩
        | false =>
            -- Columns and channels are through, so another row is left.
            have hcols := eqLast_of_not_ltLast (h.ow how).1 hwl
            have hchans := eqLast_of_not_ltLast (h.c hc) hcl
            have hrow : s.ohR.toNat + 1 ≠ s.outHR.toNat := by
              rw [Ne, ← eqLast_iff hoh, Bool.not_eq_true]
              simpa [lastOutputW, hcols, hchans] using hl
            have hsucc := toNat_succ_dim rfl hlt
            have hbound := s.outHR.isLt
            simp only [if_false, Bool.false_eq_true, hsucc]
            exact ⟨by omega, base_step hbase (by omega)⟩

theorem Kept.step (h : s.Kept) (cmd : PoolCmd) (v : Bool) (rsp : BeRsp) :
    (s.step cmd v rsp).Kept := by
  -- Only a granted write moves the outer loops.
  have hsame : s.state ≠ .idle → s.state ≠ .loadCfg → ¬s.advance rsp →
      (s.step cmd v rsp).Kept := by
    intro hi hl ha
    have hold : s.Walking := h.walking hi hl
    constructor
    · simpa [PoolCtrl.step, accept, hi] using h.wxc
    · intro _ _
      constructor
      · simpa [PoolCtrl.step, accept, hi, hl, ha] using hold.c
      · simpa [PoolCtrl.step, accept, hi, hl, ha] using hold.ow
      · simpa [PoolCtrl.step, accept, hi, hl, ha] using hold.oh
  have hstill : s.state ≠ .wr → ¬s.advance rsp := fun hw ha ↦ hw ha.1.1
  cases hs : s.state with
  | idle =>
      cases v with
      | true =>
          rw [step_accept hs]
          exact ⟨rfl, fun _ hl ↦ absurd rfl hl⟩
      | false =>
          rw [step_idle hs]
          exact h
  | loadCfg =>
      rw [step_loadCfg hs]
      exact ⟨h.wxc, fun _ _ ↦ .start rfl rfl rfl rfl rfl⟩
  | wr =>
      by_cases ha : s.advance rsp
      · have hwxc :
            (s.step cmd v rsp).inWxcR = (s.step cmd v rsp).inWR * (s.step cmd v rsp).inCR := by
          simpa [PoolCtrl.step, accept, hs] using h.wxc
        exact ⟨hwxc, fun _ _ ↦
          (h.walking (by simp [hs]) (by simp [hs])).advance hs ha.1.2 ha.2⟩
      · exact hsame (by simp [hs]) (by simp [hs]) ha
  | _ => exact hsame (by simp [hs]) (by simp [hs]) (hstill (by simp [hs]))

theorem kept_run (cmds : ℕ → PoolCmd) (valids : ℕ → Bool) (rsps : ℕ → BeRsp) (t : ℕ) :
    (reset.run cmds valids rsps t).Kept := by
  refine Clocked.run_induction (fun _ ↦ Kept) ?_ (fun t _ h ↦ h.step _ _ _) t
  exact ⟨rfl, fun hi ↦ absurd rfl hi⟩

/-! A base below `2 ^ 32` leaves room for the window index in 33 bits. -/

theorem wide_coord_toInt {b : BitVec 32} {r pad : Dim} (hb : b.toNat + r.toNat < 2 ^ 32) :
    (b.setWidth 33 + r.setWidth 33 - pad.setWidth 33).toInt = b.toNat + r.toNat - pad.toNat := by
  have hr := r.isLt
  have hp := pad.isLt
  have hb33 : (b.setWidth 33).toInt = b.toNat := Signed.toInt_setWidth b le_rfl
  have hr33 : (r.setWidth 33).toInt = r.toNat := Signed.toInt_setWidth r (by omega)
  have hp33 : (pad.setWidth 33).toInt = pad.toNat := Signed.toInt_setWidth pad (by omega)
  have hsum := Signed.toInt_add (w := 32) (b.setWidth 33) (r.setWidth 33) (by omega) (by omega)
  rw [Signed.toInt_sub (w := 32), hsum, hb33, hr33, hp33] <;> omega

theorem ihW_toInt_of_walking (h : s.Walking) (hc : 0 < s.inCR.toNat) (how : 0 < s.outWR.toNat)
    (hoh : 0 < s.outHR.toNat) : s.ihW.toInt =
      s.ohR.toNat * s.strideHR.toNat + s.rR.toNat - s.padHR.toNat := by
  obtain ⟨hlt, hbase⟩ := h.oh hc how hoh
  have hle : s.ohR.toNat * s.strideHR.toNat ≤ (2 ^ 16 - 1) * (2 ^ 16 - 1) :=
    Nat.mul_le_mul (by omega) (by omega)
  rw [ihW, wide_coord_toInt (by omega), hbase]
  push_cast
  rfl

theorem iwW_toInt_of_walking (h : s.Walking) (how : 0 < s.outWR.toNat) : s.iwW.toInt =
      s.owR.toNat * s.strideWR.toNat + s.sR.toNat - s.padWR.toNat := by
  obtain ⟨hlt, hbase⟩ := h.ow how
  have hle : s.owR.toNat * s.strideWR.toNat ≤ (2 ^ 16 - 1) * (2 ^ 16 - 1) :=
    Nat.mul_le_mul (by omega) (by omega)
  rw [iwW, wide_coord_toInt (by omega), hbase]
  push_cast
  rfl

theorem oobW_eq_false (s : PoolCtrl) : s.oobW = false ↔
    (0 ≤ s.ihW.toInt ∧ s.ihW.toInt < s.inHR.toNat) ∧
      0 ≤ s.iwW.toInt ∧ s.iwW.toInt < s.inWR.toNat := by
  have hdim : ∀ x : Dim, (x.setWidth 33).toInt = x.toNat :=
    fun x ↦ Signed.toInt_setWidth (w := 32) x (by omega)
  simp only [oobW, BitVec.slt_eq_decide, hdim]
  simp [and_assoc]

end PoolCtrl

section

variable {d : NpuTensorDesc} {h w c : BitVec 16}

/-- A window position on the element `(h, w, c)` reads its address. -/
theorem pool_reads (hfit : d.baseAddr.toNat + d.hwc ≤ 65536)
    (hin : d.Inside h.toNat w.toNat c.toNat) {s : PoolCtrl} (hk : s.Kept) (hs : s.state = .rd)
    (hbase : s.inBaseR = d.baseAddr) (hH : s.inHR = d.dimH) (hW : s.inWR = d.dimW)
    (hC : s.inCR = d.dimC) (hrow : s.ihW.toInt = h.toNat) (hcol : s.iwW.toInt = w.toNat)
    (hchan : s.cR = c) :
    s.req.actRdReq = true ∧ s.req.actRdAddr.toNat = d.addrOf h.toNat w.toNat c.toNat := by
  have hoob : s.oobW = false := by
    rw [PoolCtrl.oobW_eq_false, hrow, hcol, hH, hW]
    have := hin.1
    have := hin.2.1
    omega
  have hcut : ∀ {x : BitVec 33} {y : BitVec 16}, x.toInt = y.toNat → x.setWidth 16 = y := by
    intro x y hxy
    rw [PoolCtrl.setWidth16_of_toInt hxy (by omega), Int.toNat_natCast, BitVec.ofNat_toNat,
      BitVec.setWidth_eq]
  have haddr : s.rdAddrW = d.baseAddr + ((h * d.dimW + w) * d.dimC + c) := by
    rw [PoolCtrl.rdAddrW, hcut hrow, hcut hcol, hk.wxc, hbase, hW, hC, hchan, BitVec.add_mul,
      BitVec.mul_assoc]
    simp only [BitVec.add_assoc]
  simp [PoolCtrl.req, hs, hoob, haddr, addr16_toNat hfit hin]

end

/-! ## The common layout -/

variable (d : NpuTensorDesc)

/-- The address an iteration of the convolution over this tensor reads, four
edges after it is taken. -/
def ConvReads (s : ConvFront) : Prop :=
  s.iterAccept = true → s.ctrl.cmdR.actInAddr = d.baseAddr → s.ctrl.cmdR.inH = d.dimH →
    s.ctrl.cmdR.inW = d.dimW → s.ctrl.cmdR.inC = d.dimC →
  ∀ h w c : BitVec 16, d.Inside h.toNat w.toNat c.toNat →
    (s.ctrl.ohR.toNat * s.ctrl.cmdR.strideH.toNat + s.ctrl.rR.toNat : ℤ) -
      s.ctrl.cmdR.padH.toNat = h.toNat →
    (s.ctrl.owR.toNat * s.ctrl.cmdR.strideW.toNat + s.ctrl.sR.toNat : ℤ) -
      s.ctrl.cmdR.padW.toNat = w.toNat →
    s.ctrl.cR = c →
  ∀ cmds valids readys,
    (convFront.out (s.run cmds valids readys 4)).addrGenValid = true ∧
    (convFront.out (s.run cmds valids readys 4)).zeroPad = false ∧
    (convFront.out (s.run cmds valids readys 4)).actAddr.toNat =
      (npuTensorNhwcOffset d 0 h w c).toNat

/-- The coordinates of a window position, where the output has a size, and the
address it reads. -/
def PoolReads (s : PoolCtrl) : Prop :=
  s.state = .rd → s.inBaseR = d.baseAddr → s.inHR = d.dimH → s.inWR = d.dimW →
    s.inCR = d.dimC →
  (0 < s.outHR.toNat → 0 < s.outWR.toNat →
    s.ihW.toInt = s.ohR.toNat * s.strideHR.toNat + s.rR.toNat - s.padHR.toNat ∧
    s.iwW.toInt = s.owR.toNat * s.strideWR.toNat + s.sR.toNat - s.padWR.toNat) ∧
  ∀ h w c : BitVec 16, d.Inside h.toNat w.toNat c.toNat →
    s.ihW.toInt = h.toNat → s.iwW.toInt = w.toNat → s.cR = c →
    s.req.actRdReq = true ∧ s.req.actRdAddr.toNat = (npuTensorNhwcOffset d 0 h w c).toNat

variable {d}

/-- For an accepted descriptor inside the address space: the offsets of the
runtime fill the tensor's interval, the conversion places every element at its
offset, and both controllers read it there. -/
theorem nhwc_layout (hok : npuTensorValidate (some d) = .ok)
    (hfit : d.baseAddr.toNat + d.hwc ≤ 65536) :
    Set.BijOn (fun x : BitVec 16 × BitVec 16 × BitVec 16 ↦
        (npuTensorNhwcOffset d 0 x.1 x.2.1 x.2.2).toNat)
      {x | x.1 < d.dimH ∧ x.2.1 < d.dimW ∧ x.2.2 < d.dimC}
      (Set.Ico d.baseAddr.toNat (d.baseAddr.toNat + d.hwc)) ∧
    (d.layout = layoutNchw → ∀ (bufBytes : BitVec 64) (dst src : ℕ → Byte),
      d.hwc ≤ bufBytes.toNat →
      ∃ out trace, npuTensorConvertToNhwc (some dst) (some src) (some d) bufBytes =
          .ok ⟨.ok, some out, trace⟩ ∧
        ∀ h w c : BitVec 16, h < d.dimH → w < d.dimW → c < d.dimC →
          ∀ i, (i, (c.toNat * d.dimH.toNat + h.toNat) * d.dimW.toNat + w.toNat) ∈ trace ↔
            d.baseAddr.toNat + i = (npuTensorNhwcOffset d 0 h w c).toNat) ∧
    (∀ s, ConvReads d s) ∧
    ∀ cmds valids rsps t, PoolReads d (PoolCtrl.reset.run cmds valids rsps t) := by
  have hv := (npuTensorValidate_eq_ok d).mp hok
  have hlt : d.hwc < 2 ^ 48 := by omega
  refine ⟨nhwcOffset_bijOn hlt, fun hl bufBytes dst src hbuf ↦ ?_, fun s ↦ ?_,
    fun cmds valids rsps t ↦ ?_⟩
  · obtain ⟨out, trace, hrun, hplace⟩ := convert_places hv (by omega) hl hbuf dst src
    refine ⟨out, trace, hrun, fun h w c hh hw hc i ↦ ?_⟩
    rw [npuTensorNhwcOffset_toNat hlt ⟨hh, hw, hc⟩]
    exact hplace _ _ _ ⟨hh, hw, hc⟩ i
  · intro ha hbase hH hW hC h w c hin hrow hcol hchan cmds valids readys
    rw [npuTensorNhwcOffset_toNat hlt hin]
    exact conv_reads hfit hin ha hbase hH hW hC hrow hcol hchan cmds valids readys
  · intro hs hbase hH hW hC
    have hk := PoolCtrl.kept_run cmds valids rsps t
    have hwalk := hk.walking (by simp [hs]) (by simp [hs])
    refine ⟨fun hoh how ↦ ⟨?_, PoolCtrl.iwW_toInt_of_walking hwalk how⟩,
      fun h w c hin hrow hcol hchan ↦ ?_⟩
    · exact PoolCtrl.ihW_toInt_of_walking hwalk (by rw [hC]; exact hv.channels) how hoh
    rw [npuTensorNhwcOffset_toNat hlt hin]
    exact pool_reads hfit hin hk hs hbase hH hW hC hrow hcol hchan

/-- A tensor of `2 × 3 × 4` at the end of the address space. -/
def lastTensor : NpuTensorDesc := ⟨65512, 1, 2, 3, 4, layoutNchw⟩

theorem nhwc_layout_lastTensor :
    Set.BijOn (fun x : BitVec 16 × BitVec 16 × BitVec 16 ↦
        (npuTensorNhwcOffset lastTensor 0 x.1 x.2.1 x.2.2).toNat)
      {x | x.1 < lastTensor.dimH ∧ x.2.1 < lastTensor.dimW ∧ x.2.2 < lastTensor.dimC}
      (Set.Ico 65512 65536) :=
  (nhwc_layout (d := lastTensor) (by decide) (by decide)).1

end LgNpu
