import LgNpu.Conv.Correct
import LgNpu.Lib.Stream

/-!
# The address generator as a stream

`conv_addr_gen` on its own, under any stalls of its consumer: one output for
each accepted index tuple, agreeing with exact integers although the bounds
test is made in 17 bits and the products in 32 and 16.
-/

namespace LgNpu

structure ConvAddrOut where
  actAddr : Addr
  wtAddr : Addr
  zeroPad : Bool

/-- The inputs of `conv_addr_gen` in one cycle. -/
structure ConvAddrPins where
  idx : ConvAddrIn
  inValid : Bool
  outReady : Bool

namespace ConvAddrIn

variable (i : ConvAddrIn)

/-! ## Exact coordinates -/

def ih : ℤ := coordOf i.oh.toNat i.strideH.toNat i.r.toNat i.padH.toNat

def iw : ℤ := coordOf i.ow.toNat i.strideW.toNat i.s.toNat i.padW.toNat

def InMap : Prop := 0 ≤ i.ih ∧ i.ih < i.inH.toNat ∧ 0 ≤ i.iw ∧ i.iw < i.inW.toNat

/-- The indices are those of a convolution with `outH × outW × outK` outputs
whose windows end inside the padded map. -/
structure Fits (outH outW outK : Dim) : Prop where
  rows : (outH.toNat - 1) * i.strideH.toNat + i.filtR.toNat ≤ i.inH.toNat + 2 * i.padH.toNat
  cols : (outW.toNat - 1) * i.strideW.toNat + i.filtS.toNat ≤ i.inW.toNat + 2 * i.padW.toNat
  oh : i.oh.toNat < outH.toNat
  ow : i.ow.toNat < outW.toNat
  k : i.k.toNat < outK.toNat
  r : i.r.toNat < i.filtR.toNat
  s : i.s.toNat < i.filtS.toNat
  c : i.c.toNat < i.inC.toNat

/-- The output that integer arithmetic asks for. -/
structure Answer (o : ConvAddrOut) : Prop where
  zeroPad : o.zeroPad = true ↔ ¬i.InMap
  wtAddr : o.wtAddr.toNat = (i.wtBase.toNat + (((i.k.toNat * i.filtR.toNat + i.r.toNat) *
    i.filtS.toNat + i.s.toNat) * i.inC.toNat + i.c.toNat)) % 2 ^ 16
  actAddr : o.zeroPad = false → o.actAddr.toNat = (i.actBase.toNat +
    ((i.ih.toNat * i.inW.toNat + i.iw.toNat) * i.inC.toNat + i.c.toNat)) % 2 ^ 16

/-- The output the stages arrive at. -/
def output : ConvAddrOut where
  actAddr := i.actBase + (((i.ihCalcW.setWidth 16).setWidth 32 * i.inW.setWidth 32 +
    (i.iwCalcW.setWidth 16).setWidth 32) * i.inC.setWidth 32 + i.c.setWidth 32).setWidth 16
  wtAddr := i.wtBase + (((i.k.setWidth 32 * i.filtR.setWidth 32 + i.r.setWidth 32) *
    i.filtS.setWidth 32 + i.s.setWidth 32) * i.inC.setWidth 32 + i.c.setWidth 32).setWidth 16
  zeroPad := outside i.ihCalcW i.inH || outside i.iwCalcW i.inW

variable {i} {outH outW outK : Dim}

theorem wtAddr_output : i.output.wtAddr.toNat = (i.wtBase.toNat + (((i.k.toNat *
    i.filtR.toNat + i.r.toNat) * i.filtS.toNat + i.s.toNat) * i.inC.toNat + i.c.toNat)) %
      2 ^ 16 := by
  rw [← BitVec.toNat_ofNat, ← add_ofNat, BitVec.ofNat_add, ← ofNat_mul_dim, BitVec.ofNat_add,
    ← ofNat_mul_dim, BitVec.ofNat_add, ← ofNat_mul_dim]
  simp [output, BitVec.setWidth_add, BitVec.setWidth_mul]

theorem ihCalcW_eq : i.ihCalcW = .ofInt 17 i.ih := inCoord_eq _ _ _ _

theorem iwCalcW_eq : i.iwCalcW = .ofInt 17 i.iw := inCoord_eq _ _ _ _

theorem Fits.ih_bounds (h : i.Fits outH outW outK) : -2 ^ 16 ≤ i.ih ∧ i.ih < 2 ^ 17 :=
  ConvCmd.coord_bounds h.rows h.oh h.r i.padH.isLt i.inH.isLt

theorem Fits.iw_bounds (h : i.Fits outH outW outK) : -2 ^ 16 ≤ i.iw ∧ i.iw < 2 ^ 17 :=
  ConvCmd.coord_bounds h.cols h.ow h.s i.padW.isLt i.inW.isLt

theorem Fits.zeroPad_output (h : i.Fits outH outW outK) :
    i.output.zeroPad = true ↔ ¬i.InMap := by
  obtain ⟨hrlo, hrhi⟩ := h.ih_bounds
  obtain ⟨hclo, hchi⟩ := h.iw_bounds
  change (outside i.ihCalcW i.inH || outside i.iwCalcW i.inW) = true ↔ _
  rw [ihCalcW_eq, iwCalcW_eq, Bool.or_eq_true, outside_iff hrlo hrhi, outside_iff hclo hchi,
    ← not_and_or, InMap, and_assoc]

theorem Fits.actAddr_output (h : i.Fits outH outW outK) (hin : i.InMap) :
    i.output.actAddr.toNat = (i.actBase.toNat +
      ((i.ih.toNat * i.inW.toNat + i.iw.toNat) * i.inC.toNat + i.c.toNat)) % 2 ^ 16 := by
  obtain ⟨hr0, hr, hc0, hc⟩ := hin
  have hinH := i.inH.isLt
  have hinW := i.inW.isLt
  have hih : i.ihCalcW.setWidth 16 = .ofNat 16 i.ih.toNat :=
    (congrArg _ ihCalcW_eq).trans (setWidth_coord h.ih_bounds.1 hr0 (by omega))
  have hiw : i.iwCalcW.setWidth 16 = .ofNat 16 i.iw.toNat :=
    (congrArg _ iwCalcW_eq).trans (setWidth_coord h.iw_bounds.1 hc0 (by omega))
  rw [← BitVec.toNat_ofNat, ← add_ofNat, BitVec.ofNat_add, ← ofNat_mul_dim, BitVec.ofNat_add,
    ← ofNat_mul_dim, ← hih, ← hiw]
  simp [output, BitVec.setWidth_add, BitVec.setWidth_mul]

theorem Fits.answer (h : i.Fits outH outW outK) : i.Answer i.output where
  zeroPad := h.zeroPad_output
  wtAddr := wtAddr_output
  actAddr hz := h.actAddr_output (not_not.mp fun hnot ↦
    Bool.false_ne_true (hz.symm.trans (h.zeroPad_output.mpr hnot)))

end ConvAddrIn

namespace ConvAddrGen

variable (s : ConvAddrGen) (p : ConvAddrPins)

/-! ## One cycle -/

def out : ConvAddrOut := ⟨s.actAddrR, s.wtAddrR, s.zeroPadR⟩

def taken : List ConvAddrIn := if s.taking p.inValid then [p.idx] else []

variable {s p} in
theorem mem_taken {i : ConvAddrIn} (h : i ∈ s.taken p) : p.inValid = true ∧ i = p.idx := by
  cases htake : s.taking p.inValid with
  | true =>
      simp only [taken, htake, if_true, List.mem_singleton] at h
      exact ⟨(Bool.and_eq_true_iff.mp htake).2, h⟩
  | false =>
      rw [taken, htake] at h
      exact absurd h List.not_mem_nil

def sent : List ConvAddrOut := if s.outValid && p.outReady then [s.out] else []

def edge : ConvAddrGen := s.step p.inValid p.outReady p.idx

/-- The output on its way, as the stages ahead of it will complete it. -/
def inFlight : List ConvAddrOut :=
  match s.state with
  | .idle => []
  | .stage1 =>
      [{ actAddr := s.actBaseS1 + ((s.actM1S1 + s.iwUS1.setWidth 32) * s.inCS1.setWidth 32 +
           s.cS1.setWidth 32).setWidth 16
         wtAddr := s.wtBaseS1 + (((s.wtM1S1 + s.rS1.setWidth 32) * s.filtSS1.setWidth 32 +
           s.sS1.setWidth 32) * s.inCS1.setWidth 32 + s.cS1.setWidth 32).setWidth 16
         zeroPad := s.zeroPadS1 }]
  | .stage2 =>
      [{ actAddr := s.actBaseS2 + (s.actM2S2 + s.cS2.setWidth 32).setWidth 16
         wtAddr := s.wtBaseS2 + ((s.wtM2S2 + s.sS2.setWidth 32) * s.inCS2.setWidth 32 +
           s.cS2.setWidth 32).setWidth 16
         zeroPad := s.zeroPadS2 }]
  | .stage3 => [⟨s.actBaseS3 + s.actIdxS3, s.wtBaseS3 + s.wtIdxS3, s.zeroPadS3⟩]
  | .out => [s.out]

theorem inFlight_edge :
    s.sent p ++ (s.edge p).inFlight = s.inFlight ++ (s.taken p).map ConvAddrIn.output := by
  cases hs : s.state <;> cases hv : p.inValid <;> cases hr : p.outReady <;>
    simp [sent, taken, taking, outValid, edge, step, inFlight, out, ConvAddrIn.output, hs, hv, hr]

theorem length_inFlight_le : s.inFlight.length ≤ 1 := by
  cases hs : s.state <;> simp [inFlight, hs]

theorem edge_stalled (hs : s.outValid = true) (hr : p.outReady = false) :
    (s.edge p).outValid = true ∧ (s.edge p).out = s.out := by
  have hstate : s.state = .out := of_decide_eq_true hs
  simp [edge, step, outValid, out, hstate, hr]

/-! ## Runs -/

def stream (pins : ℕ → ConvAddrPins) : StreamMachine ConvAddrGen ConvAddrIn ConvAddrOut where
  step t s := s.edge (pins t)
  taken t s := s.taken (pins t)
  sent t s := s.sent (pins t)

variable {pins : ℕ → ConvAddrPins}

theorem queues : (stream pins).Queues (fun _ s q ↦ s.inFlight = q.map ConvAddrIn.output)
    (fun i o ↦ i.output = o) :=
  .of_map fun t s ↦ s.inFlight_edge (pins t)

theorem exists_outValid {t : ℕ} (h : ((stream pins).run reset t).inFlight ≠ []) :
    ∃ u, t ≤ u ∧ ((stream pins).run reset u).outValid = true := by
  have hnext : ∀ u, ((stream pins).run reset (u + 1)).state =
      (((stream pins).run reset u).edge (pins u)).state := fun _ ↦ rfl
  have h3 : ∀ u, ((stream pins).run reset u).state = .stage3 →
      ((stream pins).run reset (u + 1)).outValid = true := fun u hs ↦ by
    simp [outValid, hnext, edge, step, hs]
  have h2 : ∀ u, ((stream pins).run reset u).state = .stage2 →
      ((stream pins).run reset (u + 1)).state = .stage3 := fun u hs ↦ by
    simp [hnext, edge, step, hs]
  have h1 : ∀ u, ((stream pins).run reset u).state = .stage1 →
      ((stream pins).run reset (u + 1)).state = .stage2 := fun u hs ↦ by
    simp [hnext, edge, step, hs]
  cases hs : ((stream pins).run reset t).state with
  | idle => exact absurd (by simp [inFlight, hs]) h
  | stage1 => exact ⟨t + 3, by omega, h3 _ (h2 _ (h1 t hs))⟩
  | stage2 => exact ⟨t + 2, by omega, h3 _ (h2 t hs)⟩
  | stage3 => exact ⟨t + 1, by omega, h3 t hs⟩
  | out => exact ⟨t, le_rfl, by simp [outValid, hs]⟩

theorem exists_sent {t : ℕ} (hfair : Clocked.Fair fun t ↦ (pins t).outReady)
    (h : ((stream pins).run reset t).inFlight ≠ []) :
    ∃ u, t < u ∧ ((stream pins).delivered reset t).length <
      ((stream pins).delivered reset u).length := by
  obtain ⟨u, hu, hv⟩ := exists_outValid h
  refine StreamMachine.exists_sent (V := fun s ↦ s.outValid = true) hfair ?_ ?_ hu hv
  · intro t s hv hr
    simp [stream, sent, hv, hr]
  · intro t s hv hr
    exact (s.edge_stalled (pins t) hv hr).1

/-- The stream through `conv_addr_gen`: the outputs are the exact ones of the
accepted tuples in order, but for at most one inside; an output that is not
taken stays, and a consumer that is ready again and again receives them all. -/
structure Streams (pins : ℕ → ConvAddrPins) : Prop where
  exact : ∀ t, ∃ d q, (stream pins).accepted reset t = d ++ q ∧ q.length ≤ 1 ∧
    List.Forall₂ ConvAddrIn.Answer d ((stream pins).delivered reset t)
  stable : ∀ t, ((stream pins).run reset t).outValid = true → (pins t).outReady = false →
    ((stream pins).run reset (t + 1)).outValid = true ∧
      ((stream pins).run reset (t + 1)).out = ((stream pins).run reset t).out
  drains : (Clocked.Fair fun t ↦ (pins t).outReady) → ∀ t, ∃ u,
    List.Forall₂ ConvAddrIn.Answer ((stream pins).accepted reset t)
      (((stream pins).delivered reset u).take ((stream pins).accepted reset t).length)

/-- Every tuple on offer comes from some geometry that fits. -/
def Fitting (pins : ℕ → ConvAddrPins) : Prop :=
  ∀ t, (pins t).inValid = true → ∃ outH outW outK, (pins t).idx.Fits outH outW outK

theorem Fitting.answers (h : Fitting pins) {t : ℕ} {is : List ConvAddrIn} {os : List ConvAddrOut}
    (his : ∀ i ∈ is, i ∈ (stream pins).accepted reset t)
    (hos : List.Forall₂ (fun i o ↦ i.output = o) is os) :
    List.Forall₂ ConvAddrIn.Answer is os := by
  rw [StreamMachine.eq_map_of_forall₂ hos, List.forall₂_map_right_iff, List.forall₂_same]
  intro i hi
  obtain ⟨u, -, htaken⟩ := StreamMachine.mem_accepted.mp (his i hi)
  obtain ⟨hvalid, rfl⟩ := mem_taken htaken
  obtain ⟨outH, outW, outK, hfits⟩ := h u hvalid
  exact hfits.answer

theorem addr_stream (pins : ℕ → ConvAddrPins) (h : Fitting pins) : Streams pins where
  exact t := by
    obtain ⟨d, q, hacc, hdel, hq⟩ := (@queues pins).run (s := reset) rfl t
    refine ⟨d, q, hacc, ?_, h.answers (t := t) (fun i hi ↦ ?_) hdel⟩
    · rw [← List.length_map ConvAddrIn.output, ← hq]
      exact length_inFlight_le _
    · exact hacc ▸ List.mem_append_left q hi
  stable t hv hr := edge_stalled _ (pins t) hv hr
  drains hfair t := by
    obtain ⟨u, hu⟩ := (@queues pins).drains (s := reset) rfl
      (fun t q hq hne ↦ exists_sent hfair (by simpa [hq] using hne)) t
    exact ⟨u, h.answers (fun _ hi ↦ hi) hu⟩

/-- The top edge of a padded 3 × 3 map, its consumer ready every seventh cycle. -/
def edgeTap : ConvAddrIn where
  actBase := 0x40
  wtBase := 0x10
  inH := 3
  inW := 3
  inC := 2
  filtR := 3
  filtS := 3
  oh := 0
  ow := 2
  k := 1
  r := 0
  s := 1
  c := 1
  strideH := 1
  strideW := 1
  padH := 1
  padW := 1

theorem edgeTap_fits : edgeTap.Fits 3 3 2 := by
  constructor <;> decide

theorem addr_stream_edgeTap : Streams fun t ↦ ⟨edgeTap, true, t % 7 = 0⟩ :=
  addr_stream _ fun _ _ ↦ ⟨3, 3, 2, edgeTap_fits⟩

end ConvAddrGen

end LgNpu
