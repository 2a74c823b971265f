import LgNpu.Sw.Command
import LgNpu.Core.Dispatch
import LgNpu.Host.Transaction

/-!
# From the builder to the backend

The words of a builder, written to the window and rung in any session, are
pushed as one command, dispatched to one backend and read back through the view
of that backend.  Each operation uses certain bits of certain words; the others
may hold anything.
-/

namespace LgNpu

def NpuOpcode.backend : NpuOpcode → BackendId
  | .conv => .conv
  | .gemm => .gemm
  | .softmax => .softmax
  | .vec => .vec
  | .lnorm => .lnorm
  | .pool => .pool

/-! ## The bits an operation uses -/

/-- The bits of a word that hold a field of the operation, from the tables of
the command format. -/
def usedBits (op : NpuOpcode) (i : BitVec 4) : MmioData :=
  if i = 0 then 0xF
  else match op with
    | .conv => if i = 13 ∨ i = 14 then 0xFFFFFFFF else if i = 15 then 0x7F else 0xFFFF
    | .gemm => if i = 15 then 0x7F else if i.toNat ≤ 7 then 0xFFFF else 0
    | .softmax => if i = 1 ∨ i = 2 ∨ i = 5 ∨ i = 6 then 0xFFFF else 0
    | .vec => if i = 15 then 0x7F else if i.toNat ≤ 3 ∨ i = 5 ∨ i = 6 then 0xFFFF else 0
    | .lnorm => if i = 15 then 0x1F else if i = 1 ∨ i = 2 ∨ i = 5 ∨ i = 6 then 0xFFFF else 0
    | .pool =>
        if i = 13 ∨ i = 14 then 0xFFFFFFFF
        else if i = 15 then 0x1
        else if i = 3 ∨ i = 4 ∨ i = 8 then 0
        else 0xFFFF

/-- Equal in everything the operation uses. -/
def SameFields (op : NpuOpcode) (d d' : NpuCmdDesc) : Prop :=
  ∀ i, d' i &&& usedBits op i = d i &&& usedBits op i

theorem extract_of_used {x y m : MmioData} (start len : ℕ) (h : x &&& m = y &&& m)
    (hm : m.extractLsb' start len = BitVec.allOnes len) :
    x.extractLsb' start len = y.extractLsb' start len := by
  have hx : (x &&& m).extractLsb' start len = _ := BitVec.extractLsb'_and
  have hy : (y &&& m).extractLsb' start len = _ := BitVec.extractLsb'_and
  rw [hm, BitVec.and_allOnes] at hx hy
  rw [← hx, ← hy, h]

theorem setWidth_of_used {x y m : MmioData} (len : ℕ) (h : x &&& m = y &&& m)
    (hm : m.setWidth len = BitVec.allOnes len) : x.setWidth len = y.setWidth len := by
  have hx := BitVec.setWidth_and (x := x) (y := m) (k := len)
  have hy := BitVec.setWidth_and (x := y) (y := m) (k := len)
  rw [hm, BitVec.and_allOnes] at hx hy
  rw [← hx, ← hy, h]

/-! ## What a backend sees -/

section

variable {op : NpuOpcode} {d d' : NpuCmdDesc}

theorem opcode_of_sameFields (h : SameFields op d d') :
    (packCmd d').opcode = (packCmd d).opcode :=
  setWidth_of_used 4 (h 0) (by cases op <;> rfl)

theorem half_of_sameFields (h : SameFields op d d') (i : BitVec 4)
    (hi : (usedBits op i).setWidth 16 = BitVec.allOnes 16) :
    (d' i).setWidth 16 = (d i).setWidth 16 :=
  setWidth_of_used 16 (h i) hi

theorem quant_of_sameFields (h : SameFields op d d')
    (hi : (usedBits op 15).extractLsb' 0 7 = BitVec.allOnes 7) :
    (d' 15).setWidth 5 = (d 15).setWidth 5 ∧
      (d' 15).extractLsb' 5 2 = (d 15).extractLsb' 5 2 := by
  have hall := extract_of_used 0 7 (h 15) hi
  constructor
  · ext i hlt
    have hbit := congrArg (·.getLsbD i) hall
    simpa [show i < 7 by omega] using hbit
  · ext i hlt
    have hbit := congrArg (·.getLsbD (5 + i)) hall
    simpa [show 5 + i < 7 by omega] using hbit

/-- The view of a backend depends on the bits its operation uses and no others. -/
theorem view_of_sameFields (h : SameFields op d d') :
    op.backend.view (packCmd d') = op.backend.view (packCmd d) := by
  have half := half_of_sameFields h
  have hop : (d' 0).setWidth 4 = (d 0).setWidth 4 := opcode_of_sameFields h
  cases op with
  | conv =>
      have hH := extract_of_used 16 16 (h 13) (by decide)
      have hW := extract_of_used 16 16 (h 14) (by decide)
      obtain ⟨hq, ha⟩ := quant_of_sameFields h (by decide)
      simp only [NpuOpcode.backend, BackendId.view, packCmd, hop, hH, hW, hq, ha,
        half 1 (by decide), half 2 (by decide), half 3 (by decide), half 4 (by decide),
        half 5 (by decide), half 6 (by decide), half 7 (by decide), half 8 (by decide), half 9 (by decide),
        half 10 (by decide), half 11 (by decide), half 12 (by decide), half 13 (by decide),
        half 14 (by decide)]
  | gemm =>
      obtain ⟨hq, ha⟩ := quant_of_sameFields h (by decide)
      simp only [NpuOpcode.backend, BackendId.view, convToGemmCmd, packCmd, hq, ha,
        half 1 (by decide), half 2 (by decide), half 3 (by decide), half 4 (by decide),
        half 5 (by decide), half 6 (by decide), half 7 (by decide)]
  | softmax =>
      simp only [NpuOpcode.backend, BackendId.view, convToSoftmaxCmd, packCmd, half 1 (by decide),
        half 2 (by decide), half 5 (by decide), half 6 (by decide)]
  | vec =>
      obtain ⟨hq, ha⟩ := quant_of_sameFields h (by decide)
      simp only [NpuOpcode.backend, BackendId.view, convToVecCmd, packCmd, hq, ha,
        half 1 (by decide), half 2 (by decide), half 3 (by decide), half 5 (by decide),
        half 6 (by decide)]
  | lnorm =>
      have hs := setWidth_of_used 5 (h 15) (by decide)
      simp only [NpuOpcode.backend, BackendId.view, convToLnormCmd, packCmd, hs, half 1 (by decide),
        half 2 (by decide), half 5 (by decide), half 6 (by decide)]
  | pool =>
      have hH := extract_of_used 16 16 (h 13) (by decide)
      have hW := extract_of_used 16 16 (h 14) (by decide)
      have hmode : ((d' 15).setWidth 5).getLsbD 0 = ((d 15).setWidth 5).getLsbD 0 := by
        have hbit := congrArg (·.getLsbD 0) (setWidth_of_used 1 (h 15) (by decide))
        simpa using hbit
      simp only [NpuOpcode.backend, BackendId.view, convToPoolCmd, packCmd, hH, hW, hmode,
        half 1 (by decide), half 2 (by decide), half 5 (by decide), half 6 (by decide),
        half 7 (by decide), half 9 (by decide), half 10 (by decide), half 11 (by decide),
        half 12 (by decide), half 13 (by decide), half 14 (by decide)]

end

/-! ## What the parameters ask for -/

def NpuConvParams.asked (p : NpuConvParams) : ConvCmd where
  opcode := Opcode.opConv
  actInAddr := p.actInAddr
  actOutAddr := p.actOutAddr
  weightAddr := p.weightAddr
  biasAddr := p.biasAddr
  inH := p.inH
  inW := p.inW
  inC := p.inC
  outK := p.outK
  filtR := p.filtR
  filtS := p.filtS
  strideH := p.strideH
  strideW := p.strideW
  padH := p.padH
  padW := p.padW
  outH := p.outH
  outW := p.outW
  quantShift := .ofNat 5 (p.quantShift.toNat % 32)
  actMode := .ofNat 2 (p.actMode.toNat % 4)

def NpuGemmParams.asked (p : NpuGemmParams) : GemmCmd where
  aAddr := p.aAddr
  cAddr := p.cAddr
  bAddr := p.bAddr
  biasAddr := p.biasAddr
  mDim := p.m
  nDim := p.n
  kDim := p.k
  quantShift := .ofNat 5 (p.quantShift.toNat % 32)
  actMode := .ofNat 2 (p.actMode.toNat % 4)

def NpuSoftmaxParams.asked (p : NpuSoftmaxParams) : SoftmaxCmd where
  inAddr := p.inAddr
  outAddr := p.outAddr
  numRows := p.numRows
  rowLen := p.rowLen

/-- Every non-zero operation is MUL. -/
def NpuVecParams.asked (p : NpuVecParams) : VecCmd where
  aAddr := p.aAddr
  outAddr := p.outAddr
  bAddr := p.bAddr
  length := p.length
  vecOp := decide (p.vecOp ≠ 0)
  quantShift := .ofNat 5 (p.quantShift.toNat % 32)
  actMode := .ofNat 2 (p.actMode.toNat % 4)

def NpuLnormParams.asked (p : NpuLnormParams) : LnormCmd where
  inAddr := p.inAddr
  outAddr := p.outAddr
  numRows := p.numRows
  rowLen := p.rowLen
  normShift := .ofNat 5 (p.normShift.toNat % 32)

def NpuPoolParams.asked (p : NpuPoolParams) : PoolCmd where
  inAddr := p.inAddr
  outAddr := p.outAddr
  inH := p.inH
  inW := p.inW
  inC := p.inC
  poolR := p.poolR
  poolS := p.poolS
  strideH := p.strideH
  strideW := p.strideW
  padH := p.padH
  padW := p.padW
  outH := p.outH
  outW := p.outW
  poolMode := decide (p.poolMode.toNat % 2 = 1)

/-! ## Round trips -/

/-- In every session the doorbell for `d` is answered by `o`, at the latest when
the front end is at rest. -/
def StreamsAs (d : NpuCmdDesc) (o : Outcome) : Prop :=
  ∀ xs ms pops (front : FrontEnd), front.AtRest → front.queue.Holds xs →
    Session.Obeys ms pops (.start front) →
    ∀ t (k : ℕ), (Session.run ms pops (.start front) t).rung[k]? = some d →
      (∀ o', (Session.run ms pops (.start front) t).outcomes[k]? = some o' → o' = o) ∧
      ((Session.run ms pops (.start front) t).front.AtRest →
        (Session.run ms pops (.start front) t).outcomes[k]? = some o)

/-- Any descriptor with the same fields is pushed as it is, offered to the
backend of the operation and to no other, and seen there as `v`. -/
def RoundTrips (op : NpuOpcode) (d : NpuCmdDesc) (v : BackendCmd) : Prop :=
  ∀ d', SameFields op d d' →
    StreamsAs d' (.push (packCmd d')) ∧
    (∀ b, beCmdValid (packCmd d') true b = decide (b = op.backend)) ∧
    op.backend.view (packCmd d') = v

theorem streamsAs_outcomeOf (d : NpuCmdDesc) : StreamsAs d (outcomeOf d) := by
  intro xs ms pops front hrest hq hobeys t k hk
  have hinv := Session.inv_run hrest hq hobeys t
  have hans : ((Session.run ms pops (.start front) t).rung.map outcomeOf)[k]? =
      some (outcomeOf d) := by
    rw [List.getElem?_map, hk, Option.map_some]
  constructor
  · intro o' ho'
    obtain ⟨fs, -, hexp⟩ := hinv.pending
    have hlt := (List.getElem?_eq_some_iff.mp ho').1
    rw [hexp, List.append_assoc, List.getElem?_append_left hlt, ho'] at hans
    exact Option.some.inj hans
  · intro hidle
    rw [hinv.answered hidle, hans]

theorem outcomeOf_eq_push {op : NpuOpcode} {d : NpuCmdDesc}
    (h : (packCmd d).opcode = op.backend.opcode) : outcomeOf d = .push (packCmd d) := by
  have hgood : badOpcode d = false := by
    have hop : (d 0).setWidth 4 = op.backend.opcode := h
    rw [badOpcode, hop]
    cases op <;> decide
  simp [outcomeOf, hgood]

/-- Given the opcode, only the view is left to check. -/
theorem roundTrips_iff {op : NpuOpcode} {d : NpuCmdDesc} {v : BackendCmd}
    (h : (packCmd d).opcode = op.backend.opcode) :
    RoundTrips op d v ↔ op.backend.view (packCmd d) = v := by
  constructor
  · exact fun hrt ↦ (hrt d fun _ ↦ rfl).2.2
  · intro hview d' hd'
    have hop : (packCmd d').opcode = op.backend.opcode := (opcode_of_sameFields hd').trans h
    refine ⟨outcomeOf_eq_push hop ▸ streamsAs_outcomeOf d', fun b ↦ ?_,
      (view_of_sameFields hd').trans hview⟩
    rw [beCmdValid, hop, dispatchTo_opcode]
    rcases eq_or_ne b op.backend with rfl | hb
    · simp
    · simp [hb, hb.symm]

/-! ## The fields of the words -/

theorem ofNat_mod_eq_setWidth (k : ℕ) (x : BitVec 8) :
    BitVec.ofNat k (x.toNat % 2 ^ k) = x.setWidth k := by
  apply BitVec.eq_of_toNat_eq
  simp

@[simp] theorem shift_mod (x : BitVec 8) : BitVec.ofNat 5 (x.toNat % 32) = x.setWidth 5 :=
  ofNat_mod_eq_setWidth 5 x

@[simp] theorem act_mod (x : BitVec 8) : BitVec.ofNat 2 (x.toNat % 4) = x.setWidth 2 :=
  ofNat_mod_eq_setWidth 2 x

@[simp] theorem packQuant_shift (q a : BitVec 8) : (packQuant q a).setWidth 5 = q.setWidth 5 := by
  ext i hi
  interval_cases i <;> simp [packQuant]

@[simp] theorem packQuant_act (q a : BitVec 8) :
    (packQuant q a).extractLsb' 5 2 = a.setWidth 2 := by
  ext i hi
  interval_cases i <;> simp [packQuant, BitVec.getElem_extractLsb']

theorem bit_zero (x : BitVec 8) : x[0] = decide (x.toNat % 2 = 1) := by
  rw [BitVec.getElem_eq_testBit_toNat, Nat.testBit_zero]

section

variable {desc : Option NpuCmdDesc} {d : NpuCmdDesc}

theorem npuCmdBuildConv_roundTrips {p : NpuConvParams} (hH : p.outH ≠ 0) (hW : p.outW ≠ 0)
    (h : npuCmdBuildConv desc (some p) = (0, some d)) : RoundTrips .conv d (.conv p.asked) := by
  obtain rfl := eq_words_of_npuCmdBuild h
  refine (roundTrips_iff rfl).mpr (congrArg BackendCmd.conv ?_)
  simp [packCmd, NpuConvParams.asked, Function.update, deriveOutDim_provided hH,
    deriveOutDim_provided hW, NpuOpcode.value, Opcode.opConv]

theorem npuCmdBuildGemm_roundTrips {p : NpuGemmParams}
    (h : npuCmdBuildGemm desc (some p) = (0, some d)) : RoundTrips .gemm d (.gemm p.asked) := by
  obtain rfl := eq_words_of_npuCmdBuild h
  refine (roundTrips_iff rfl).mpr (congrArg BackendCmd.gemm ?_)
  simp [packCmd, convToGemmCmd, NpuGemmParams.asked, Function.update]

theorem npuCmdBuildSoftmax_roundTrips {p : NpuSoftmaxParams}
    (h : npuCmdBuildSoftmax desc (some p) = (0, some d)) :
    RoundTrips .softmax d (.softmax p.asked) := by
  obtain rfl := eq_words_of_npuCmdBuild h
  refine (roundTrips_iff rfl).mpr (congrArg BackendCmd.softmax ?_)
  simp [packCmd, convToSoftmaxCmd, NpuSoftmaxParams.asked, Function.update]

theorem npuCmdBuildLnorm_roundTrips {p : NpuLnormParams}
    (h : npuCmdBuildLnorm desc (some p) = (0, some d)) : RoundTrips .lnorm d (.lnorm p.asked) := by
  obtain rfl := eq_words_of_npuCmdBuild h
  refine (roundTrips_iff rfl).mpr (congrArg BackendCmd.lnorm ?_)
  simp [packCmd, convToLnormCmd, NpuLnormParams.asked, Function.update]
  exact BitVec.and_allOnes

theorem npuCmdBuildPool_roundTrips {p : NpuPoolParams} (hH : p.outH ≠ 0) (hW : p.outW ≠ 0)
    (h : npuCmdBuildPool desc (some p) = (0, some d)) : RoundTrips .pool d (.pool p.asked) := by
  obtain rfl := eq_words_of_npuCmdBuild h
  refine (roundTrips_iff rfl).mpr (congrArg BackendCmd.pool ?_)
  simp [packCmd, convToPoolCmd, NpuPoolParams.asked, Function.update, deriveOutDim_provided hH,
    deriveOutDim_provided hW, bit_zero]

/-- The view of `vec` takes bit 0 of the sub-operation. -/
theorem npuCmdBuildVec_view {p : NpuVecParams} (h : npuCmdBuildVec desc (some p) = (0, some d)) :
    convToVecCmd (packCmd d) = { p.asked with vecOp := p.vecOp[0] } := by
  obtain rfl := eq_words_of_npuCmdBuild h
  simp [packCmd, convToVecCmd, NpuVecParams.asked, Function.update]

theorem npuCmdBuildVec_roundTrips_iff {p : NpuVecParams}
    (h : npuCmdBuildVec desc (some p) = (0, some d)) :
    RoundTrips .vec d (.vec p.asked) ↔ p.vecOp = 0 ∨ p.vecOp.toNat % 2 = 1 := by
  have hop : (packCmd d).opcode = Opcode.opVec := by
    obtain rfl := eq_words_of_npuCmdBuild h
    rfl
  rw [@roundTrips_iff .vec _ _ hop, NpuOpcode.backend, BackendId.view, npuCmdBuildVec_view h,
    bit_zero]
  by_cases h0 : p.vecOp = 0
  · simp [NpuVecParams.asked, h0]
  · rw [or_iff_right h0]
    have hne : decide (p.vecOp = 0#8) = false := decide_eq_false h0
    simp [NpuVecParams.asked, hne]

end

/-- The parameters of every builder come back from the backend of its
operation, through any session and whatever the unused bits hold; those of
`npu_cmd_build_vec` do for a sub-operation that is zero or odd. -/
theorem npuCmdBuild_roundTrips (desc : Option NpuCmdDesc) (d : NpuCmdDesc) :
    (∀ p, p.outH ≠ 0 → p.outW ≠ 0 → npuCmdBuildConv desc (some p) = (0, some d) →
      RoundTrips .conv d (.conv p.asked)) ∧
    (∀ p, npuCmdBuildGemm desc (some p) = (0, some d) → RoundTrips .gemm d (.gemm p.asked)) ∧
    (∀ p, npuCmdBuildSoftmax desc (some p) = (0, some d) →
      RoundTrips .softmax d (.softmax p.asked)) ∧
    (∀ p, npuCmdBuildVec desc (some p) = (0, some d) →
      (RoundTrips .vec d (.vec p.asked) ↔ p.vecOp = 0 ∨ p.vecOp.toNat % 2 = 1)) ∧
    (∀ p, npuCmdBuildLnorm desc (some p) = (0, some d) → RoundTrips .lnorm d (.lnorm p.asked)) ∧
    ∀ p, p.outH ≠ 0 → p.outW ≠ 0 → npuCmdBuildPool desc (some p) = (0, some d) →
      RoundTrips .pool d (.pool p.asked) :=
  ⟨fun _ hH hW h ↦ npuCmdBuildConv_roundTrips hH hW h, fun _ h ↦ npuCmdBuildGemm_roundTrips h,
    fun _ h ↦ npuCmdBuildSoftmax_roundTrips h, fun _ h ↦ npuCmdBuildVec_roundTrips_iff h,
    fun _ h ↦ npuCmdBuildLnorm_roundTrips h, fun _ hH hW h ↦ npuCmdBuildPool_roundTrips hH hW h⟩

/-- A product of four elements, the sub-operation being `2`. -/
def evenVecOp : NpuVecParams := ⟨0, 64, 0, 4, 2, 0, 0⟩

theorem npuCmdBuild_roundTrips_mul : ∃ d,
    npuCmdBuildVec (some cmdClear) (some { evenVecOp with vecOp := 1 }) = (0, some d) ∧
      RoundTrips .vec d (.vec ⟨0, 64, 0, 4, true, 0, 0⟩) :=
  ⟨_, rfl, ((npuCmdBuild_roundTrips (some cmdClear) _).2.2.2.1 { evenVecOp with vecOp := 1 }
    rfl).mpr (.inr rfl)⟩

/-- Every builder's parameters come back. -/
def AllRoundTrip : Prop :=
  ∀ desc d,
    (∀ p, p.outH ≠ 0 → p.outW ≠ 0 → npuCmdBuildConv desc (some p) = (0, some d) →
      RoundTrips .conv d (.conv p.asked)) ∧
    (∀ p, npuCmdBuildGemm desc (some p) = (0, some d) → RoundTrips .gemm d (.gemm p.asked)) ∧
    (∀ p, npuCmdBuildSoftmax desc (some p) = (0, some d) →
      RoundTrips .softmax d (.softmax p.asked)) ∧
    (∀ p, npuCmdBuildVec desc (some p) = (0, some d) → RoundTrips .vec d (.vec p.asked)) ∧
    (∀ p, npuCmdBuildLnorm desc (some p) = (0, some d) → RoundTrips .lnorm d (.lnorm p.asked)) ∧
    ∀ p, p.outH ≠ 0 → p.outW ≠ 0 → npuCmdBuildPool desc (some p) = (0, some d) →
      RoundTrips .pool d (.pool p.asked)

theorem not_allRoundTrip_evenVecOp : ¬AllRoundTrip := by
  intro h
  have hrt := (h (some cmdClear) _).2.2.2.1 evenVecOp rfl
  have hbuilt : npuCmdBuildVec (some cmdClear) (some evenVecOp) = (0, some _) := rfl
  exact absurd ((npuCmdBuildVec_roundTrips_iff hbuilt).mp hrt) (by decide)

end LgNpu
