import LgNpu.Device.Waiting
import LgNpu.Sw.RoundTrip
import LgNpu.Sw.Tensor
import LgNpu.Tb.MacTests

/-!
# Products in external memory

Operands are fetched by the DMA, the command that `npu_cmd_build_gemm` builds
is submitted and the result is stored by the DMA: the external memory then
holds the product, whatever the delays of its port.
-/

namespace LgNpu

open NpuCore NpuTb Copier

/-! ## Transfers of a region -/

/-- The bytes at an external address. -/
def bytesAt (e : BitVec 32 → MmioData) (base : BitVec 32) (n : ℕ) : List Byte :=
  (List.range n).map fun i ↦ (e (base + .ofNat 32 i)).setWidth 8

/-- A request for `n` bytes at entry `addr` of the buffer at `base`. -/
def requestAt (ext base addr : BitVec 32) (n : ℕ) (dir : BitVec 32) : LgnpuIoctlDma :=
  ⟨ext, base + addr, .ofNat 32 n, dir⟩

/-- A buffer of the address map with its entries in order. -/
structure BufWindow where
  base : BitVec 32
  size : ℕ
  entry : ℕ → SramLoc
  size_le : size ≤ 8192
  locate_entry : ∀ n < size, locate ((base + .ofNat 32 n).setWidth 20) = some (entry n)

namespace BufWindow

def act : BufWindow := ⟨actBase, 8192, fun n ↦ .act (.ofNat 13 n), le_rfl, fun _ h ↦ locate_act h⟩

def wt : BufWindow :=
  ⟨weightBase, 4096, fun n ↦ .wt (.ofNat 12 n), by decide, fun _ h ↦ locate_weight h⟩

variable (b : BufWindow) {s : Sram} {e : BitVec 32 → MmioData} {ext addr : BitVec 32} {n : ℕ}
  {dir : BitVec 32}

theorem locate_requestAt {i : ℕ} (h : addr.toNat + i < b.size) :
    locate ((requestAt ext b.base addr n dir).cfg.locAddr + .ofNat 20 i) =
      some (b.entry (addr.toNat + i)) := by
  rw [← b.locate_entry _ h, ← bus_assoc, BitVec.setWidth_add _ _ (by decide),
    BitVec.setWidth_ofNat_of_le (by decide)]
  rfl

section Fits

variable (h : addr.toNat + n ≤ b.size)
include h

theorem len_requestAt : (requestAt ext b.base addr n dir).cfg.len.toNat = n := by
  have hsize := b.size_le
  change ((BitVec.ofNat 32 n).setWidth 16).toNat = n
  rw [BitVec.toNat_setWidth, BitVec.toNat_ofNat]
  omega

theorem proper_requestAt (hpos : 0 < n) : (requestAt ext b.base addr n dir).cfg.Proper := by
  have hlen := @len_requestAt b ext addr n dir h
  refine ⟨hpos.trans_eq hlen.symm, fun i hi ↦ ?_⟩
  rw [hlen] at hi
  rw [b.locate_requestAt (by omega)]
  rfl

/-- A fetch stores byte after byte. -/
theorem effect_fetch : (Call.dma (requestAt ext b.base addr n 0)).effect (s, e) =
    ((List.range n).foldl (fun s i ↦ s.store (b.entry (addr.toNat + i)) (e (ext + .ofNat 32 i))) s,
      e) := by
  rw [Call.effect, DmaCfg.copy, b.len_requestAt h]
  refine Prod.ext (List.foldl_ext _ _ _ fun s i hi ↦ ?_) rfl
  have hi' := List.mem_range.mp hi
  have hloc := @locate_requestAt b ext addr n 0 i (by omega)
  change (locate ((requestAt ext b.base addr n 0).cfg.locAddr + .ofNat 20 i)).elim s _ = _
  rw [hloc]
  rfl

end Fits

end BufWindow

section Region

variable {s : Sram} {e : BitVec 32 → MmioData} {ext addr : BitVec 32} {n : ℕ}

@[simp] theorem length_bytesAt : (bytesAt e ext n).length = n := by simp [bytesAt]

theorem getD_bytesAt {i : ℕ} (h : i < n) :
    (bytesAt e ext n).getD i 0 = (e (ext + .ofNat 32 i)).setWidth 8 := by
  rw [List.getD_eq_getElem _ _ (by simpa using h)]
  simp [bytesAt]

theorem foldl_store_act {base : ℕ} {v : ℕ → MmioData} :
    (List.range n).foldl (fun s i ↦ s.store (.act (.ofNat 13 (base + i))) (v i)) s = { s with
      act := WriteLog.replay s.act (Region.cells 13 base n fun i ↦ (v i).setWidth 8) } := by
  induction n with
  | zero => rfl
  | succ n ih =>
      rw [List.range_succ, List.foldl_append, ih, Region.cells_succ, WriteLog.replay_concat]
      rfl

theorem foldl_store_wt {base : ℕ} {v : ℕ → MmioData} :
    (List.range n).foldl (fun s i ↦ s.store (.wt (.ofNat 12 (base + i))) (v i)) s = { s with
      wt := WriteLog.replay s.wt (Region.cells 12 base n fun i ↦ (v i).setWidth 8) } := by
  induction n with
  | zero => rfl
  | succ n ih =>
      rw [List.range_succ, List.foldl_append, ih, Region.cells_succ, WriteLog.replay_concat]
      rfl

theorem effect_fetch_act (h : addr.toNat + n ≤ 8192) :
    (Call.dma (requestAt ext actBase addr n 0)).effect (s, e) =
      ({ s with act := WriteLog.replay s.act (Region.cells 13 addr.toNat n
        fun i ↦ (e (ext + .ofNat 32 i)).setWidth 8) }, e) :=
  (BufWindow.act.effect_fetch h).trans (Prod.ext foldl_store_act rfl)

theorem effect_fetch_wt (h : addr.toNat + n ≤ 4096) :
    (Call.dma (requestAt ext weightBase addr n 0)).effect (s, e) =
      ({ s with wt := WriteLog.replay s.wt (Region.cells 12 addr.toNat n
        fun i ↦ (e (ext + .ofNat 32 i)).setWidth 8) }, e) :=
  (BufWindow.wt.effect_fetch h).trans (Prod.ext foldl_store_wt rfl)

theorem effect_store_act (h : addr.toNat + n ≤ 8192) {v : ℕ → Byte}
    (hv : Region.Holds s.act addr.toNat n v) :
    ((Call.dma (requestAt ext actBase addr n 1)).effect (s, e)).2 =
      WriteLog.replay e ((List.range n).map fun i ↦ (ext + .ofNat 32 i, (v i).setWidth 32)) := by
  have hlen : (requestAt ext actBase addr n 1).cfg.len.toNat = n := BufWindow.act.len_requestAt h
  have hview : ∀ i < n, s.view ((requestAt ext actBase addr n 1).cfg.locAddr + .ofNat 20 i) =
      (v i).setWidth 32 := by
    intro i hi
    have hloc := @BufWindow.locate_requestAt .act ext addr n 1 i (by change _ < 8192; omega)
    rw [Sram.view]
    exact (congrArg (Option.elim · 0 s.load) hloc).trans <| congrArg (BitVec.setWidth 32) (hv i hi)
  rw [Call.effect, DmaCfg.copy, hlen]
  refine congrArg (WriteLog.replay e) (List.map_congr_left fun i hi ↦ Prod.ext rfl ?_)
  exact hview i (List.mem_range.mp hi)

/-- What was stored is there. -/
theorem stored_at (h : addr.toNat + n ≤ 8192) {v : ℕ → Byte}
    (hv : Region.Holds s.act addr.toNat n v) {i : ℕ} (hi : i < n) :
    ((Call.dma (requestAt ext actBase addr n 1)).effect (s, e)).2 (ext + .ofNat 32 i) =
      (v i).setWidth 32 := by
  rw [effect_store_act h hv]
  refine WriteLog.replay_of_mem ?_ (List.mem_map_of_mem (List.mem_range.mpr hi))
  rw [List.map_map]
  refine List.Nodup.map_on (fun i hi j hj hij ↦ ?_) List.nodup_range
  have hi' := List.mem_range.mp hi
  have hj' := List.mem_range.mp hj
  have hofNat := (BitVec.add_right_inj ext).mp hij
  exact Region.ofNat_inj (w := 32) (by omega) (by omega) hofNat

/-- And nothing else has changed. -/
theorem stored_elsewhere (h : addr.toNat + n ≤ 8192) {v : ℕ → Byte}
    (hv : Region.Holds s.act addr.toNat n v) {k : BitVec 32}
    (hk : ∀ i < n, ext + .ofNat 32 i ≠ k) :
    ((Call.dma (requestAt ext actBase addr n 1)).effect (s, e)).2 k = e k := by
  rw [effect_store_act h hv]
  refine WriteLog.replay_of_notMem fun w hw ↦ ?_
  obtain ⟨i, hi, rfl⟩ := List.mem_map.mp hw
  exact hk i (List.mem_range.mp hi)

end Region

/-! ## The product -/

namespace NpuGemmParams

variable (p : NpuGemmParams)

/-- Everything inside the buffers and apart, and a shift and a mode that the
words can hold. -/
structure Fits : Prop where
  m : 0 < p.m.toNat
  n : 0 < p.n.toNat
  k : 0 < p.k.toNat
  aRange : p.aAddr.toNat + p.m.toNat * p.k.toNat ≤ 8192
  cRange : p.cAddr.toNat + p.m.toNat * p.n.toNat ≤ 8192
  bRange : p.bAddr.toNat + p.k.toNat * p.n.toNat ≤ 4096
  biasRange : p.biasAddr.toNat + p.n.toNat ≤ 4096
  regions : p.aAddr.toNat + p.m.toNat * p.k.toNat ≤ p.cAddr.toNat ∨
    p.cAddr.toNat + p.m.toNat * p.n.toNat ≤ p.aAddr.toNat
  weights : p.bAddr.toNat + p.k.toNat * p.n.toNat ≤ p.biasAddr.toNat ∨
    p.biasAddr.toNat + p.n.toNat ≤ p.bAddr.toNat
  quantShift : p.quantShift.toNat < 32
  actMode : p.actMode.toNat < 3

/-- Where the operands and the result are in the external memory. -/
structure External where
  a : BitVec 32
  b : BitVec 32
  bias : BitVec 32
  c : BitVec 32

variable (x : External) (words : NpuCmdDesc)

def fetches : List Call :=
  [.dma (requestAt x.a actBase (p.aAddr.setWidth 32) (p.m.toNat * p.k.toNat) 0),
    .dma (requestAt x.b weightBase (p.bAddr.setWidth 32) (p.k.toNat * p.n.toNat) 0),
    .dma (requestAt x.bias weightBase (p.biasAddr.setWidth 32) p.n.toNat 0)]

/-- The operands in, the command, the result out. -/
def offload : List Call := p.fetches x ++ [.submit words,
  .dma (requestAt x.c actBase (p.cAddr.setWidth 32) (p.m.toNat * p.n.toNat) 1)]

/-- The product of the operands found in the external memory. -/
def product (e : BitVec 32 → MmioData) : List Byte :=
  refGemm (bytesAt e x.a (p.m.toNat * p.k.toNat)) (bytesAt e x.b (p.k.toNat * p.n.toNat))
    (bytesAt e x.bias p.n.toNat) p.m.toNat p.n.toNat p.k.toNat p.quantShift.toNat
    (p.actMode.setWidth 32)

/-- The buffers with the operands in. -/
def loaded (s : Sram) (e : BitVec 32 → MmioData) : Sram :=
  { s with
    act := WriteLog.replay s.act (Region.cells 13 p.aAddr.toNat (p.m.toNat * p.k.toNat)
      fun i ↦ (e (x.a + .ofNat 32 i)).setWidth 8)
    wt := WriteLog.replay
      (WriteLog.replay s.wt (Region.cells 12 p.bAddr.toNat (p.k.toNat * p.n.toNat)
        fun i ↦ (e (x.b + .ofNat 32 i)).setWidth 8))
      (Region.cells 12 p.biasAddr.toNat p.n.toNat fun i ↦ (e (x.bias + .ofNat 32 i)).setWidth 8) }

variable {p x words} {s : Sram} {e : BitVec 32 → MmioData}

theorem product_eq : p.product x e = (List.range (p.m.toNat * p.n.toNat)).map fun i ↦
    .ofInt 8 (gemmVal (bytesAt e x.a (p.m.toNat * p.k.toNat)) (bytesAt e x.b (p.k.toNat * p.n.toNat))
      (bytesAt e x.bias p.n.toNat) p.n.toNat p.k.toNat p.quantShift.toNat (p.actMode.setWidth 32)
      (i / p.n.toNat) (i % p.n.toNat)) := refGemm_eq (by omega)

theorem length_product : (p.product x e).length = p.m.toNat * p.n.toNat := by
  rw [product_eq, List.length_map, List.length_range]

/-- The words ask the backend for what the parameters say. -/
theorem view_of_npuCmdBuildGemm {desc : Option NpuCmdDesc}
    (h : npuCmdBuildGemm desc (some p) = (0, some words)) :
    (packCmd words).opcode = BackendId.gemm.opcode ∧
      convToGemmCmd (packCmd words) = p.asked := by
  obtain rfl := eq_words_of_npuCmdBuild h
  refine ⟨rfl, ?_⟩
  simp [packCmd, convToGemmCmd, asked, Function.update]

section Fits

variable (h : p.Fits)
include h

theorem Fits.mulPos : 0 < p.m.toNat * p.k.toNat ∧ 0 < p.k.toNat * p.n.toNat ∧
    0 < p.m.toNat * p.n.toNat :=
  ⟨Nat.mul_pos h.m h.k, Nat.mul_pos h.k h.n, Nat.mul_pos h.m h.n⟩

theorem Fits.valid : p.asked.Valid :=
  ⟨⟨h.m, h.n, h.k⟩, h.aRange, h.cRange, h.bRange, h.biasRange, h.regions⟩

theorem Fits.effect_fetches :
    (p.fetches x).foldl Call.effect (s, e) = (p.loaded x s e, e) := by
  have ha := h.aRange
  have hb := h.bRange
  have hbias := h.biasRange
  rw [← toNat_widen] at ha hb hbias
  simp only [fetches, List.foldl_cons, List.foldl_nil]
  rw [effect_fetch_act ha, effect_fetch_wt hb, effect_fetch_wt hbias]
  simp only [toNat_widen]
  rfl

/-- The operands are where the command looks for them. -/
theorem Fits.loaded_holds :
    Region.Holds (p.loaded x s e).act p.aAddr.toNat (p.m.toNat * p.k.toNat)
      (fun i ↦ (bytesAt e x.a (p.m.toNat * p.k.toNat)).getD i 0) ∧
    Region.Holds (p.loaded x s e).wt p.bAddr.toNat (p.k.toNat * p.n.toNat)
      (fun i ↦ (bytesAt e x.b (p.k.toNat * p.n.toNat)).getD i 0) ∧
    Region.Holds (p.loaded x s e).wt p.biasAddr.toNat p.n.toNat
      fun i ↦ (bytesAt e x.bias p.n.toNat).getD i 0 := by
  refine ⟨?_, ?_, ?_⟩
  · exact (Region.holds_cells h.aRange).congr fun i hi ↦ (getD_bytesAt hi).symm
  · refine ((Region.holds_cells h.bRange).cells h.biasRange h.bRange h.weights).congr fun i hi ↦ ?_
    exact (getD_bytesAt hi).symm
  · exact (Region.holds_cells h.biasRange).congr fun i hi ↦ (getD_bytesAt hi).symm

/-- On them it computes the product. -/
theorem Fits.cVal_eq {i : ℕ} (hi : i < p.m.toNat * p.n.toNat) :
    p.asked.cVal (p.loaded x s e).act (p.loaded x s e).wt (i / p.n.toNat) (i % p.n.toNat) =
      gemmVal (bytesAt e x.a (p.m.toNat * p.k.toNat)) (bytesAt e x.b (p.k.toNat * p.n.toNat))
        (bytesAt e x.bias p.n.toNat) p.n.toNat p.k.toNat p.quantShift.toNat
        (p.actMode.setWidth 32) (i / p.n.toNat) (i % p.n.toNat) := by
  have hact := h.actMode
  have hquant := h.quantShift
  obtain ⟨ha, hb, hbias⟩ := h.loaded_holds (x := x) (s := s) (e := e)
  have hmode : (p.actMode.setWidth 32).toNat < 3 := by
    rw [BitVec.toNat_setWidth]
    omega
  have hcmd : p.asked.actMode = (p.actMode.setWidth 32).setWidth 2 := by
    change BitVec.ofNat 2 (p.actMode.toNat % 4) = _
    rw [act_mod, BitVec.setWidth_setWidth_of_le _ (by decide)]
  have hshift : p.asked.quantShift.toNat = p.quantShift.toNat := by
    change (BitVec.ofNat 5 (p.quantShift.toNat % 32)).toNat = _
    rw [BitVec.toNat_ofNat]
    omega
  have hval := GemmCmd_cVal_eq hmode hcmd ha hb hbias (LoopNest.div_lt_of_lt_mul hi)
    (Nat.mod_lt i h.n)
  rw [hshift] at hval
  exact hval

section Command

variable (hop : (packCmd words).opcode = BackendId.gemm.opcode)
  (hcmd : convToGemmCmd (packCmd words) = p.asked)
include hop hcmd

/-- The command leaves the product in the activation buffer. -/
theorem Fits.exec_holds : Region.Holds ((p.loaded x s e).exec words).act p.cAddr.toNat
    (p.m.toNat * p.n.toNat) fun i ↦ (p.product x e).getD i 0 := by
  have htable := GemmCmd_tableWrites_eq p.asked (p.loaded x s e).act (p.loaded x s e).wt
  have hheld := holds_store (m := (p.loaded x s e).act) h.cRange product_eq
    fun i hi ↦ congrArg (BitVec.ofInt 8) (h.cVal_eq (x := x) (s := s) (e := e) hi)
  rw [length_product] at hheld
  rw [Sram.exec_eq hop]
  change Region.Holds (store (p.loaded x s e).act
    ((convToGemmCmd (packCmd words)).tableWrites _ _)) _ _ _
  rw [hcmd, htable]
  exact hheld

theorem Fits.servable : (p.loaded x s e).Servable words := by
  refine Sram.servable_of hop ?_ trivial
  change (convToGemmCmd (packCmd words)).Valid
  rw [hcmd]
  exact h.valid

theorem Fits.allLegal : Call.AllLegal (s, e) (p.offload x words) := by
  have ha := h.aRange
  have hb := h.bRange
  have hbias := h.biasRange
  have hc := h.cRange
  rw [← toNat_widen] at ha hb hbias hc
  have hfetched := h.effect_fetches (x := x) (s := s) (e := e)
  have hservable : (((p.fetches x).foldl Call.effect (s, e)).1).Servable words := by
    rw [hfetched]
    exact h.servable hop hcmd
  exact ⟨BufWindow.act.proper_requestAt ha h.mulPos.1, BufWindow.wt.proper_requestAt hb h.mulPos.2.1,
    BufWindow.wt.proper_requestAt hbias h.n, hservable,
    BufWindow.act.proper_requestAt hc h.mulPos.2.2, trivial⟩

/-- The product is in the external memory, and nothing else has changed there. -/
theorem Fits.effect_offload :
    (∀ i < p.m.toNat * p.n.toNat, ((p.offload x words).foldl Call.effect (s, e)).2
      (x.c + .ofNat 32 i) = ((p.product x e).getD i 0).setWidth 32) ∧
    ∀ k, (∀ i < p.m.toNat * p.n.toNat, x.c + .ofNat 32 i ≠ k) →
      ((p.offload x words).foldl Call.effect (s, e)).2 k = e k := by
  have hc := h.cRange
  rw [← toNat_widen] at hc
  have hheld := h.exec_holds (x := x) (s := s) (e := e) hop hcmd
  rw [← toNat_widen] at hheld
  rw [offload, List.foldl_append, h.effect_fetches]
  exact ⟨fun i ↦ stored_at hc hheld, fun k ↦ stored_elsewhere hc hheld⟩

end Command

/-- Whatever the delays of the external memory, a patient driver that offloads
a product finds it there in the end, and everything else as it was. -/
theorem product_offloaded {desc : Option NpuCmdDesc}
    (hbuild : npuCmdBuildGemm desc (some p) = (0, some words)) {y : Machine} {a : IdealMachine}
    {ins : ℕ → MachineIn} {n : ℕ} (hy : y.Rest a)
    (hmakes : Machine.Makes (p.offload x words) ins n y a) :
    ∃ U, ∀ u, U ≤ u →
      (∀ i < p.m.toNat * p.n.toNat, (y.run ins u).ext.mem (x.c + .ofNat 32 i) =
        ((p.product x y.ext.mem).getD i 0).setWidth 32) ∧
      ∀ k, (∀ i < p.m.toNat * p.n.toNat, x.c + .ofNat 32 i ≠ k) →
        (y.run ins u).ext.mem k = y.ext.mem k := by
  obtain ⟨hop, hcmd⟩ := view_of_npuCmdBuildGemm hbuild
  obtain ⟨U, hU⟩ := Machine.calls_carried_out hy hmakes (h.allLegal hop hcmd)
  refine ⟨U, fun u hu ↦ ?_⟩
  have hext := congrArg Prod.snd (hU u hu)
  change (y.run ins u).ext.mem = _ at hext
  rw [hext]
  exact h.effect_offload hop hcmd

end Fits

/-! ### One product -/

/-- One product and a bias. -/
def onePlusBias : NpuGemmParams := ⟨0, 64, 0, 1, 1, 1, 1, 0, 0⟩

theorem fits_onePlusBias : onePlusBias.Fits := by constructor <;> decide

/-- `7 · 7 + 7`, offloaded by a driver that waits. -/
theorem product_offloaded_one : ∃ ins U, ∀ u, U ≤ u →
    (Machine.sevens.run ins u).ext.mem 0x2000 = 56 := by
  obtain ⟨words, hbuild⟩ : ∃ words,
      npuCmdBuildGemm (some cmdClear) (some onePlusBias) = (0, some words) := ⟨_, rfl⟩
  obtain ⟨hop, hcmd⟩ := view_of_npuCmdBuildGemm hbuild
  obtain ⟨ins, n, -, hmakes⟩ := Machine.exists_makes Machine.rest_sevens le_rfl
    (fits_onePlusBias.allLegal (x := ⟨0, 0, 0, 0x2000⟩) hop hcmd)
  obtain ⟨U, hU⟩ := product_offloaded fits_onePlusBias hbuild Machine.rest_sevens hmakes
  refine ⟨ins, U, fun u hu ↦ ((hU u hu).1 0 (by decide)).trans ?_⟩
  decide

end NpuGemmParams

end LgNpu
