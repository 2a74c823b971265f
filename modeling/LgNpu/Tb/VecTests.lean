import LgNpu.Tb.MacTests
import LgNpu.Vec.Exact

/-!
# The test of the vector kind

`ref_vec` over the integers, and `run_vec_test`: whatever the vectors, in place
or onto a disjoint region, the device returns what the reference model computes.
-/

namespace LgNpu

open ForLoop NpuCore

namespace NpuTb

/-- Element `i` of the reference. -/
def vecVal (a b : List Byte) (vecOp : MmioData) (quantShift : ℕ) (actMode : MmioData) (i : ℕ) : ℤ :=
  Signed.sat8 (if vecOp = 0 then intAt a i + intAt b i
    else refActivate actMode (intAt a i * intAt b i) >>> quantShift)

theorem refVec_eq (a b : List Byte) (length : ℕ) (vecOp : MmioData) (quantShift : ℕ)
    (actMode : MmioData) : refVec a b length vecOp quantShift actMode =
      (List.range length).map fun i ↦ .ofInt 8 (vecVal a b vecOp quantShift actMode i) := by
  have hadd : ∀ i, (int32At a i + int32At b i).toInt = intAt a i + intAt b i := by
    intro i
    obtain ⟨ha, ha'⟩ := intAt_bounds a i
    obtain ⟨hb, hb'⟩ := intAt_bounds b i
    rw [int32At_eq, int32At_eq, ← BitVec.ofInt_add, BitVec.toInt_ofInt,
      Signed.bmod_two_pow (w := 31) (by omega) (by omega)]
  have hmul : ∀ i, (int32At a i * int32At b i).toInt = intAt a i * intAt b i := by
    intro i
    obtain ⟨hlo, hhi⟩ := abs_le.mp (abs_intAt_mul_le a b i i)
    rw [int32At_eq, int32At_eq, ← BitVec.ofInt_mul, BitVec.toInt_ofInt,
      Signed.bmod_two_pow (w := 31) (by omega) (by omega)]
  have hbody : ∀ i (out : List Byte), (if vecOp = 0 then
      out.set i ((if (if (127 : Acc).slt (int32At a i + int32At b i) then 127
        else int32At a i + int32At b i).slt (-128) then (-128 : Acc)
          else if (127 : Acc).slt (int32At a i + int32At b i) then 127
            else int32At a i + int32At b i).setWidth 8)
      else out.set i (refPost quantShift actMode (int32At a i * int32At b i))) =
        out.set i (.ofInt 8 (vecVal a b vecOp quantShift actMode i)) := by
    intro i out
    rw [clamp_eq, hadd, refPost_eq quantShift actMode (hmul i), vecVal]
    split <;> rfl
  have hloop : refVec a b length vecOp quantShift actMode = loop length (List.replicate length 0)
      fun i out ↦ out.set i (.ofInt 8 (vecVal a b vecOp quantShift actMode i)) :=
    loop_congr fun i _ out ↦ hbody i out
  rw [hloop, loop_set _ List.length_replicate]

structure VecDesc where
  opcode : MmioData
  aAddr : MmioData
  outAddr : MmioData
  bAddr : MmioData
  length : MmioData
  vecOp : MmioData
  quantShift : MmioData
  actMode : MmioData

def VecDesc.toWords (d : VecDesc) : NpuCmdDesc :=
  WriteLog.replay cmdClear
    [(0, d.opcode), (1, d.aAddr), (2, d.outAddr), (3, d.bAddr), (5, d.length), (6, d.vecOp),
      (15, quantWord d.quantShift d.actMode)]

/-- The arguments of `run_vec_test`. -/
structure VecTest where
  a : List Byte
  b : List Byte
  length : ℕ
  vecOp : MmioData
  qshift : ℕ
  actMode : MmioData
  aAddr : MmioData
  bAddr : MmioData
  outAddr : MmioData

namespace VecTest

variable (p : VecTest)

def desc : VecDesc where
  opcode := 4
  aAddr := p.aAddr
  outAddr := p.outAddr
  bAddr := p.bAddr
  length := .ofNat 32 p.length
  vecOp := p.vecOp
  quantShift := .ofNat 32 p.qshift
  actMode := p.actMode

def run : Test where
  loads := loadBytes (actBase + p.aAddr) p.a ++
    (loadBytes (weightBase + p.bAddr) p.b ++ submitWords p.desc.toWords)
  outBase := actBase + p.outAddr
  expected := refVec p.a p.b p.length p.vecOp p.qshift p.actMode

/-- Vectors of the right size, everything inside the buffers, `A` and the output
identical or apart, and an operation and a mode the fields can hold. -/
structure Fits : Prop where
  a : p.a.length = p.length
  b : p.b.length = p.length
  lengthPos : 0 < p.length
  vecOp : p.vecOp.toNat < 2
  qshift : p.qshift < 32
  actMode : p.actMode.toNat < 4
  aRange : p.aAddr.toNat + p.length ≤ 8192
  outRange : p.outAddr.toNat + p.length ≤ 8192
  bRange : p.bAddr.toNat + p.length ≤ 4096
  regions : p.aAddr = p.outAddr ∨ p.aAddr.toNat + p.length ≤ p.outAddr.toNat ∨
    p.outAddr.toNat + p.length ≤ p.aAddr.toNat

/-- The command the words encode. -/
def cmd : VecCmd where
  aAddr := p.aAddr.setWidth 16
  outAddr := p.outAddr.setWidth 16
  bAddr := p.bAddr.setWidth 16
  length := (BitVec.ofNat 32 p.length).setWidth 16
  vecOp := p.vecOp.getLsbD 0
  quantShift := (BitVec.ofNat 32 p.qshift).setWidth 5
  actMode := p.actMode.setWidth 2

theorem convToVecCmd_toWords : convToVecCmd (packCmd p.desc.toWords) = p.cmd := by
  simp [packCmd, convToVecCmd, VecDesc.toWords, desc, cmd, Function.update]

variable {p} (h : p.Fits)
include h

theorem Fits.length : p.cmd.length.toNat = p.length := toNat_dim (by have := h.aRange; omega)

theorem Fits.cmd_aAddr : p.cmd.aAddr.toNat = p.aAddr.toNat :=
  toNat_addr (by have := h.aRange; omega)

theorem Fits.cmd_outAddr : p.cmd.outAddr.toNat = p.outAddr.toNat :=
  toNat_addr (by have := h.outRange; omega)

theorem Fits.cmd_bAddr : p.cmd.bAddr.toNat = p.bAddr.toNat :=
  toNat_addr (by have := h.bRange; omega)

theorem Fits.valid : p.cmd.Valid where
  length_pos := h.length ▸ h.lengthPos
  aRange := by
    rw [h.cmd_aAddr, h.length]
    exact h.aRange
  outRange := by
    rw [h.cmd_outAddr, h.length]
    exact h.outRange
  bRange := by
    rw [h.cmd_bAddr, h.length]
    exact h.bRange
  regions := by
    rw [h.cmd_aAddr, h.cmd_outAddr, h.length]
    exact h.regions.imp_left fun heq ↦ by simp only [cmd, heq]

theorem Fits.actOf_eq (v : ℤ) : p.cmd.actOf v = refActivate p.actMode v := by
  have hmode := h.actMode
  have hcases : p.actMode = 0 ∨ p.actMode = 1 ∨ p.actMode = 2 ∨ p.actMode = 3 := by bv_omega
  rw [VecCmd.actOf, cmd]
  rcases hcases with heq | heq | heq | heq <;> rw [heq] <;> rfl

/-- On the loaded vectors the command computes the reference. -/
theorem Fits.valueOf_eq {act : BitVec 13 → Byte} {wt : BitVec 12 → Byte}
    (hact : Region.Holds act p.aAddr.toNat p.length fun i ↦ p.a.getD i 0)
    (hwt : Region.Holds wt p.bAddr.toNat p.length fun i ↦ p.b.getD i 0) {i : ℕ}
    (hi : i < p.length) : p.cmd.valueOf (p.cmd.aVal act i) (p.cmd.bVal wt i) =
      vecVal p.a p.b p.vecOp p.qshift p.actMode i := by
  have ha : p.cmd.aVal act i = intAt p.a i := by
    rw [VecCmd.aVal, h.cmd_aAddr]
    exact congrArg BitVec.toInt (hact i hi)
  have hb : p.cmd.bVal wt i = intAt p.b i := by
    rw [VecCmd.bVal, h.cmd_bAddr]
    exact congrArg BitVec.toInt (hwt i hi)
  have hshift : p.cmd.quantShift.toNat = p.qshift := toNat_shift h.qshift
  have hop := h.vecOp
  have hcases : p.vecOp = 0 ∨ p.vecOp = 1 := by bv_omega
  rw [VecCmd.valueOf, ha, hb, h.actOf_eq, hshift, vecVal, cmd]
  rcases hcases with heq | heq <;> rw [heq] <;> rfl

theorem Fits.loads {m : Mmio} (hm : m ∈ p.run.loads) : m.loads = true := by
  have ha := h.aRange
  have hb := h.bRange
  rw [← h.a] at ha
  rw [← h.b] at hb
  simp only [run, List.mem_append] at hm
  rcases hm with hm | hm | hm
  · exact loads_loadBytes (n := 8192) (by decide) (by decide) ha m hm
  · exact loads_loadBytes (n := 4096) (by decide) (by decide) hb m hm
  · exact loads_submitWords _ m hm

theorem Fits.after_loads (s : Ideal) : (s.after p.run.loads).window = p.desc.toWords ∧
    Region.Holds (s.after p.run.loads).sram.act p.aAddr.toNat p.length (fun i ↦ p.a.getD i 0) ∧
    Region.Holds (s.after p.run.loads).sram.wt p.bAddr.toNat p.length fun i ↦ p.b.getD i 0 := by
  have ha := h.aRange
  have hb := h.bRange
  rw [← h.a] at ha
  rw [← h.b] at hb
  rw [run, Ideal.after_append, Ideal.after_append, Ideal.after_submitWords,
    Ideal.after_loadBytes_weight hb, Ideal.after_loadBytes_act ha, h.a, h.b]
  rw [h.a] at ha
  rw [h.b] at hb
  exact ⟨rfl, Region.holds_cells ha, Region.holds_cells hb⟩

end VecTest

theorem vec_test_passes {p : VecTest} (h : p.Fits) {env : ℕ → DeviceIn} {x : Watched} {a : Ideal}
    (hx : x.Rest a) (hq : 9 ≤ x.quiet) (henv : ∀ t, (env t).host.polls = true) :
    ∃ W, ∀ w, W ≤ w → p.run.Passes env w x := by
  obtain ⟨hwords, hact, hwt⟩ := h.after_loads a
  have htable := @VecCmd.Valid.runWrites_eq p.cmd (a.after p.run.loads).sram.act
    (a.after p.run.loads).sram.wt h.valid
  rw [VecCmd.tableWrites, h.cmd_outAddr] at htable
  have hlen := h.length
  refine Test.passes_of_table (b := .vec) (n := p.length) hx hq henv (fun _ hm ↦ h.loads hm) hwords
    rfl p.convToVecCmd_toWords h.valid.length_pos trivial rfl h.outRange
    (htable.trans (by rw [hlen])) (refVec_eq _ _ _ _ _ _) fun i hi ↦ ?_
  exact congrArg (BitVec.ofInt 8) (h.valueOf_eq hact hwt hi)

/-- One sum, in place. -/
def oneSum : VecTest := ⟨[100], [50], 1, 0, 0, 0, 16, 0, 16⟩

theorem vec_test_passes_inPlace : oneSum.run.expected = [127] ∧
    ∃ W, ∀ w, W ≤ w → oneSum.run.Passes quietEnv w
      ⟨.reset (fun _ ↦ 0) (fun _ ↦ 0) (fun _ ↦ 0) fun _ ↦ 0, 0, 9⟩ := by
  refine ⟨by decide, vec_test_passes ⟨?_, ?_, ?_, ?_, ?_, ?_, ?_, ?_, ?_, ?_⟩
    (Watched.rest_reset _ _ _ _ _) le_rfl fun _ ↦ rfl⟩ <;> decide

end NpuTb

end LgNpu
