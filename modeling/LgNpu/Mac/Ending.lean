import LgNpu.Mac.Done
import LgNpu.Conv.Feed
import LgNpu.Gemm.Feed

/-!
# Ending or not

A convolution or product comes to its done pulse unless some loop of its nest
is empty: the end of an empty loop is never reached.  The pulse itself is early
for almost every command.
-/

namespace LgNpu

/-- A front end that keeps away from its done state. -/
theorem Mac.not_ends {F Cmd : Type} {fe : MacFront F Cmd} {cmd : Cmd} {gs : ℕ → Grants}
    {x : Sys (Mac F)} (P : F → Prop) (hzero : x.be.path.ctrlFinished = false)
    (hrest : (fe.out x.be.front).ctrlDone = false)
    (hone : ∀ ready, P (fe.step x.be.front cmd true ready))
    (hstep : ∀ f ready, P f → P (fe.step f cmd false ready))
    (hdone : ∀ f, P f → (fe.out f).ctrlDone = false) : ¬(macBackend fe).Ends cmd gs x := by
  have hnever : ∀ (s : MacPath) (o : FrontOut), s.ctrlFinished = false → o.ctrlDone = false →
      s.done o = false := by
    intro s o hs ho
    simp [MacPath.done, hs, ho]
  have hkeep : ∀ (s : MacPath) (o : FrontOut) (rsp : BeRsp), s.ctrlFinished = false →
      o.ctrlDone = false → (s.step o rsp).ctrlFinished = false := by
    intro s o rsp hs ho
    simp [MacPath.step, MacPath.done, hs, ho]
  apply Backend.not_ends (macBackend fe) cmd gs fun s ↦ P s.front ∧ s.path.ctrlFinished = false
  · exact hnever _ _ hzero hrest
  · exact ⟨hone _, hkeep _ _ _ hzero hrest⟩
  · exact fun s rsp h ↦ ⟨hstep _ _ h.1, hkeep _ _ _ h.2 (hdone _ h.1)⟩
  · exact fun s h ↦ hnever _ _ h.2 (hdone _ h.1)

/-! ## Products -/

namespace GemmCmd

variable {cmd : GemmCmd}

theorem keeps (cmd : GemmCmd) : cmd.job.Keeps 2 where
  pos := by decide
  le := by decide
  padded _ h := absurd h Bool.false_ne_true

theorem covered_iff :
    cmd.job.Covered ↔ cmd.kDim.toNat = 1 ∧ 2 ≤ cmd.mDim.toNat * cmd.nDim.toNat := by
  constructor
  · intro h
    exact ⟨h.single, h.several⟩
  · rintro ⟨hsingle, hseveral⟩
    exact ⟨hsingle, hseveral, fun h ↦ absurd h Bool.false_ne_true⟩

end GemmCmd

/-- The controller of a product with an empty loop. -/
structure GemmFront.Endless (cmd : GemmCmd) (f : GemmFront) : Prop where
  cmdR : f.ctrl.cmdR = cmd
  state : f.ctrl.state = .loadCfg ∨ f.ctrl.state = .compute

theorem GemmFront.Endless.step {cmd : GemmCmd} (hv : ¬cmd.Positive) {f : GemmFront}
    (h : Endless cmd f) (ready : Bool) : Endless cmd (f.step cmd false ready) := by
  obtain ⟨hcmd, hs⟩ := h
  have hlast : (f.ctrl.innerLast && f.ctrl.outerLast) = false := by
    by_contra hl
    simp only [GemmCtrl.innerLast, GemmCtrl.outerLast, GemmCtrl.lastK, GemmCtrl.lastN, hcmd,
      Bool.not_eq_false, Bool.and_eq_true] at hl
    apply hv
    refine ⟨?_, ?_, ?_⟩ <;> by_contra h0 <;> simp [dim_eq_zero h0] at hl
  have hne : f.ctrl.state ≠ .idle := by rcases hs with hs | hs <;> simp [hs]
  refine ⟨?_, .inr ?_⟩
  · simp [GemmFront.step, GemmCtrl.step, hcmd]
  · rcases hs with hs | hs <;> simp [GemmFront.step, GemmCtrl.step, LoopState.next, hs, hlast]

section

variable {cmd : GemmCmd} {x : Sys (Mac GemmFront)} {gs : ℕ → Grants}

theorem GemmFront.not_ends (hv : ¬cmd.Positive) (hq : Mac.Quiet GemmFront.Rest x) :
    ¬gemmBackend.Ends cmd gs x := by
  have hs := hq.front.ctrl
  apply Mac.not_ends (Endless cmd) hq.path.finished
  · simp [gemmFront, hs]
  · intro ready
    constructor
    · simp [gemmFront, GemmFront.step, GemmCtrl.step, hs]
    · simp [gemmFront, GemmFront.step, GemmCtrl.step, LoopState.next, hs]
  · exact fun f ready h ↦ h.step hv ready
  · intro f h
    rcases h.state with hs | hs <;> simp [gemmFront, hs]

theorem GemmFront.ends_iff (hq : Mac.Quiet GemmFront.Rest x) (hlog : x.log = []) :
    gemmBackend.Ends cmd (fun _ ↦ .all) x ↔ cmd.Positive := by
  constructor
  · intro h
    by_contra hv
    exact not_ends hv hq h
  · intro hv
    exact run_ends (feeds hv) hv.job cmd.keeps hq hlog

end

/-! ## Convolutions -/

namespace ConvCmd

variable {cmd : ConvCmd}

theorem keeps (cmd : ConvCmd) : cmd.job.Keeps 4 where
  pos := by decide
  le := by decide
  padded _ _ := rfl

/-- No side is zero. -/
structure Positive (cmd : ConvCmd) : Prop extends Looping cmd where
  inH : 0 < cmd.inH.toNat
  inW : 0 < cmd.inW.toNat
  outH : 0 < cmd.outH.toNat
  outW : 0 < cmd.outW.toNat

def outSize (cmd : ConvCmd) : ℕ := cmd.outH.toNat * cmd.outW.toNat * cmd.outK.toNat

theorem Positive.outs_eq (h : cmd.Positive) : cmd.job.outs = cmd.outSize := by
  change limitDim cmd.outH * limitDim cmd.outW * _ = _
  rw [limitDim_of_pos h.outH, limitDim_of_pos h.outW]
  rfl

/-- The taps of one output element. -/
def taps (cmd : ConvCmd) : ℕ := cmd.filtR.toNat * cmd.filtS.toNat * cmd.inC.toNat

theorem Positive.covered_iff (h : cmd.Positive) : cmd.job.Covered ↔ cmd.taps = 1 ∧
    2 ≤ cmd.outSize ∧ (cmd.job.zeroPad (cmd.outSize - 2) = true →
      cmd.job.zeroPad (cmd.outSize - 1) = true) := by
  rw [← h.outs_eq]
  constructor
  · intro hc
    exact ⟨hc.single, hc.several, hc.steady⟩
  · rintro ⟨hsingle, hseveral, hsteady⟩
    exact ⟨hsingle, hseveral, hsteady⟩

end ConvCmd

/-- The controller of a convolution with an empty loop. -/
structure ConvFront.Endless (cmd : ConvCmd) (f : ConvFront) : Prop where
  cmdR : f.ctrl.cmdR = cmd
  state : f.ctrl.state = .loadCfg ∨ f.ctrl.state = .compute

theorem ConvFront.Endless.step {cmd : ConvCmd} (hv : ¬cmd.Looping) {f : ConvFront}
    (h : Endless cmd f) (ready : Bool) : Endless cmd (f.step cmd false ready) := by
  obtain ⟨hcmd, hs⟩ := h
  have hlast : (f.ctrl.innerLast && f.ctrl.outerLast) = false := last_eq_false hcmd hv
  have hne : f.ctrl.state ≠ .idle := by rcases hs with hs | hs <;> simp [hs]
  refine ⟨?_, .inr ?_⟩
  · simp [ConvFront.step, ConvCtrl.step, hcmd]
  · rcases hs with hs | hs <;> simp [ConvFront.step, ConvCtrl.step, LoopState.next, hs, hlast]

section

variable {cmd : ConvCmd} {x : Sys (Mac ConvFront)} {gs : ℕ → Grants}

theorem ConvFront.not_ends (hv : ¬cmd.Looping) (hq : Mac.Quiet ConvFront.Rest x) :
    ¬convBackend.Ends cmd gs x := by
  have hs := hq.front.ctrl
  apply Mac.not_ends (Endless cmd) hq.path.finished
  · simp [convFront, hs]
  · intro ready
    constructor
    · simp [convFront, ConvFront.step, ConvCtrl.step, hs]
    · simp [convFront, ConvFront.step, ConvCtrl.step, LoopState.next, hs]
  · exact fun f ready h ↦ h.step hv ready
  · intro f h
    rcases h.state with hs | hs <;> simp [convFront, hs]

theorem ConvFront.ends_iff (hq : Mac.Quiet ConvFront.Rest x) (hlog : x.log = []) :
    convBackend.Ends cmd (fun _ ↦ .all) x ↔ cmd.Looping := by
  constructor
  · intro h
    by_contra hv
    exact not_ends hv hq h
  · intro hv
    exact run_ends (feeds hv) hv.job cmd.keeps hq hlog

end

/-! ## The done pulse -/

/-- Elements of a single product, at least two of them, of which the last is
not the only one of the last two to be loaded: otherwise done comes before the
last write. -/
theorem doneMeansWritten (conv : ConvCmd) (gemm : GemmCmd) (x : Sys (Mac ConvFront))
    (y : Sys (Mac GemmFront)) :
    (conv.Positive → Mac.Quiet ConvFront.Rest x → x.log = [] →
      (convBackend.DoneMeansWritten conv x ((List.range conv.outSize).map conv.job.wrAddr) ↔
        conv.taps = 1 ∧ 2 ≤ conv.outSize ∧ (conv.job.zeroPad (conv.outSize - 2) = true →
          conv.job.zeroPad (conv.outSize - 1) = true))) ∧
    (gemm.Positive → Mac.Quiet GemmFront.Rest y → y.log = [] →
      (gemmBackend.DoneMeansWritten gemm y
          ((List.range (gemm.mDim.toNat * gemm.nDim.toNat)).map gemm.job.wrAddr) ↔
        gemm.kDim.toNat = 1 ∧ 2 ≤ gemm.mDim.toNat * gemm.nDim.toNat)) := by
  constructor
  · intro hp hq hlog
    rw [← hp.covered_iff, ← hp.outs_eq]
    exact doneMeansWritten_iff (ConvFront.feeds hp.toLooping) hp.toLooping.job conv.keeps hq hlog
  · intro hp hq hlog
    rw [← GemmCmd.covered_iff]
    exact doneMeansWritten_iff (GemmFront.feeds hp) hp.job gemm.keeps hq hlog

/-- An `m` by `k` times `k` by `n` product. -/
def gemmOf (m n k : Dim) : GemmCmd := ⟨0, 64, 0, 32, m, n, k, 0, 0⟩

/-- A row of `n` convolved with a single tap. -/
def convRow (n : Dim) : ConvCmd := ⟨0, 0, 64, 0, 32, 1, n, 1, 1, 1, 1, 1, 1, 0, 0, 1, n, 0, 0⟩

/-- At the done pulse three of the four elements are written. -/
theorem not_doneMeansWritten_two :
    ¬gemmBackend.DoneMeansWritten (gemmOf 2 2 2)
      (.reset ⟨.reset, .reset⟩ (fun _ ↦ 1) fun _ ↦ 1)
      ((List.range 4).map (gemmOf 2 2 2).job.wrAddr) := by
  intro h
  have hlen := congrArg List.length (h.written 41 (by decide +kernel))
  rw [List.length_map] at hlen
  exact absurd hlen (by decide +kernel)

theorem doneMeansWritten_row :
    convBackend.DoneMeansWritten (convRow 2) (.reset ⟨.reset, .reset⟩ (fun _ ↦ 1) fun _ ↦ 1)
        ((List.range 2).map (convRow 2).job.wrAddr) ∧
      gemmBackend.DoneMeansWritten (gemmOf 2 2 1)
        (.reset ⟨.reset, .reset⟩ (fun _ ↦ 1) fun _ ↦ 1)
        ((List.range 4).map (gemmOf 2 2 1).job.wrAddr) := by
  obtain ⟨hconv, hgemm⟩ := doneMeansWritten (convRow 2) (gemmOf 2 2 1)
    (.reset ⟨.reset, .reset⟩ (fun _ ↦ 1) fun _ ↦ 1) (.reset ⟨.reset, .reset⟩ (fun _ ↦ 1) fun _ ↦ 1)
  constructor
  · refine (hconv ?_ ⟨⟨rfl, rfl⟩, MacPath.quiet_reset, rfl⟩ rfl).mpr (by decide)
    exact ⟨⟨by decide, by decide, by decide, by decide⟩, by decide, by decide, by decide, by decide⟩
  · refine (hgemm ?_ ⟨⟨rfl, rfl⟩, MacPath.quiet_reset, rfl⟩ rfl).mpr (by decide)
    exact ⟨by decide, by decide, by decide⟩

end LgNpu
