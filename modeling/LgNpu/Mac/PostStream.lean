import LgNpu.Mac.Exact
import LgNpu.Lib.Stream

/-!
# The post-processing chain as a queue

`postproc` between any producer and any consumer is a queue of at most three
bytes: what leaves it, followed by what is inside, is the exact arithmetic of
what has entered.
-/

namespace LgNpu

namespace PipelineReg

variable {w : ℕ} (s : PipelineReg w) (inData : BitVec w) (inValid outReady : Bool)

def held : List (BitVec w) := if s.valid then [s.data] else []

def sent : List (BitVec w) := if s.valid && outReady then [s.data] else []

theorem held_step : s.sent outReady ++ (s.step inData inValid outReady).held =
    s.held ++ if inValid && s.inReady outReady then [inData] else [] := by
  cases hv : s.valid <;> cases hi : inValid <;> cases ho : outReady <;>
    simp [sent, held, PipelineReg.step, inReady, hv]

/-- A token that is not taken stays, unchanged. -/
theorem step_stalled (hv : s.valid = true) : s.step inData inValid false = s := by
  obtain ⟨data, valid⟩ := s
  obtain rfl : valid = true := hv
  simp [PipelineReg.step, inReady]

end PipelineReg

/-- The inputs of `postproc` in one cycle, the configuration apart. -/
structure PostPins where
  biasVal : Byte
  inData : Acc
  inValid : Bool
  outReady : Bool

namespace Postproc

variable (shift : BitVec 5) (mode : ActMode)

def edge (s : Postproc) (i : PostPins) : Postproc :=
  s.step i.biasVal shift mode i.inData i.inValid i.outReady

def outputOf (p : Acc × Byte) : Byte := quantize shift (activate mode (biasAdd p.2 p.1))

/-- `sat8(act(x + bias mod 2^32) >>> quant_shift)` over the integers. -/
def exactOutput (p : Acc × Byte) : ℤ :=
  Signed.sat8 (activateInt mode ((p.1.toInt + p.2.toInt).bmod (2 ^ 32)) >>> shift.toNat)

theorem outputOf_eq (p : Acc × Byte) :
    outputOf shift mode p = .ofInt 8 (exactOutput shift mode p) := by
  have hbias : (p.2.signExtend 32).toInt = p.2.toInt := BitVec.toInt_signExtend_of_le (by omega)
  rw [outputOf, quantize_eq, toInt_activate, biasAdd, BitVec.toInt_add, hbias, exactOutput]

/-! ## One cycle -/

variable (s : Postproc) (i : PostPins)

/-- The bytes inside, the oldest first, as they will leave. -/
def queue : List Byte :=
  s.quant.held ++ s.relu.held.map (quantize shift) ++
    s.bias.held.map fun x ↦ quantize shift (activate mode x)

def taken : List (Acc × Byte) :=
  if i.inValid && s.inReady i.outReady then [(i.inData, i.biasVal)] else []

def sent : List Byte := s.quant.sent i.outReady

theorem length_queue_le : (s.queue shift mode).length ≤ 3 := by
  cases hb : s.bias.valid <;> cases hr : s.relu.valid <;> cases hq : s.quant.valid <;>
    simp [queue, PipelineReg.held, hb, hr, hq]

theorem queue_edge : s.sent i ++ (s.edge shift mode i).queue shift mode =
    s.queue shift mode ++ (s.taken i).map (outputOf shift mode) := by
  have hquant : s.quant.sent i.outReady ++ (s.edge shift mode i).quant.held =
      s.quant.held ++ (s.relu.sent (s.quantReady i.outReady)).map (quantize shift) := by
    rw [edge, step, PipelineReg.held_step, PipelineReg.sent, apply_ite (List.map (quantize shift))]
    rfl
  have hrelu : s.relu.sent (s.quantReady i.outReady) ++ (s.edge shift mode i).relu.held =
      s.relu.held ++ (s.bias.sent (s.reluReady i.outReady)).map (activate mode) := by
    rw [edge, step, PipelineReg.held_step, PipelineReg.sent, apply_ite (List.map (activate mode))]
    rfl
  have hbias : s.bias.sent (s.reluReady i.outReady) ++ (s.edge shift mode i).bias.held =
      s.bias.held ++ (s.taken i).map fun p ↦ biasAdd p.2 p.1 := by
    rw [edge, step, PipelineReg.held_step, taken,
      apply_ite (List.map fun p : Acc × Byte ↦ biasAdd p.2 p.1)]
    rfl
  have hrelu' := congrArg (List.map (quantize shift)) hrelu
  have hbias' := congrArg (List.map fun x ↦ quantize shift (activate mode x)) hbias
  simp only [List.map_append, List.map_map] at hrelu' hbias'
  calc s.sent i ++ (s.edge shift mode i).queue shift mode
      = s.quant.sent i.outReady ++ (s.edge shift mode i).quant.held ++
          (s.edge shift mode i).relu.held.map (quantize shift) ++
          (s.edge shift mode i).bias.held.map (fun x ↦ quantize shift (activate mode x)) := by
        simp [queue, sent]
    _ = s.quant.held ++ (s.relu.held.map (quantize shift) ++
          (s.bias.sent (s.reluReady i.outReady)).map (quantize shift ∘ activate mode)) ++
          (s.edge shift mode i).bias.held.map (fun x ↦ quantize shift (activate mode x)) := by
        rw [hquant, List.append_assoc s.quant.held, hrelu']
    _ = s.queue shift mode ++ (s.taken i).map (outputOf shift mode) := by
        rw [List.append_assoc s.quant.held, List.append_assoc (s.relu.held.map _),
          show quantize shift ∘ activate mode = fun x ↦ quantize shift (activate mode x) from rfl,
          hbias', queue]
        simp only [List.append_assoc]
        rfl

theorem quant_edge_stalled (hv : s.quant.valid = true) (ho : i.outReady = false) :
    (s.edge shift mode i).quant = s.quant := by
  rw [edge, step, ho]
  exact s.quant.step_stalled _ _ hv

/-! ## Runs -/

/-- The stream of inputs with their biases, and of the bytes delivered. -/
def stream (pins : ℕ → PostPins) : StreamMachine Postproc (Acc × Byte) Byte where
  step t s := s.edge shift mode (pins t)
  taken t s := s.taken (pins t)
  sent t s := s.sent (pins t)

variable {shift mode} {pins : ℕ → PostPins}

theorem queues : (stream shift mode pins).Queues (fun _ s q ↦ s.queue shift mode =
    q.map (outputOf shift mode)) (fun p y ↦ outputOf shift mode p = y) :=
  .of_map fun t s ↦ s.queue_edge shift mode (pins t)

/-! The oldest byte moves up to the last stage and leaves when the consumer is
ready. -/

theorem exists_quant_valid {t : ℕ}
    (h : ((stream shift mode pins).run reset t).queue shift mode ≠ []) :
    ∃ u, t ≤ u ∧ ((stream shift mode pins).run reset u).quant.valid = true := by
  by_contra hnone
  have hquant : ∀ u, t ≤ u → ((stream shift mode pins).run reset u).quant.valid = false :=
    fun u hu ↦ Bool.eq_false_of_not_eq_true fun hv ↦ hnone ⟨u, hu, hv⟩
  have hrelu : ∀ u, t ≤ u → ((stream shift mode pins).run reset u).relu.valid = false := by
    intro u hu
    have hnext := hquant (u + 1) (by omega)
    by_contra hr
    simp_all [StreamMachine.run, Clocked.run_succ, stream, edge, step, PipelineReg.step,
      PipelineReg.inReady]
  have hbias : ((stream shift mode pins).run reset t).bias.valid = false := by
    have hnext := hrelu (t + 1) (by omega)
    have hq := hquant t le_rfl
    have hr := hrelu t le_rfl
    by_contra hb
    simp_all [StreamMachine.run, Clocked.run_succ, stream, edge, step, PipelineReg.step,
      PipelineReg.inReady, quantReady]
  exact h (by simp [queue, PipelineReg.held, hquant t le_rfl, hrelu t le_rfl, hbias])

theorem exists_sent {t : ℕ} (hfair : Clocked.Fair fun t ↦ (pins t).outReady)
    (h : ((stream shift mode pins).run reset t).queue shift mode ≠ []) :
    ∃ u, t < u ∧ ((stream shift mode pins).delivered reset t).length <
      ((stream shift mode pins).delivered reset u).length := by
  obtain ⟨u, hu, hv⟩ := exists_quant_valid h
  refine StreamMachine.exists_sent (V := fun s ↦ s.quant.valid = true) hfair ?_ ?_ hu hv
  · intro t s hv hr
    simp [stream, sent, PipelineReg.sent, hv, hr]
  · intro t s hv hr
    exact (congrArg PipelineReg.valid (s.quant_edge_stalled shift mode (pins t) hv hr)).trans hv

/-- The stream through `postproc`: the bytes delivered are the exact ones of
the accepted inputs in order, but for at most three that are inside; an output
that is not taken stays, and a consumer that is ready again and again receives
them all. -/
structure Streams (shift : BitVec 5) (mode : ActMode) (pins : ℕ → PostPins) : Prop where
  exact : ∀ t, ∃ d q, (stream shift mode pins).accepted reset t = d ++ q ∧ q.length ≤ 3 ∧
    (stream shift mode pins).delivered reset t =
      d.map fun p ↦ .ofInt 8 (exactOutput shift mode p)
  stable : ∀ t, ((stream shift mode pins).run reset t).quant.valid = true →
    (pins t).outReady = false →
    ((stream shift mode pins).run reset (t + 1)).quant =
      ((stream shift mode pins).run reset t).quant
  drains : (Clocked.Fair fun t ↦ (pins t).outReady) → ∀ t, ∃ u,
    ((stream shift mode pins).accepted reset t).map
      (fun p ↦ .ofInt 8 (exactOutput shift mode p)) <+:
        (stream shift mode pins).delivered reset u

theorem map_exactOutput {ps : List (Acc × Byte)} {ys : List Byte}
    (h : List.Forall₂ (fun p y ↦ outputOf shift mode p = y) ps ys) :
    ys = ps.map fun p ↦ .ofInt 8 (exactOutput shift mode p) := by
  rw [StreamMachine.eq_map_of_forall₂ h]
  exact List.map_congr_left fun p _ ↦ outputOf_eq shift mode p

theorem post_stream (shift : BitVec 5) (mode : ActMode) (pins : ℕ → PostPins) :
    Streams shift mode pins where
  exact t := by
    obtain ⟨d, q, hacc, hdel, hq⟩ := (@queues shift mode pins).run (s := reset) rfl t
    refine ⟨d, q, hacc, ?_, map_exactOutput hdel⟩
    rw [← List.length_map (outputOf shift mode), ← hq]
    exact length_queue_le shift mode _
  stable t hv ho := quant_edge_stalled shift mode _ (pins t) hv ho
  drains hfair t := by
    obtain ⟨u, hu⟩ := (@queues shift mode pins).drains (s := reset) rfl
      (fun t q hq hne ↦ exists_sent hfair (by simpa [hq] using hne)) t
    exact ⟨u, map_exactOutput hu ▸ List.take_prefix _ _⟩

end Postproc

end LgNpu
