import LgNpu.Memory
import LgNpu.Lib.Clocked
import LgNpu.Lib.WriteLog
import Mathlib.Data.List.Infix
import Mathlib.Order.Lattice

/-!
# One backend on the buffers

A backend is a Moore machine: its memory requests and status are functions of
its registers.  `Sys` closes a backend over `npu_mem_top` with an idle host; a
schedule of grants may hold back the activation read, weight read and output
write ports in any cycle.  Granting always, the shim is the identity and the
system is the backend on the buffers as `npu_core` wires them.
-/

namespace LgNpu

structure Backend (S Cmd : Type) where
  req : S → BeReq
  cmdReady : S → Bool
  done : S → Bool
  busy : S → Bool
  step : S → Cmd → Bool → BeRsp → S

/-- The ports granted in one cycle. -/
structure Grants where
  act : Bool
  wt : Bool
  out : Bool

/-- The buffers' own behaviour: every request is granted at once. -/
def Grants.all : Grants := ⟨true, true, true⟩

def BeReq.gate (q : BeReq) (g : Grants) : BeReq :=
  { q with
    actRdReq := q.actRdReq && g.act
    wtRdReq := q.wtRdReq && g.wt
    outWrReq := q.outWrReq && g.out }

@[simp] theorem BeReq.gate_all (q : BeReq) : q.gate .all = q := by
  simp [BeReq.gate, Grants.all]

/-- The ports a schedule may hold back. -/
inductive Port
  | act | wt | out

def Grants.port (g : Grants) : Port → Bool
  | .act => g.act
  | .wt => g.wt
  | .out => g.out

/-- A schedule under which every port is granted again and again. -/
def FairGrants (gs : ℕ → Grants) : Prop := ∀ i, Clocked.Fair fun t ↦ (gs t).port i

theorem fairGrants_all : FairGrants fun _ ↦ .all := by
  intro i
  cases i <;> exact Clocked.fair_true

abbrev Writes := List (Addr × Byte)

/-- A backend with its memory, and the output writes granted so far. -/
structure Sys (S : Type) where
  be : S
  mem : NpuMemTop
  log : Writes

/-- A backend out of reset on buffers with the given contents. -/
def Sys.reset {S : Type} (s : S) (act : BitVec 13 → Byte) (wt : BitVec 12 → Byte) : Sys S :=
  ⟨s, .reset act wt, []⟩

/-- The write granted in this cycle, if any. -/
def BeReq.write (q : BeReq) : Writes := if q.outWrReq then [(q.outWrAddr, q.outWrData)] else []

section

variable {S Cmd : Type} (b : Backend S Cmd) (cmd : Cmd) (gs : ℕ → Grants)

def Sys.granted (b : Backend S Cmd) (g : Grants) (x : Sys S) : BeReq := (b.req x.be).gate g

def Sys.step (valid : Bool) (g : Grants) (x : Sys S) : Sys S where
  be := b.step x.be cmd valid (x.mem.beRsp (x.granted b g))
  mem := x.mem.step .idle (x.granted b g)
  log := x.log ++ (x.granted b g).write

/-- A command offered in cycle 0 and held, as the scheduler holds it. -/
def Backend.run (x : Sys S) : ℕ → Sys S :=
  Clocked.run (fun t ↦ Sys.step b cmd (t == 0) (gs t)) x

@[simp] theorem run_zero (x : Sys S) : b.run cmd gs x 0 = x := rfl

theorem run_one (x : Sys S) : b.run cmd gs x 1 = x.step b cmd true (gs 0) := rfl

theorem run_succ (x : Sys S) (t : ℕ) :
    b.run cmd gs x (t + 1) = (b.run cmd gs x t).step b cmd (t == 0) (gs t) := rfl

theorem run_succ_succ (x : Sys S) (t : ℕ) :
    b.run cmd gs x (t + 2) = (b.run cmd gs x (t + 1)).step b cmd false (gs (t + 1)) := rfl

/-- An invariant established by accepting the command and kept by every later
edge. -/
theorem run_induction {x : Sys S} (P : Sys S → Prop)
    (hone : P (x.step b cmd true (gs 0)))
    (hstep : ∀ g y, P y → P (y.step b cmd false g)) (t : ℕ) : P (b.run cmd gs x (t + 1)) := by
  induction t with
  | zero => exact hone
  | succ t ih => exact hstep _ _ ih

/-! ## What holds of every backend -/

theorem log_prefix_succ (x : Sys S) (t : ℕ) :
    (b.run cmd gs x t).log <+: (b.run cmd gs x (t + 1)).log :=
  ⟨_, rfl⟩

theorem log_isPrefix (x : Sys S) {t u : ℕ} (h : t ≤ u) :
    (b.run cmd gs x t).log <+: (b.run cmd gs x u).log := by
  induction u, h using Nat.le_induction with
  | base => exact List.prefix_refl _
  | succ u _ ih => exact ih.trans (log_prefix_succ b cmd gs x u)

/-- A write log as the activation SRAM sees it. -/
def sramWrites (ws : Writes) : List (BitVec 13 × Byte) :=
  ws.map fun w ↦ (w.1.setWidth 13, w.2)

@[simp] theorem sramWrites_nil : sramWrites [] = [] := rfl

theorem sramWrites_append (ws vs : Writes) :
    sramWrites (ws ++ vs) = sramWrites ws ++ sramWrites vs := List.map_append

/-- The activation SRAM after the writes of a log. -/
def store (m : BitVec 13 → Byte) (ws : Writes) : BitVec 13 → Byte :=
  WriteLog.replay m (sramWrites ws)

@[simp] theorem store_nil (m : BitVec 13 → Byte) : store m [] = m := rfl

theorem store_append (m : BitVec 13 → Byte) (ws vs : Writes) :
    store m (ws ++ vs) = store (store m ws) vs := by
  rw [store, sramWrites_append, WriteLog.replay_append]
  rfl

theorem store_of_notMem {m : BitVec 13 → Byte} {ws : Writes} {a : BitVec 13}
    (h : ∀ w ∈ ws, w.1.setWidth 13 ≠ a) : store m ws a = m a := by
  refine WriteLog.replay_of_notMem fun w hw ↦ ?_
  obtain ⟨v, hv, rfl⟩ := List.mem_map.mp hw
  exact h v hv

theorem act_step_eq_store (m : NpuMemTop) (q : BeReq) :
    (m.step .idle q).act = store m.act q.write := by
  rw [NpuMemTop.act_step, BeReq.write]
  split <;> rfl

/-- The activation SRAM is its initial contents with the log stored. -/
theorem act_eq_store {x : Sys S} (hlog : x.log = []) (t : ℕ) :
    (b.run cmd gs x t).mem.act = store x.mem.act (b.run cmd gs x t).log := by
  induction t with
  | zero => simp [hlog]
  | succ t ih => rw [run_succ, Sys.step, act_step_eq_store, store_append, ← ih]

theorem wt_run (x : Sys S) (t : ℕ) : (b.run cmd gs x t).mem.wt = x.mem.wt := by
  induction t with
  | zero => rfl
  | succ t ih => rw [run_succ, Sys.step, NpuMemTop.wt_step, ih]

/-! ## Running a command to its end -/

/-- The command writes exactly `W`, in that order, and then signals done. -/
structure Backend.Performs (x : Sys S) (W : Writes) : Prop where
  sound : ∀ t, (b.run cmd gs x t).log <+: W
  finish : ∃ T, b.done (b.run cmd gs x T).be = true ∧ (b.run cmd gs x T).log = W

/-- From the done pulse on the log is complete. -/
theorem Backend.Performs.eventually {x : Sys S} {W : Writes} (h : b.Performs cmd gs x W) :
    ∃ T, ∀ t, T ≤ t → (b.run cmd gs x t).log = W := by
  obtain ⟨T, -, hlog⟩ := h.finish
  refine ⟨T, fun t ht ↦ (h.sound t).eq_of_length_le ?_⟩
  rw [← hlog]
  exact (log_isPrefix b cmd gs x ht).length_le

theorem Backend.Performs.unique {x : Sys S} {W W' : Writes} (h : b.Performs cmd gs x W)
    (h' : b.Performs cmd gs x W') : W = W' := by
  obtain ⟨T, hT⟩ := h.eventually
  obtain ⟨T', hT'⟩ := h'.eventually
  rw [← hT (max T T') (le_max_left _ _), hT' _ (le_max_right _ _)]

/-- Bytes outside the written addresses never change. -/
theorem Backend.Performs.frame {x : Sys S} {W : Writes} (h : b.Performs cmd gs x W)
    (hlog : x.log = []) {a : BitVec 13} (ha : ∀ w ∈ W, w.1.setWidth 13 ≠ a) (t : ℕ) :
    (b.run cmd gs x t).mem.act a = x.mem.act a := by
  rw [act_eq_store b cmd gs hlog]
  exact store_of_notMem fun w hw ↦ ha w ((h.sound t).subset hw)

/-- On grants of the kind `G`, a backend whose rank falls on each edge, unless
it stands still waiting for a port, signals done. -/
theorem exists_done_of {α : Type} {r : α → α → Prop} {x : Sys S} (hwf : WellFounded r)
    (hfair : FairGrants gs) (G : Grants → Prop) (hG : ∀ t, G (gs t))
    (Inv : Sys S → Prop) (rank : Sys S → α)
    (waitsOn : Sys S → Option Port)
    (hone : Inv (x.step b cmd true (gs 0)))
    (hstep : ∀ g y, G g → Inv y → b.done y.be = false → Inv (y.step b cmd false g))
    (hprog : ∀ g y, G g → Inv y → b.done y.be = false →
      r (rank (y.step b cmd false g)) (rank y) ∨ ∃ i, waitsOn y = some i ∧ g.port i = false ∧
        waitsOn (y.step b cmd false g) = some i ∧ rank (y.step b cmd false g) = rank y) :
    ∃ t, b.done (b.run cmd gs x (t + 1)).be = true := by
  by_contra hnever
  have hbusy : ∀ t, b.done (b.run cmd gs x (t + 1)).be = false :=
    fun t ↦ Bool.eq_false_iff.mpr fun h ↦ hnever ⟨t, h⟩
  have hinv : ∀ t, Inv (b.run cmd gs x (t + 1)) := by
    intro t
    induction t with
    | zero => exact hone
    | succ t ih => exact hstep _ _ (hG _) ih (hbusy t)
  have hports : ∀ i, Clocked.Fair fun t ↦ (gs (t + 1)).port i := by
    intro i t
    obtain ⟨u, hu, hport⟩ := hfair i (t + 1)
    refine ⟨u - 1, by omega, ?_⟩
    simpa only [Nat.sub_add_cancel (show 1 ≤ u by omega)] using hport
  have hend := Clocked.eventually_of_rank (x := fun t ↦ b.run cmd gs x (t + 1)) hwf rank
    (fun _ ↦ False) (fun i y ↦ waitsOn y = some i) (fun i t ↦ (gs (t + 1)).port i) hports ?_ ?_ 0
  · exact hend.elim fun _ h ↦ h.2
  · intro t _
    rcases hprog (gs (t + 1)) _ (hG _) (hinv t) (hbusy t) with hlt | ⟨i, hi, -⟩
    exacts [.inr (.inl hlt), .inr (.inr ⟨i, hi⟩)]
  · intro t i _ hi
    rcases hprog (gs (t + 1)) _ (hG _) (hinv t) (hbusy t) with hlt | ⟨j, hj, hg, hstill, hsame⟩
    · exact .inr (.inl hlt)
    · obtain rfl := Option.some.inj (hi.symm.trans hj)
      exact .inr (.inr ⟨hg, hstill, hsame⟩)

theorem exists_done {α : Type} {r : α → α → Prop} {x : Sys S} (hwf : WellFounded r)
    (hfair : FairGrants gs) (Inv : Sys S → Prop) (rank : Sys S → α)
    (waitsOn : Sys S → Option Port)
    (hone : Inv (x.step b cmd true (gs 0)))
    (hstep : ∀ g y, Inv y → b.done y.be = false → Inv (y.step b cmd false g))
    (hprog : ∀ g y, Inv y → b.done y.be = false →
      r (rank (y.step b cmd false g)) (rank y) ∨ ∃ i, waitsOn y = some i ∧ g.port i = false ∧
        waitsOn (y.step b cmd false g) = some i ∧ rank (y.step b cmd false g) = rank y) :
    ∃ t, b.done (b.run cmd gs x (t + 1)).be = true :=
  exists_done_of b cmd gs hwf hfair (fun _ ↦ True) (fun _ ↦ trivial) Inv rank waitsOn hone
    (fun g y _ ↦ hstep g y) (fun g y _ ↦ hprog g y)

/-- The command comes to its done pulse. -/
def Backend.Ends (x : Sys S) : Prop := ∃ t, b.done (b.run cmd gs x t).be = true

theorem Backend.not_ends {x : Sys S} (P : S → Prop) (hzero : b.done x.be = false)
    (hone : P (x.step b cmd true (gs 0)).be) (hstep : ∀ s rsp, P s → P (b.step s cmd false rsp))
    (hdone : ∀ s, P s → b.done s = false) : ¬ b.Ends cmd gs x := by
  rintro ⟨t, ht⟩
  cases t with
  | zero => exact Bool.false_ne_true (hzero.symm.trans ht)
  | succ t =>
      have h : P (b.run cmd gs x (t + 1)).be :=
        run_induction b cmd gs (fun y ↦ P y.be) hone (fun g y hy ↦ hstep y.be _ hy) t
      exact Bool.false_ne_true ((hdone _ h).symm.trans ht)

/-- A run whose invariant bounds the log by `W` and completes it at the done
pulse. -/
theorem Backend.Performs.of_inv {x : Sys S} {W : Writes} (hlog : x.log = []) (Inv : Sys S → Prop)
    (hinv : ∀ t, Inv (b.run cmd gs x (t + 1))) (hpre : ∀ y, Inv y → y.log <+: W)
    (hfull : ∀ y, Inv y → b.done y.be = true → y.log = W)
    (hdone : ∃ t, b.done (b.run cmd gs x (t + 1)).be = true) : b.Performs cmd gs x W := by
  refine ⟨fun t ↦ ?_, ?_⟩
  · cases t with
    | zero =>
        rw [run_zero, hlog]
        exact List.nil_prefix
    | succ t => exact hpre _ (hinv t)
  · obtain ⟨t, ht⟩ := hdone
    exact ⟨t + 1, ht, hfull _ (hinv t) ht⟩

end

end LgNpu
