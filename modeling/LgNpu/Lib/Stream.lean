import LgNpu.Lib.Clocked
import Mathlib.Data.List.Forall2
import Mathlib.Data.List.Infix
import Mathlib.Data.List.Range

/-!
# Machines between two streams

A machine that takes entries at one end and sends results at the other.  It is
a queue when, in every cycle, the results sent so far belong to the entries
taken first and the entries after them are the ones it holds, and a player when
it answers one entry at a time by a whole program of results.
-/

/-- A clocked machine with an input and an output stream; entry and exit are
seen per cycle. -/
structure StreamMachine (σ α β : Type*) where
  step : ℕ → σ → σ
  taken : ℕ → σ → List α
  sent : ℕ → σ → List β

namespace StreamMachine

variable {σ α β : Type*} (m : StreamMachine σ α β) (s : σ)

def run : ℕ → σ := Clocked.run m.step s

/-- The entries taken in cycles `0, …, t - 1`. -/
def accepted (t : ℕ) : List α := (List.range t).flatMap fun u ↦ m.taken u (m.run s u)

/-- The results sent in cycles `0, …, t - 1`. -/
def delivered (t : ℕ) : List β := (List.range t).flatMap fun u ↦ m.sent u (m.run s u)

variable {m s}

theorem accepted_succ (t : ℕ) :
    m.accepted s (t + 1) = m.accepted s t ++ m.taken t (m.run s t) := by
  rw [accepted, List.range_succ, List.flatMap_append, List.flatMap_singleton]
  rfl

theorem delivered_succ (t : ℕ) :
    m.delivered s (t + 1) = m.delivered s t ++ m.sent t (m.run s t) := by
  rw [delivered, List.range_succ, List.flatMap_append, List.flatMap_singleton]
  rfl

theorem mem_accepted {t : ℕ} {a : α} :
    a ∈ m.accepted s t ↔ ∃ u < t, a ∈ m.taken u (m.run s u) := by
  simp [accepted]

theorem accepted_isPrefix {t u : ℕ} (h : t ≤ u) : m.accepted s t <+: m.accepted s u := by
  induction u, h using Nat.le_induction with
  | base => exact List.prefix_refl _
  | succ u _ ih => exact ih.trans ⟨_, (accepted_succ u).symm⟩

theorem delivered_isPrefix {t u : ℕ} (h : t ≤ u) : m.delivered s t <+: m.delivered s u := by
  induction u, h using Nat.le_induction with
  | base => exact List.prefix_refl _
  | succ u _ ih => exact ih.trans ⟨_, (delivered_succ u).symm⟩

/-- A result on offer that stays until the consumer is ready, and is sent
then, is sent in the end. -/
theorem exists_sent {V : σ → Prop} {ready : ℕ → Bool} (hfair : Clocked.Fair ready)
    (hsent : ∀ t x, V x → ready t = true → m.sent t x ≠ [])
    (hstay : ∀ t x, V x → ready t = false → V (m.step t x)) {t u : ℕ} (hu : t ≤ u)
    (hv : V (m.run s u)) :
    ∃ v, t < v ∧ (m.delivered s t).length < (m.delivered s v).length := by
  obtain ⟨v, huv, hvalid, hready⟩ := Clocked.exists_until (A := V)
    (P := fun t ↦ ready t = true) hv
    (fun t _ hv hr ↦ hstay t _ hv (Bool.eq_false_of_not_eq_true hr)) (hfair u)
  have hle := (@delivered_isPrefix _ _ _ m s t v (by omega)).length_le
  have hpos := List.length_pos_iff.mpr (hsent v _ hvalid hready)
  refine ⟨v + 1, by omega, ?_⟩
  rw [delivered_succ, List.length_append]
  omega

/-! ## Queues -/

/-- `P t x q` says that in cycle `t` the machine holds the entries `q`; each
edge sends results `R` relates to its oldest entries. -/
def Queues (m : StreamMachine σ α β) (P : ℕ → σ → List α → Prop) (R : α → β → Prop) : Prop :=
  ∀ t x q, P t x q → ∃ d q', q ++ m.taken t x = d ++ q' ∧ List.Forall₂ R d (m.sent t x) ∧
    P (t + 1) (m.step t x) q'

variable {P : ℕ → σ → List α → Prop} {R : α → β → Prop}

/-- A machine whose contents are a list of results is a queue of their
entries. -/
theorem Queues.of_map {queue : σ → List β} {f : α → β}
    (h : ∀ t x, m.sent t x ++ queue (m.step t x) = queue x ++ (m.taken t x).map f) :
    m.Queues (fun _ x q ↦ queue x = q.map f) (fun a b ↦ f a = b) := by
  intro t x q hq
  have hmap : (q ++ m.taken t x).map f = m.sent t x ++ queue (m.step t x) := by
    rw [h, hq, List.map_append]
  obtain ⟨d, q', hsplit, hd, hq'⟩ := List.map_eq_append_iff.mp hmap
  refine ⟨d, q', hsplit, ?_, hq'.symm⟩
  rw [← hd, List.forall₂_map_right_iff]
  exact List.forall₂_same.mpr fun _ _ ↦ rfl

theorem eq_map_of_forall₂ {f : α → β} {as : List α} {bs : List β}
    (h : List.Forall₂ (fun a b ↦ f a = b) as bs) : bs = as.map f := by
  induction h with
  | nil => rfl
  | cons hab _ ih => rw [List.map_cons, ← ih, hab]

/-- Over a run nothing is lost, duplicated or overtaken. -/
theorem Queues.run (h : m.Queues P R) (hzero : P 0 s []) (t : ℕ) :
    ∃ d q, m.accepted s t = d ++ q ∧ List.Forall₂ R d (m.delivered s t) ∧
      P t (m.run s t) q := by
  induction t with
  | zero => exact ⟨[], [], rfl, .nil, hzero⟩
  | succ t ih =>
      obtain ⟨d, q, hacc, hdel, hP⟩ := ih
      obtain ⟨d', q', hsplit, hsent, hP'⟩ := h t _ q hP
      refine ⟨d ++ d', q', ?_, ?_, hP'⟩
      · rw [accepted_succ, hacc, List.append_assoc, hsplit, List.append_assoc]
      · rw [delivered_succ]
        exact List.rel_append hdel hsent

/-- If a machine that holds something always sends in the end, each entry it
takes has its result delivered. -/
theorem Queues.drains (h : m.Queues P R) (hzero : P 0 s [])
    (hmove : ∀ t q, P t (m.run s t) q → q ≠ [] → ∃ u, t < u ∧
      (m.delivered s t).length < (m.delivered s u).length) (t : ℕ) :
    ∃ u, List.Forall₂ R (m.accepted s t)
      ((m.delivered s u).take (m.accepted s t).length) := by
  have hreach : ∀ n ≤ (m.accepted s t).length,
      ∃ u, t ≤ u ∧ n ≤ (m.delivered s u).length := by
    intro n
    induction n with
    | zero => exact fun _ ↦ ⟨t, le_rfl, Nat.zero_le _⟩
    | succ n ih =>
        intro hn
        obtain ⟨u, hu, hlen⟩ := ih (by omega)
        by_cases hdone : n + 1 ≤ (m.delivered s u).length
        · exact ⟨u, hu, hdone⟩
        obtain ⟨d, q, hacc, hdel, hP⟩ := h.run hzero u
        have hq : q ≠ [] := by
          rintro rfl
          have hle := (@accepted_isPrefix _ _ _ m s _ _ hu).length_le
          rw [hacc, List.append_nil, hdel.length_eq] at hle
          omega
        obtain ⟨v, hv, hlt⟩ := hmove u q hP hq
        exact ⟨v, by omega, by omega⟩
  obtain ⟨u, hu, hlen⟩ := hreach _ le_rfl
  obtain ⟨d, q, hacc, hdel, -⟩ := h.run hzero u
  have htake : m.accepted s t = d.take (m.accepted s t).length := by
    rw [← hdel.length_eq] at hlen
    refine List.prefix_iff_eq_take.mp (List.prefix_of_prefix_length_le ?_ ⟨q, rfl⟩ hlen)
    exact hacc ▸ accepted_isPrefix hu
  refine ⟨u, ?_⟩
  have hfst := List.forall₂_take (m.accepted s t).length hdel
  rwa [← htake] at hfst

/-! ## Players -/

/-- A machine that answers each entry by a program of results and takes no
other entry until it has sent them all; `P x left` says which are left in state
`x`. -/
structure Plays (m : StreamMachine σ α β) (program : α → List β) (ok : α → Prop)
    (P : σ → List β → Prop) : Prop where
  /-- Nothing is left: the machine may take an entry. -/
  take : ∀ t x, P x [] → m.sent t x = [] ∧ (m.taken t x = [] ∧ P (m.step t x) [] ∨
    ∃ a, m.taken t x = [a] ∧ (ok a → P (m.step t x) (program a)))
  send : ∀ t x l, P x l → l ≠ [] → m.taken t x = [] ∧ ∃ l', l = m.sent t x ++ l' ∧
    P (m.step t x) l'

namespace Plays

variable {program : α → List β} {ok : α → Prop} {P : σ → List β → Prop}
  (h : m.Plays program ok P)
include h

/-- What has been sent and what is left are the programs of the entries taken. -/
theorem run (hzero : P s []) (t : ℕ) (hok : ∀ a ∈ m.accepted s t, ok a) :
    ∃ left, (m.accepted s t).flatMap program = m.delivered s t ++ left ∧ P (m.run s t) left := by
  induction t with
  | zero => exact ⟨[], rfl, hzero⟩
  | succ t ih =>
      rw [accepted_succ] at hok
      obtain ⟨left, hsplit, hP⟩ := ih fun a ha ↦ hok a (List.mem_append_left _ ha)
      rw [accepted_succ, delivered_succ, List.flatMap_append, hsplit]
      by_cases hleft : left = []
      · subst hleft
        obtain ⟨hsent, ⟨htaken, hP'⟩ | ⟨a, htaken, hP'⟩⟩ := h.take t _ hP
        · exact ⟨[], by rw [htaken, hsent]; simp, hP'⟩
        · have ha : ok a := hok a (by simp [htaken])
          exact ⟨program a, by rw [htaken, hsent]; simp, hP' ha⟩
      · obtain ⟨htaken, left', hsent, hP'⟩ := h.send t _ left hP hleft
        exact ⟨left', by rw [htaken]; simp [hsent], hP'⟩

/-- A machine whose rank only stands still while a fair port is not granted
comes to the end of its program, and takes nothing before. -/
theorem finishes {ready : ℕ → Bool} (hfair : Clocked.Fair ready) (rank : σ → List β → ℕ)
    (hrank : ∀ t x l l', P x l → l ≠ [] → l = m.sent t x ++ l' → P (m.step t x) l' →
      rank (m.step t x) l' ≤ rank x l ∧
        (ready t = true → rank (m.step t x) l' < rank x l)) (t : ℕ) (l : List β)
    (hP : P (m.run s t) l) :
    ∃ u, t ≤ u ∧ P (m.run s u) [] ∧ m.accepted s u = m.accepted s t := by
  induction hn : rank (m.run s t) l using Nat.strong_induction_on generalizing t l with
  | _ n ih =>
  let A : ℕ → Prop := fun u ↦ m.accepted s u = m.accepted s t ∧
    ∃ l, P (m.run s u) l ∧ rank (m.run s u) l ≤ n
  have hmove : ∀ u, A u → ¬P (m.run s u) [] → m.accepted s (u + 1) = m.accepted s t ∧
      ∃ l, P (m.run s (u + 1)) l ∧ rank (m.run s (u + 1)) l ≤ n ∧
        (ready u = true → rank (m.run s (u + 1)) l < n) := by
    rintro u ⟨hacc, l, hl, hle⟩ hbusy
    have hne : l ≠ [] := fun hnil ↦ hbusy (hnil ▸ hl)
    obtain ⟨htaken, l', hsplit, hl'⟩ := h.send u _ l hl hne
    obtain ⟨hkeep, hlower⟩ := hrank u _ l l' hl hne hsplit hl'
    rw [accepted_succ, htaken, List.append_nil]
    exact ⟨hacc, l', hl', hkeep.trans hle, fun hr ↦ (hlower hr).trans_le hle⟩
  obtain ⟨u, hu, hA, hstop⟩ := Clocked.exists_until (x := id) (A := A)
    (P := fun u ↦ P (m.run s u) [] ∨ ready u = true) ⟨rfl, l, hP, hn.le⟩
    (fun u _ hA hstop ↦ by
      obtain ⟨hacc, l, hl, hle, -⟩ := hmove u hA fun hidle ↦ hstop (.inl hidle)
      exact ⟨hacc, l, hl, hle⟩)
    ((hfair t).imp fun u hu ↦ ⟨hu.1, .inr hu.2⟩)
  by_cases hidle : P (m.run s u) []
  · exact ⟨u, hu, hidle, hA.1⟩
  obtain ⟨hacc, l, hl, -, hlower⟩ := hmove u hA hidle
  obtain ⟨v, hv, hP', hacc'⟩ := ih _ (hlower (hstop.resolve_left hidle)) (u + 1) l hl rfl
  exact ⟨v, by omega, hP', hacc'.trans hacc⟩

end Plays

end StreamMachine
