import LgNpu.Conv.Ctrl

/-!
# The walk of a convolution

The loop registers are the digits of the iteration number, whether the nest
ends or not: an index whose limit is zero runs through all 16-bit values again
and again, and the ones outside it stay at zero, just as quotients and
remainders by zero have it.
-/

namespace LgNpu

namespace ConvCmd

variable (cmd : ConvCmd)

/-- The iterations that are taken: all of them if the nest has no end. -/
def Reached (i : ℕ) : Prop := cmd.Looping → i < cmd.job.total

/-- The number of values of an index, given the product of the limits within. -/
def span (inner : ℕ) (d : Dim) : ℕ := if inner = 0 then 1 else limitDim d

def cSpan : ℕ := span 1 cmd.inC

def sSpan : ℕ := span cmd.inC.toNat cmd.filtS

def rSpan : ℕ := span (cmd.inC.toNat * cmd.filtS.toNat) cmd.filtR

def kSpan : ℕ := span (cmd.inC.toNat * cmd.filtS.toNat * cmd.filtR.toNat) cmd.outK

def owSpan : ℕ :=
  span (cmd.inC.toNat * cmd.filtS.toNat * cmd.filtR.toNat * cmd.outK.toNat) cmd.outW

def ohSpan : ℕ :=
  span (cmd.inC.toNat * cmd.filtS.toNat * cmd.filtR.toNat * cmd.outK.toNat) cmd.outH

variable {cmd} {i : ℕ}

/-! ## One index -/

section Digit

variable {inner x q a A : ℕ} {d : Dim}

theorem span_pos (inner : ℕ) (d : Dim) : 0 < span inner d := by
  rw [span]
  split
  · exact Nat.one_pos
  · exact limitDim_pos d

theorem span_of_zero (h : inner = 0) : span inner d = 1 := if_pos h

theorem span_of_pos (hi : 0 < inner) (hd : 0 < d.toNat) : span inner d = d.toNat :=
  (if_neg hi.ne').trans (limitDim_of_pos hd)

theorem eq_zero_of_lt_span (hx : x < span inner d) (h : inner = 0) : x = 0 := by
  rw [span_of_zero h] at hx
  omega

theorem digit_lt_span (h : inner = 0 → q = 0) :
    (BitVec.ofNat 16 (q % d.toNat)).toNat < span inner d := by
  rcases Nat.eq_zero_or_pos inner with hi | hi
  · rw [h hi, span_of_zero hi]
    simp
  · rcases Nat.eq_zero_or_pos d.toNat with hd | hd
    · rw [span, if_neg hi.ne', limitDim, if_pos (BitVec.eq_of_toNat_eq hd)]
      exact BitVec.isLt _
    · rw [span_of_pos hi hd, BitVec.toNat_ofNat]
      exact (Nat.mod_le _ _).trans_lt (Nat.mod_lt q hd)

/-- Where a digit has no room the digits outside it are zero. -/
theorem join_digit (hx : x < span inner d) (hq : inner * d.toNat = 0 → q = 0) :
    (q * d.toNat + x) / d.toNat = q ∧ (q * d.toNat + x) % d.toNat = x := by
  rcases Nat.eq_zero_or_pos d.toNat with hd | hd
  · rw [hq (by rw [hd, Nat.mul_zero]), hd]
    simp
  · have hlt : x < d.toNat := by
      rcases Nat.eq_zero_or_pos inner with hi | hi
      · rw [eq_zero_of_lt_span hx hi]
        exact hd
      · exact hx.trans_eq (span_of_pos hi hd)
    exact ⟨LoopNest.join_div hlt, LoopNest.join_mod hlt⟩

theorem join_lt_span (ha : a < A) (hx : x < span inner d) (hA : inner * d.toNat = 0 → A = 1) :
    a * d.toNat + x < A * span inner d := by
  rcases Nat.eq_zero_or_pos (inner * d.toNat) with h | h
  · obtain rfl := hA h
    obtain rfl : a = 0 := by omega
    simpa using hx
  · rw [span_of_pos (Nat.pos_of_mul_pos_right h) (Nat.pos_of_mul_pos_left h)] at hx ⊢
    exact LoopNest.join_lt ha hx

theorem split_digit (hx : x < A * span inner d) (hA : inner * d.toNat = 0 → A = 1) :
    x / span inner d < A ∧ x % span inner d < span inner d ∧
      x / span inner d * d.toNat + x % span inner d = x := by
  have hlt : x / span inner d < A := LoopNest.div_lt_of_lt_mul hx
  refine ⟨hlt, Nat.mod_lt _ (span_pos _ _), ?_⟩
  rcases Nat.eq_zero_or_pos (inner * d.toNat) with h | h
  · obtain rfl := hA h
    rw [Nat.one_mul] at hx
    rw [Nat.div_eq_of_lt hx, Nat.mod_eq_of_lt hx, Nat.zero_mul, Nat.zero_add]
  · rw [span_of_pos (Nat.pos_of_mul_pos_right h) (Nat.pos_of_mul_pos_left h)]
    exact LoopNest.div_mul_add_mod _ _

end Digit

/-! ## The tuple of an iteration -/

def tapAt (cmd : ConvCmd) (i : ℕ) : ConvAddrIn where
  actBase := cmd.actInAddr
  wtBase := cmd.weightAddr
  inH := cmd.inH
  inW := cmd.inW
  inC := cmd.inC
  filtR := cmd.filtR
  filtS := cmd.filtS
  oh := .ofNat 16 (cmd.ohOf (cmd.elemAt i))
  ow := .ofNat 16 (cmd.owOf (cmd.elemAt i))
  k := .ofNat 16 (cmd.kOf (cmd.elemAt i))
  r := .ofNat 16 (cmd.rAt i)
  s := .ofNat 16 (cmd.sAt i)
  c := .ofNat 16 (cmd.cAt i)
  strideH := cmd.strideH
  strideW := cmd.strideW
  padH := cmd.padH
  padW := cmd.padW

theorem elemAt_eq (i : ℕ) : cmd.elemAt i = i / cmd.job.its := by
  have hits : cmd.job.its = cmd.inC.toNat * (cmd.filtS.toNat * cmd.filtR.toNat) := by
    change cmd.filtR.toNat * cmd.filtS.toNat * cmd.inC.toNat = _
    ring
  rw [elemAt, Nat.div_div_eq_div_mul, Nat.div_div_eq_div_mul, hits]

theorem Looping.digits_lt (hp : cmd.Looping) (hi : i < cmd.job.total) :
    cmd.ohOf (cmd.elemAt i) < limitDim cmd.outH ∧ cmd.owOf (cmd.elemAt i) < limitDim cmd.outW ∧
      cmd.kOf (cmd.elemAt i) < cmd.outK.toNat ∧ cmd.rAt i < cmd.filtR.toNat ∧
      cmd.sAt i < cmd.filtS.toNat ∧ cmd.cAt i < cmd.inC.toNat := by
  have helem : cmd.elemAt i < limitDim cmd.outH * limitDim cmd.outW * cmd.outK.toNat := by
    rw [elemAt_eq]
    exact LoopNest.div_lt_of_lt_mul hi
  exact ⟨LoopNest.div_lt_of_lt_mul (LoopNest.div_lt_of_lt_mul helem),
    Nat.mod_lt _ (limitDim_pos _), Nat.mod_lt _ hp.k, Nat.mod_lt _ hp.r, Nat.mod_lt _ hp.s,
    Nat.mod_lt _ hp.c⟩

theorem Reached.of_succ (h : cmd.Reached (i + 1)) : cmd.Reached i :=
  fun hp ↦ (Nat.lt_succ_self i).trans (h hp)

theorem reached_zero : cmd.Reached 0 := fun hp ↦ Nat.mul_pos hp.job.outs hp.job.its

/-- The product of the limits within `ow`. -/
theorem Looping.of_inner_ne_zero
    (h : cmd.inC.toNat * cmd.filtS.toNat * cmd.filtR.toNat * cmd.outK.toNat ≠ 0) :
    cmd.Looping := by
  obtain ⟨⟨⟨hc, hs⟩, hr⟩, hk⟩ := by simpa only [mul_ne_zero_iff] using h
  exact ⟨Nat.pos_of_ne_zero hc, Nat.pos_of_ne_zero hs, Nat.pos_of_ne_zero hr,
    Nat.pos_of_ne_zero hk⟩

/-- The quotient that `ow` and `oh` are digits of is zero in an endless nest. -/
theorem elemAt_div_eq_zero (i : ℕ)
    (h : cmd.inC.toNat * cmd.filtS.toNat * cmd.filtR.toNat * cmd.outK.toNat = 0) :
    cmd.elemAt i / cmd.outK.toNat = 0 := by
  rw [elemAt, Nat.div_div_eq_div_mul, Nat.div_div_eq_div_mul, Nat.div_div_eq_div_mul,
    ← Nat.mul_assoc, ← Nat.mul_assoc, h, Nat.div_zero]

/-- The `ow` carry stays within the nest. -/
theorem Reached.ohOf_lt (h : cmd.Reached i) : cmd.ohOf (cmd.elemAt i) < cmd.ohSpan := by
  rw [ohSpan, span]
  split
  · next hzero =>
      rw [ohOf, elemAt_div_eq_zero i hzero, Nat.zero_div]
      exact Nat.one_pos
  · next hne =>
      have hp : cmd.Looping := .of_inner_ne_zero hne
      exact (hp.digits_lt (h hp)).1

theorem span_le_limitDim (inner : ℕ) (d : Dim) : span inner d ≤ limitDim d := by
  rw [span]
  split
  · exact limitDim_pos d
  · exact le_rfl

theorem span_le (inner : ℕ) (d : Dim) : span inner d ≤ 2 ^ 16 :=
  (span_le_limitDim inner d).trans (limitDim_le d)

/-- The indices of the tuple are within their spans. -/
structure Walked (cmd : ConvCmd) (oh ow k r s c : ℕ) : Prop where
  oh : oh < cmd.ohSpan
  ow : ow < cmd.owSpan
  k : k < cmd.kSpan
  r : r < cmd.rSpan
  s : s < cmd.sSpan
  c : c < cmd.cSpan

theorem Reached.walked (h : cmd.Reached i) : cmd.Walked (cmd.tapAt i).oh.toNat
    (cmd.tapAt i).ow.toNat (cmd.tapAt i).k.toNat (cmd.tapAt i).r.toNat (cmd.tapAt i).s.toNat
    (cmd.tapAt i).c.toNat := by
  refine ⟨?_, ?_, digit_lt_span fun hz ↦ ?_, digit_lt_span fun hz ↦ ?_,
    digit_lt_span fun hz ↦ ?_, digit_lt_span fun hz ↦ absurd hz Nat.one_ne_zero⟩
  · rw [tapAt, BitVec.toNat_ofNat]
    exact (Nat.mod_le _ _).trans_lt h.ohOf_lt
  · rw [tapAt, BitVec.toNat_ofNat, owSpan, span]
    split
    · next hzero =>
        rw [owOf, elemAt_div_eq_zero i hzero, Nat.zero_mod]
        exact Nat.one_pos
    · exact (Nat.mod_le _ _).trans_lt (Nat.mod_lt _ (limitDim_pos _))
  · rw [elemAt, Nat.div_div_eq_div_mul, Nat.div_div_eq_div_mul, ← Nat.mul_assoc, hz, Nat.div_zero]
  · rw [Nat.div_div_eq_div_mul, hz, Nat.div_zero]
  · rw [hz, Nat.div_zero]

/-- Every tuple within the spans has its iteration. -/
theorem Walked.exists_iteration {oh ow k r s c : ℕ} (h : cmd.Walked oh ow k r s c) :
    ∃ i, cmd.Reached i ∧ (cmd.tapAt i).oh.toNat = oh ∧ (cmd.tapAt i).ow.toNat = ow ∧
      (cmd.tapAt i).k.toNat = k ∧ (cmd.tapAt i).r.toNat = r ∧ (cmd.tapAt i).s.toNat = s ∧
      (cmd.tapAt i).c.toNat = c := by
  obtain ⟨hoh, how, hk, hr, hs, hc⟩ := h
  have hzero : ∀ {a b n : ℕ}, a = 0 → b = 0 → a * n + b = 0 := by
    rintro _ _ n rfl rfl
    simp
  -- Where a limit is zero the digits outside it are.
  have hzeroO : cmd.inC.toNat * cmd.filtS.toNat * cmd.filtR.toNat * cmd.outK.toNat = 0 →
      oh * limitDim cmd.outW + ow = 0 := fun hz ↦
    hzero (eq_zero_of_lt_span hoh hz) (eq_zero_of_lt_span how hz)
  have hzeroK : cmd.inC.toNat * cmd.filtS.toNat * cmd.filtR.toNat = 0 →
      (oh * limitDim cmd.outW + ow) * cmd.outK.toNat + k = 0 := fun hz ↦
    hzero (hzeroO (by rw [hz, Nat.zero_mul])) (eq_zero_of_lt_span hk hz)
  have hzeroR : cmd.inC.toNat * cmd.filtS.toNat = 0 →
      ((oh * limitDim cmd.outW + ow) * cmd.outK.toNat + k) * cmd.filtR.toNat + r = 0 := fun hz ↦
    hzero (hzeroK (by rw [hz, Nat.zero_mul])) (eq_zero_of_lt_span hr hz)
  have hzeroS : 1 * cmd.inC.toNat = 0 → (((oh * limitDim cmd.outW + ow) * cmd.outK.toNat + k) *
      cmd.filtR.toNat + r) * cmd.filtS.toNat + s = 0 := fun hz ↦ by
    rw [Nat.one_mul] at hz
    exact hzero (hzeroR (by rw [hz, Nat.zero_mul])) (eq_zero_of_lt_span hs hz)
  obtain ⟨hkDiv, hkMod⟩ := join_digit hk hzeroO
  obtain ⟨hrDiv, hrMod⟩ := join_digit hr hzeroK
  obtain ⟨hsDiv, hsMod⟩ := join_digit hs hzeroR
  obtain ⟨hcDiv, hcMod⟩ := join_digit hc hzeroS
  have howLt : ow < limitDim cmd.outW := by
    rw [owSpan, span] at how
    split at how
    · exact how.trans_le (limitDim_pos _)
    · exact how
  obtain ⟨i, hi⟩ : ∃ i, i = ((((oh * limitDim cmd.outW + ow) * cmd.outK.toNat + k) *
    cmd.filtR.toNat + r) * cmd.filtS.toNat + s) * cmd.inC.toNat + c := ⟨_, rfl⟩
  rw [← hi] at hcDiv hcMod
  have helem : cmd.elemAt i = (oh * limitDim cmd.outW + ow) * cmd.outK.toNat + k := by
    rw [elemAt, hcDiv, hsDiv, hrDiv]
  have hfit : ∀ {x inner : ℕ} {d : Dim}, x < span inner d → (BitVec.ofNat 16 x).toNat = x :=
    fun hx ↦ BitVec.toNat_ofNat _ _ ▸ Nat.mod_eq_of_lt (hx.trans_le (span_le _ _))
  refine ⟨i, fun hp ↦ ?_, ?_, ?_, ?_, ?_, ?_, ?_⟩
  · have hinner : 0 < cmd.inC.toNat * cmd.filtS.toNat := Nat.mul_pos hp.c hp.s
    rw [ohSpan, span, if_neg (Nat.mul_pos (Nat.mul_pos hinner hp.r) hp.k).ne'] at hoh
    rw [kSpan, span_of_pos (Nat.mul_pos hinner hp.r) hp.k] at hk
    rw [rSpan, span_of_pos hinner hp.r] at hr
    rw [sSpan, span_of_pos hp.c hp.s] at hs
    rw [cSpan, span_of_pos Nat.one_pos hp.c] at hc
    have hlt := LoopNest.join_lt (LoopNest.join_lt (LoopNest.join_lt
      (LoopNest.join_lt (LoopNest.join_lt hoh howLt) hk) hr) hs) hc
    rw [hi]
    refine hlt.trans_eq ?_
    change limitDim cmd.outH * limitDim cmd.outW * cmd.outK.toNat * cmd.filtR.toNat *
      cmd.filtS.toNat * cmd.inC.toNat = limitDim cmd.outH * limitDim cmd.outW * cmd.outK.toNat *
        (cmd.filtR.toNat * cmd.filtS.toNat * cmd.inC.toNat)
    ring
  · rw [tapAt, ohOf, helem, hkDiv, LoopNest.join_div howLt]
    exact hfit hoh
  · rw [tapAt, owOf, helem, hkDiv, LoopNest.join_mod howLt]
    exact hfit how
  · rw [tapAt, kOf, helem, hkMod]
    exact hfit hk
  · rw [tapAt, rAt, hcDiv, hsDiv, hrMod]
    exact hfit hr
  · rw [tapAt, sAt, hcDiv, hsMod]
    exact hfit hs
  · rw [tapAt, cAt, hcMod]
    exact hfit hc

end ConvCmd

/-! ## One edge of the registers -/

/-- A register that has wrapped is still the digit modulo `2 ^ 16`. -/
theorem wrapped_step {x x' d : Dim} {q q' : ℕ} {carry last : Bool}
    (hx : x = .ofNat 16 (q % d.toNat)) (hlast : last = eqLast x d) (hq : q' = q + carry.toNat)
    (hx' : x' = if carry then (if last then 0 else x + 1) else x) :
    x' = .ofNat 16 (q' % d.toNat) ∧ q' / d.toNat = q / d.toNat + (carry && last).toNat := by
  rcases Nat.eq_zero_or_pos d.toNat with hd | hd
  · obtain rfl : d = 0#16 := BitVec.eq_of_toNat_eq hd
    rw [eqLast_zero] at hlast
    subst hlast hq hx'
    cases carry <;> simp [hx, BitVec.ofNat_add]
  · have hlt : q % d.toNat < 2 ^ 16 := (Nat.mod_lt q hd).trans d.isLt
    have hxNat : x.toNat = q % d.toNat := by
      rw [hx, BitVec.toNat_ofNat]
      exact Nat.mod_eq_of_lt hlt
    obtain ⟨hnext, hcarry⟩ := digit_step hxNat hd d.isLt.le (hlast ▸ eqLast_iff hd) hq hx'
    exact ⟨eq_ofNat_of_toNat hnext, hcarry⟩

namespace ConvFront

/-- The loop registers stand at the tuple of iteration `i`. -/
structure AtTap (cmd : ConvCmd) (i : ℕ) (ctrl : ConvCtrl) : Prop where
  oh : ctrl.ohR = .ofNat 16 (cmd.ohOf (cmd.elemAt i))
  ow : ctrl.owR = .ofNat 16 (cmd.owOf (cmd.elemAt i))
  k : ctrl.kR = .ofNat 16 (cmd.kOf (cmd.elemAt i))
  r : ctrl.rR = .ofNat 16 (cmd.rAt i)
  s : ctrl.sR = .ofNat 16 (cmd.sAt i)
  c : ctrl.cR = .ofNat 16 (cmd.cAt i)

variable {cmd : ConvCmd} {i : ℕ} {s : ConvCtrl}

theorem lastOw_iff (hcmd : s.cmdR = cmd) :
    s.lastOw = true ↔ s.owR.toNat + 1 = limitDim cmd.outW := by
  have hpred := toNat_pred cmd.outW
  rw [ConvCtrl.lastOw, ConvCtrl.owMax, hcmd, beq_iff_eq, ← BitVec.toNat_inj]
  omega

/-- The registers move to the next tuple, past the end of a register's range if
the nest has no end. -/
theorem AtTap.advance (hcmd : s.cmdR = cmd) (h : AtTap cmd i s) (hs : s.state = .compute)
    (hnext : cmd.Reached (i + 1)) (v : Bool) : AtTap cmd (i + 1) (s.step cmd v true) := by
  have hne : s.state ≠ .loadCfg := by simp [hs]
  have hC : s.stepC true = true := by simp [ConvCtrl.stepC, ConvCtrl.advance, hs]
  have hin : i + 1 = i + (s.stepC true).toNat := by rw [hC]; rfl
  have hult : s.ohR.ult s.ohMax = decide (s.ohR.toNat + 1 < limitDim cmd.outH) := by
    have hpred := toNat_pred cmd.outH
    rw [ConvCtrl.ohMax, hcmd, BitVec.ult_eq_decide]
    exact decide_eq_decide.mpr (by omega)
  obtain ⟨hc, hcarryC⟩ := wrapped_step h.c (by rw [ConvCtrl.lastC, hcmd] : s.lastC = _) hin
    (if_neg hne : (s.step cmd v true).cR = _)
  obtain ⟨hs', hcarryS⟩ := wrapped_step h.s (by rw [ConvCtrl.lastS, hcmd] : s.lastS = _) hcarryC
    (if_neg hne : (s.step cmd v true).sR = _)
  obtain ⟨hr, hcarryR⟩ := wrapped_step h.r (by rw [ConvCtrl.lastR, hcmd] : s.lastR = _) hcarryS
    (if_neg hne : (s.step cmd v true).rR = _)
  obtain ⟨hk, hcarryK⟩ := wrapped_step h.k (by rw [ConvCtrl.lastK, hcmd] : s.lastK = _) hcarryR
    (if_neg hne : (s.step cmd v true).kR = _)
  have howNat : s.owR.toNat = cmd.elemAt i / cmd.outK.toNat % limitDim cmd.outW := by
    rw [h.ow, BitVec.toNat_ofNat]
    exact Nat.mod_eq_of_lt ((Nat.mod_lt _ (limitDim_pos _)).trans_le (limitDim_le _))
  obtain ⟨how, hcarryOw⟩ := digit_step howNat (limitDim_pos _) (limitDim_le _) (lastOw_iff hcmd)
    hcarryK (if_neg hne : (s.step cmd v true).owR = _)
  have hohR : (s.step cmd v true).ohR =
      if s.stepOh true && decide (s.ohR.toNat + 1 < limitDim cmd.outH) then s.ohR + 1
      else s.ohR := by
    rw [← hult]
    exact if_neg hne
  have hohLt : ∀ {j : ℕ}, cmd.Reached j → cmd.ohOf (cmd.elemAt j) < limitDim cmd.outH := fun hj ↦
    hj.ohOf_lt.trans_le (ConvCmd.span_le_limitDim _ _)
  have hohNat : s.ohR.toNat = cmd.ohOf (cmd.elemAt i) := by
    rw [h.oh, BitVec.toNat_ofNat]
    exact Nat.mod_eq_of_lt ((hohLt hnext.of_succ).trans_le (limitDim_le _))
  have hoh := outermost_step hohNat (limitDim_le _)
    (hcarryOw.symm ▸ hohLt hnext : cmd.elemAt i / cmd.outK.toNat / _ + _ < _) hohR
  exact ⟨eq_ofNat_of_toNat (hoh.trans hcarryOw.symm), eq_ofNat_of_toNat how, hk, hr, hs', hc⟩

end ConvFront

end LgNpu
