/-
# The float nearest to a product or a quotient

In the middle of the range of floats a product or a quotient is rounded to 53 bits. No float of
53 bits is nearer to it, and it is off by one part in 2⁵³ at most. So it is not below a float
that the exact result is not below, and it is a float that the exact result is nearer to than
half of the distance to the next one.
-/
import Mathlib
import Scripting.Proofs.Number.Nearest

namespace Scripting

open Float.Model Float.Model.UnpackedFloat FloatParts

variable {e : Int} {x y : Float} {f g : ℚ} {m : Nat} {s s' : Bool}

/-! ### Floats of 53 bits -/

/-- A float with the given sign and magnitude, of 53 bits. -/
def FloatIs (x : Float) (negative : Bool) (f : ℚ) : Prop :=
  ∃ m e, FloatParts.of x = .finite negative m e ∧ Normal m e ∧ magnitude m e = f

/-- The magnitude of a float of 53 bits. -/
def IsNormal (f : ℚ) : Prop := ∃ m e, Normal m e ∧ magnitude m e = f

theorem FloatIs.isNormal {negative : Bool} (h : FloatIs x negative f) : IsNormal f :=
  let ⟨m, e, _, hnormal, hf⟩ := h
  ⟨m, e, hnormal, hf⟩

theorem IsNormal.pos : IsNormal f → 0 < f := by
  rintro ⟨m, e, hnormal, rfl⟩
  exact magnitude_pos hnormal.pos e

theorem Normal.canonical (h : Normal m e) (negative : Bool) : (finite negative m e).Canonical :=
  ⟨h.high, h.least, .inl h.low⟩

theorem isNormal_of_lt {n : Nat} (hpos : 0 < n) (h : n < 2 ^ 53) (he : -1000 ≤ e) (he' : e ≤ 900) :
    IsNormal (n * 2 ^ e) := by
  have hlog : n.log2 < 53 := (Nat.log2_lt hpos.ne').2 h
  obtain ⟨zeros, hzeros⟩ : ∃ zeros, zeros + n.log2 = 52 := ⟨52 - n.log2, by omega⟩
  have hlog' : (n * 2 ^ zeros).log2 = 52 := by
    rw [log2_mul_two_pow hpos.ne']
    omega
  have hsize := (Nat.log2_eq_iff (Nat.mul_ne_zero hpos.ne' (Nat.two_pow_pos _).ne')).1 hlog'
  refine ⟨n * 2 ^ zeros, e - zeros, ⟨hsize.1, hsize.2, by omega, by omega⟩, ?_⟩
  rw [magnitude, zpow_sub₀ (by norm_num), zpow_natCast]
  push_cast
  field_simp

theorem isNormal_natCast {n : Nat} (hpos : 0 < n) (h : n < 2 ^ 53) : IsNormal n := by
  have := isNormal_of_lt hpos h (show -1000 ≤ (0 : Int) by decide) (by decide)
  rwa [zpow_zero, mul_one] at this

/-- Two floats differ by one part in 2⁵³ at least. -/
theorem IsNormal.gap (hf : IsNormal f) (hg : IsNormal g) (hne : f ≠ g) : f ≤ |f - g| * 2 ^ 53 := by
  obtain ⟨m, e, hm, rfl⟩ := hf
  obtain ⟨m', e', hm', rfl⟩ := hg
  have hlow : (2 ^ 52 : ℚ) ≤ m := by exact_mod_cast hm.low
  have hlow' : (2 ^ 52 : ℚ) ≤ m' := by exact_mod_cast hm'.low
  have hhigh : (m : ℚ) + 1 ≤ 2 ^ 53 := by exact_mod_cast hm.high
  have hhigh' : (m' : ℚ) + 1 ≤ 2 ^ 53 := by exact_mod_cast hm'.high
  have hpos : (0 : ℚ) < 2 ^ e := by positivity
  rcases lt_trichotomy e e' with hlt | rfl | hlt
  · have hstep : (2 : ℚ) ^ e * 2 ≤ 2 ^ e' := by
      rw [← zpow_add_one₀ (by norm_num)]
      exact zpow_le_zpow_right₀ (by norm_num) (by omega)
    have hfar : (2 : ℚ) ^ e ≤ magnitude m' e' - magnitude m e := by
      unfold magnitude
      nlinarith
    rw [abs_sub_comm]
    have := le_abs_self (magnitude m' e' - magnitude m e)
    have hsmall : magnitude m e ≤ 2 ^ 53 * 2 ^ e := by
      unfold magnitude
      gcongr
      linarith
    linarith
  · have hdiff : (1 : ℚ) ≤ |(m : ℚ) - m'| := by
      have hother : (m : Int) - m' ≠ 0 := by
        intro heq
        obtain rfl : m = m' := by omega
        exact hne rfl
      exact_mod_cast Int.one_le_abs hother
    unfold magnitude
    rw [← sub_mul, abs_mul, abs_of_pos hpos]
    nlinarith
  have hstep : (2 : ℚ) ^ e' * 2 ≤ 2 ^ e := by
    rw [← zpow_add_one₀ (by norm_num)]
    exact zpow_le_zpow_right₀ (by norm_num) (by omega)
  have hfar : (m - 2 ^ 52 + 1 / 2 : ℚ) * 2 ^ e ≤ magnitude m e - magnitude m' e' := by
    have : magnitude m' e' ≤ (2 ^ 52 - 1 / 2 : ℚ) * 2 ^ e := by
      unfold magnitude
      have : (0 : ℚ) < 2 ^ e' := by positivity
      nlinarith
    unfold magnitude at *
    linarith
  have := le_abs_self (magnitude m e - magnitude m' e')
  have hsmall : magnitude m e ≤ (m - 2 ^ 52 + 1 / 2 : ℚ) * 2 ^ e * 2 ^ 53 := by
    unfold magnitude
    nlinarith
  linarith

/-! ### Nearest floats -/

/-- A number, and a float of 53 bits that none is nearer to it than. -/
structure NearestFloat (p f : ℚ) : Prop where
  isNormal : IsNormal f
  near {g : ℚ} : IsNormal g → |p - f| ≤ |p - g|
  close : |p - f| * 2 ^ 53 ≤ p

namespace NearestFloat

variable {p : ℚ}

theorem le_of_le (h : NearestFloat p f) (hg : IsNormal g) (hle : g ≤ p) : g ≤ f := by
  by_contra hlt
  have hnear := h.near hg
  rw [abs_of_nonneg (by linarith), abs_of_nonneg (by linarith)] at hnear
  linarith

/-- A float that a number is nearer to than half of the distance to the next one. -/
theorem eq_of_near (h : NearestFloat p f) (hg : IsNormal g) (hnear : |p - g| * 2 ^ 54 < g) :
    f = g := by
  by_contra hne
  have hgap := hg.gap h.isNormal (Ne.symm hne)
  have hbetween : |g - f| ≤ |p - g| + |p - f| := by
    rw [abs_sub_comm p g]
    exact abs_sub_le g p f
  have hless := h.near hg
  linarith

theorem le_mul (h : NearestFloat p f) : f ≤ p * (1 + 1 / 2 ^ 53) := by
  have := neg_abs_le (p - f)
  have := h.close
  linarith

theorem mul_le (h : NearestFloat p f) : p * (1 - 1 / 2 ^ 53) ≤ f := by
  have := le_abs_self (p - f)
  have := h.close
  linarith

end NearestFloat

/-! ### Rounding -/

def InRange (p : ℚ) : Prop := 2 ^ (-1021 : Int) ≤ p ∧ p ≤ 2 ^ (1021 : Int)

/-- What is kept of a fraction is a nearest float. -/
theorem keptQuotient_nearest {num den : Nat} (hden : 0 < den) (hquotient : 2 ^ 52 ≤ num / den)
    (hf : IsNormal (keptQuotient num den * 2 ^ (e + droppedBits (num / den)))) :
    NearestFloat (num / den * 2 ^ e) (keptQuotient num den * 2 ^ (e + droppedBits (num / den))) := by
  obtain ⟨hlow, -⟩ := div_droppedBits_mem hquotient
  rw [Nat.div_div_eq_div_mul] at hlow
  have hpos : 0 < den * 2 ^ droppedBits (num / den) := Nat.mul_pos hden (Nat.two_pow_pos _)
  have hsize : (2 ^ 52 * (den * 2 ^ droppedBits (num / den)) : ℚ) ≤ num := by
    exact_mod_cast (Nat.le_div_iff_mul_le hpos).1 hlow
  have hnear := (roundedQuotient_near num hpos).1
  rw [← keptQuotient] at hnear
  have hnearest (t : Nat) :
      |(num : Int) - keptQuotient num den * (den * 2 ^ droppedBits (num / den) : Nat)| ≤
        |(num : Int) - t * (den * 2 ^ droppedBits (num / den) : Nat)| :=
    (roundedQuotient_nearest num hpos t).1
  have hoff (t : Nat) : (num / den * 2 ^ e - t * 2 ^ (e + droppedBits (num / den)) : ℚ) =
      (num - t * (den * 2 ^ droppedBits (num / den))) * (2 ^ e / den) := by
    have : (den : ℚ) ≠ 0 := by exact_mod_cast hden.ne'
    rw [zpow_add₀ (by norm_num), zpow_natCast]
    field_simp
  have hscale : (0 : ℚ) < 2 ^ e / den := by positivity
  have hmultiple (t : Nat) :
      |(num / den * 2 ^ e - keptQuotient num den * 2 ^ (e + droppedBits (num / den)) : ℚ)| ≤
        |(num / den * 2 ^ e - t * 2 ^ (e + droppedBits (num / den)) : ℚ)| := by
    rw [hoff, hoff, abs_mul, abs_mul]
    refine mul_le_mul_of_nonneg_right ?_ (abs_nonneg _)
    exact_mod_cast hnearest t
  refine ⟨hf, ?_, ?_⟩
  · rintro g ⟨m, e', hm, rfl⟩
    by_cases hlt : e' < e + droppedBits (num / den)
    · -- the leading bit alone would be nearer than a float of fewer bits
      have hlead : ((2 ^ 52 : Nat) * 2 ^ (e + droppedBits (num / den)) : ℚ) ≤ num / den * 2 ^ e := by
        rw [← sub_nonneg, hoff]
        refine mul_nonneg (sub_nonneg.2 ?_) hscale.le
        push_cast
        exact hsize
      have hleading : (finite false (2 ^ 52) (e + droppedBits (num / den))).Canonical :=
        ⟨by norm_num, hm.least.trans hlt.le, .inl le_rfl⟩
      have hless : magnitude m e' < (2 ^ 52 : Nat) * 2 ^ (e + droppedBits (num / den)) :=
        magnitude_lt_of_exponent_lt (hm.canonical false) hleading hlt
      refine (hmultiple (2 ^ 52)).trans ?_
      rw [abs_of_nonneg (sub_nonneg.2 hlead), abs_of_nonneg (by linarith)]
      linarith
    obtain ⟨j, rfl⟩ : ∃ j : Nat, e' = e + droppedBits (num / den) + j :=
      ⟨(e' - (e + droppedBits (num / den))).toNat, by omega⟩
    have hmagnitude : magnitude m (e + droppedBits (num / den) + j) =
        (m * 2 ^ j : Nat) * 2 ^ (e + droppedBits (num / den)) := by
      rw [magnitude, zpow_add₀ (by norm_num) _ (j : Int), zpow_natCast]
      push_cast
      ring
    rw [hmagnitude]
    exact hmultiple _
  have hhalf : (2 * |(num : ℚ) - keptQuotient num den * (den * 2 ^ droppedBits (num / den))|) ≤
      den * 2 ^ droppedBits (num / den) := by exact_mod_cast hnear
  have hexact : (num / den * 2 ^ e : ℚ) = num * (2 ^ e / den) := by ring
  rw [hoff, abs_mul, abs_of_pos hscale, hexact, mul_right_comm]
  refine mul_le_mul_of_nonneg_right ?_ hscale.le
  linarith

/-- In the middle of the range rounding gives a nearest float. -/
theorem round_nearest {sign : Sign} {num den : Nat} (hden : 0 < den)
    (hquotient : 2 ^ 52 ≤ num / den) (hrange : InRange (num / den * 2 ^ e)) :
    ∃ f, FloatIs (Float.ofModel (Float.Model.pack
        (roundWithAccuracy Format.binary64 sign (num / den) e
          (accuracyOfFraction (num % den) den)))) (sign == .negative) f ∧
      NearestFloat (num / den * 2 ^ e) f := by
  obtain ⟨hlow, hhigh⟩ := div_droppedBits_mem hquotient
  rw [Nat.div_div_eq_div_mul] at hlow hhigh
  have hpos : 0 < den * 2 ^ droppedBits (num / den) := Nat.mul_pos hden (Nat.two_pow_pos _)
  have hexact : (num / den * 2 ^ e : ℚ) =
      num / (den * 2 ^ droppedBits (num / den)) * 2 ^ (e + droppedBits (num / den)) := by
    have : (den : ℚ) ≠ 0 := by exact_mod_cast hden.ne'
    rw [zpow_add₀ (by norm_num), zpow_natCast]
    field_simp
  have hpos' : (0 : ℚ) < den * 2 ^ droppedBits (num / den) := by exact_mod_cast hpos
  have hlow' : (2 ^ 52 : ℚ) ≤ num / (den * 2 ^ droppedBits (num / den)) := by
    rw [le_div_iff₀ hpos']
    exact_mod_cast (Nat.le_div_iff_mul_le hpos).1 hlow
  have hhigh' : (num / (den * 2 ^ droppedBits (num / den)) : ℚ) < 2 ^ 53 := by
    rw [div_lt_iff₀ hpos']
    exact_mod_cast (Nat.div_lt_iff_lt_mul hpos).1 hhigh
  have hscale : (0 : ℚ) < 2 ^ (e + droppedBits (num / den)) := by positivity
  obtain ⟨hleast, hmost⟩ := hrange
  rw [hexact] at hleast hmost
  have he : -1074 ≤ e + droppedBits (num / den) := by
    have : (2 : ℚ) ^ (-1021 : Int) < 2 ^ (53 + (e + droppedBits (num / den))) := by
      rw [zpow_add₀ (by norm_num)]
      exact hleast.trans_lt (mul_lt_mul_of_pos_right (by exact_mod_cast hhigh') hscale)
    have := (zpow_lt_zpow_iff_right₀ (by norm_num)).1 this
    omega
  have he' : e + droppedBits (num / den) < 971 := by
    have : (2 : ℚ) ^ (52 + (e + droppedBits (num / den))) ≤ 2 ^ (1021 : Int) := by
      rw [zpow_add₀ (by norm_num)]
      exact (mul_le_mul_of_nonneg_right (by exact_mod_cast hlow') hscale.le).trans hmost
    have := (zpow_le_zpow_iff_right₀ (by norm_num)).1 this
    omega
  obtain ⟨m, e', hof, hnormal, hmagnitude, -⟩ := @of_round sign num den e hden hquotient he he'
  refine ⟨_, ⟨m, e', hof, hnormal, hmagnitude⟩, ?_⟩
  exact keptQuotient_nearest hden hquotient ⟨m, e', hnormal, hmagnitude⟩

/-! ### Products and quotients -/

theorem sign_beq_mul (s s' : Sign) :
    (s * s' == .negative) = ((s == .negative) ^^ (s' == .negative)) := by
  cases s <;> cases s' <;> rfl

theorem sign_beq_div (s s' : Sign) :
    (s / s' == .negative) = ((s == .negative) ^^ (s' == .negative)) := by
  cases s <;> cases s' <;> rfl

theorem mul_nearest (hx : FloatIs x s f) (hy : FloatParts.of y = .finite s' m e) (hm : 0 < m)
    (hrange : InRange (f * magnitude m e)) :
    ∃ g, FloatIs (x * y) (s ^^ s') g ∧ NearestFloat (f * magnitude m e) g := by
  obtain ⟨m₁, e₁, hof, hnormal, rfl⟩ := hx
  obtain ⟨sign, hunpack, rfl⟩ := exists_unpack hof hnormal.pos
  obtain ⟨sign', hunpack', rfl⟩ := exists_unpack hy hm
  have hexact : magnitude m₁ e₁ * magnitude m e =
      ((m₁ * m : Nat) / (1 : Nat) * 2 ^ (e₁ + e) : ℚ) := by
    rw [magnitude, magnitude, zpow_add₀ (by norm_num)]
    push_cast
    ring
  have hquotient : 2 ^ 52 ≤ m₁ * m / 1 := by
    rw [Nat.div_one]
    exact hnormal.low.trans (Nat.le_mul_of_pos_right _ hm)
  have hmul : x * y = Float.ofModel (Float.Model.pack
      (roundWithAccuracy Format.binary64 (sign * sign') (m₁ * m / 1) (e₁ + e)
        (accuracyOfFraction (m₁ * m % 1) 1))) := by
    rw [Nat.div_one, accuracyOfFraction_one]
    exact mul_eq hunpack hunpack'
  rw [hmul, ← sign_beq_mul, hexact]
  exact round_nearest one_pos hquotient (hexact ▸ hrange)

theorem FloatIs.mul (hx : FloatIs x false f) (hy : FloatIs y false g) (hrange : InRange (f * g)) :
    ∃ h, FloatIs (x * y) false h ∧ NearestFloat (f * g) h := by
  obtain ⟨m, e, hof, hnormal, rfl⟩ := hy
  exact mul_nearest hx hof hnormal.pos hrange

theorem div_nearest (hx : FloatIs x s f) (hy : FloatIs y s' g) (hrange : InRange (f / g)) :
    ∃ h, FloatIs (x / y) (s ^^ s') h ∧ NearestFloat (f / g) h := by
  obtain ⟨m, e, hof, hnormal, rfl⟩ := hx
  obtain ⟨m', e', hof', hnormal', rfl⟩ := hy
  obtain ⟨sign, hunpack, rfl⟩ := exists_unpack hof hnormal.pos
  obtain ⟨sign', hunpack', rfl⟩ := exists_unpack hof' hnormal'.pos
  have hpos : (0 : ℚ) < m' := by exact_mod_cast hnormal'.pos
  -- 53 more bits are enough, as the mantissas differ by a factor of two at most
  have hexact : magnitude m e / magnitude m' e' =
      ((m * 2 ^ 53 : Nat) / m' * 2 ^ (e - e' - 53) : ℚ) := by
    rw [magnitude, magnitude, zpow_sub₀ (by norm_num), zpow_sub₀ (by norm_num)]
    push_cast
    field_simp
  have hquotient : 2 ^ 52 ≤ m * 2 ^ 53 / m' := by
    rw [Nat.le_div_iff_mul_le hnormal'.pos]
    exact Nat.mul_le_mul hnormal.low hnormal'.high.le
  have hexponent : -1021 ≤ e - e' := by
    have hhigh : (m * 2 ^ 53 / m' : ℚ) < 2 ^ 54 := by
      rw [div_lt_iff₀ hpos]
      have : (m : ℚ) < 2 ^ 53 := by exact_mod_cast hnormal.high
      have : (2 ^ 52 : ℚ) ≤ m' := by exact_mod_cast hnormal'.low
      linarith
    have hless : (2 : ℚ) ^ (-1021 : Int) < 2 ^ (54 + (e - e' - 53)) := by
      rw [zpow_add₀ (by norm_num)]
      refine (hexact ▸ hrange.1).trans_lt (mul_lt_mul_of_pos_right ?_ (by positivity))
      exact_mod_cast hhigh
    have := (zpow_lt_zpow_iff_right₀ (by norm_num)).1 hless
    omega
  have hlog : m.log2 = 52 := (Nat.log2_eq_iff hnormal.pos.ne').2 ⟨hnormal.low, hnormal.high⟩
  have hlog' : m'.log2 = 52 := (Nat.log2_eq_iff hnormal'.pos.ne').2 ⟨hnormal'.low, hnormal'.high⟩
  have hcore : divCore Format.binary64 m e m' e' =
      (m * 2 ^ 53 / m', e - e' - 53, accuracyOfFraction (m * 2 ^ 53 % m') m') := by
    have htarget : min (e - e') (Format.binary64.targetExponent
        (totalExponent m e - totalExponent m' e')) = e - e' - 53 := by
      rw [targetExponent_eq, totalExponent, totalExponent, hlog, hlog']
      omega
    have hshift : (e - e' - (e - e' - 53)).toNat = 53 := by omega
    simp only [divCore, htarget, hshift, Nat.shiftLeft_eq]
  have hdiv : x / y = Float.ofModel (Float.Model.pack
      (roundWithAccuracy Format.binary64 (sign / sign') (m * 2 ^ 53 / m') (e - e' - 53)
        (accuracyOfFraction (m * 2 ^ 53 % m') m'))) := by
    change Float.ofModel (Float.Model.pack
      (UnpackedFloat.div Format.binary64 x.toModel.unpack y.toModel.unpack)) = _
    rw [hunpack, hunpack', UnpackedFloat.div, hcore]
  rw [hdiv, ← sign_beq_div, hexact]
  exact round_nearest hnormal'.pos hquotient (hexact ▸ hrange)

/-! ### Zero -/

theorem exists_unpack_zero {negative : Bool} (hx : FloatParts.of x = .finite negative 0 e) :
    ∃ sign, x.toModel.unpack = .zero sign := by
  rw [FloatParts.of_eq] at hx
  cases hunpack : x.toModel.unpack with
  | notANumber | infinity =>
    rw [hunpack] at hx
    cases hx
  | zero sign => exact ⟨sign, rfl⟩
  | finite sign m' e' hpos =>
    rw [hunpack] at hx
    simp only [FloatParts.unpacked, FloatParts.finite.injEq] at hx
    omega

theorem of_pack_zero (sign : Sign) :
    FloatParts.of (Float.ofModel (Float.Model.pack (.zero sign))) =
      .finite (sign == .negative) 0 (-1074) := by
  cases sign <;> decide +kernel

theorem of_zero_mul {e' : Int} (hx : FloatParts.of x = .finite s 0 e)
    (hy : FloatParts.of y = .finite s' m e') (hm : 0 < m) :
    ∃ t, FloatParts.of (x * y) = .finite t 0 (-1074) := by
  obtain ⟨sign, hunpack⟩ := exists_unpack_zero hx
  obtain ⟨sign', hunpack', -⟩ := exists_unpack hy hm
  change ∃ t, FloatParts.of (Float.ofModel (Float.Model.pack
    (UnpackedFloat.mul Format.binary64 x.toModel.unpack y.toModel.unpack))) = _
  rw [hunpack, hunpack']
  exact ⟨_, of_pack_zero _⟩

theorem of_zero_div {e' : Int} (hx : FloatParts.of x = .finite s 0 e)
    (hy : FloatParts.of y = .finite s' m e') (hm : 0 < m) :
    ∃ t, FloatParts.of (x / y) = .finite t 0 (-1074) := by
  obtain ⟨sign, hunpack⟩ := exists_unpack_zero hx
  obtain ⟨sign', hunpack', -⟩ := exists_unpack hy hm
  change ∃ t, FloatParts.of (Float.ofModel (Float.Model.pack
    (UnpackedFloat.div Format.binary64 x.toModel.unpack y.toModel.unpack))) = _
  rw [hunpack, hunpack']
  exact ⟨_, of_pack_zero _⟩

end Scripting
