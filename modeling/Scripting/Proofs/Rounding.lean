/-
# Rounding to a power of ten

A whole number is rounded to a multiple of a power of ten in floats: it is multiplied by the
reciprocal, rounded to a whole number and divided by the reciprocal again. The reciprocal is no
float, and the product and the quotient are rounded.

The product is right if the number is small enough for the next half to be farther away than the
product can be off. The quotient is right if the reciprocal is off by less than half of one part
in 2⁵³, because the multiple is a float itself. For four powers of ten the reciprocal is off by
more, and the quotient may fall below the multiple; without its fraction it is one less then.
-/
import Mathlib
import Scripting.Builtin
import Scripting.Proofs.Number.Tenths
import Scripting.Proofs.Number.Words

namespace Scripting

open FloatParts

/-- The multiple of a number that is nearest to another number. Of two that are equally near it is
the one farther from zero. -/
structure NearestMultiple (d : Nat) (n multiple : Int) : Prop where
  dvd : (d : Int) ∣ multiple
  near : 2 * |n - multiple| ≤ d
  away : 2 * |n - multiple| = d → |n| < |multiple|

theorem nearestMultiple_zero {d : Nat} {n : Int} (h : 2 * |n| < d) : NearestMultiple d n 0 := by
  refine ⟨dvd_zero _, ?_, fun htie => ?_⟩
  · rw [sub_zero]
    exact h.le
  · rw [sub_zero] at htie
    exact absurd htie h.ne

/-! ### What is computed -/

theorem inRange_of_between {p : ℚ} (hlow : 1 / 2 ^ 200 ≤ p) (hhigh : p ≤ 2 ^ 200) : InRange p := by
  constructor
  · refine le_trans ?_ hlow
    rw [one_div, ← zpow_natCast, ← zpow_neg]
    exact zpow_le_zpow_right₀ (by norm_num) (by norm_num)
  · refine hhigh.trans ?_
    rw [← zpow_natCast]
    exact zpow_le_zpow_right₀ (by norm_num) (by norm_num)

section

variable {x unit : Float} {negative : Bool} {f u : ℚ}

theorem rescaled_zero {m : Nat} {e : Int} (hx : FloatIs x negative f)
    (hunit : FloatParts.of unit = .finite false m e) (hm : 0 < m)
    (hlow : 2 ^ (-1021 : Int) ≤ f * magnitude m e) (hhigh : f * magnitude m e ≤ 49 / 100) :
    floatTruncated? (floatRounded .halfAway (x * unit) / unit) = some 0 := by
  have hone : (1 : ℚ) ≤ 2 ^ (1021 : Int) := one_le_zpow₀ (by norm_num) (by norm_num)
  obtain ⟨p, hp, hnearest⟩ := mul_nearest hx hunit hm
    ⟨hlow, hhigh.trans (le_trans (by norm_num) hone)⟩
  have hfloor : ⌊p + 1 / 2⌋₊ = 0 := by
    rw [Nat.floor_eq_zero]
    linarith [hnearest.le_mul]
  rcases floatRounded_halfAway hp with ⟨-, hzero⟩ | ⟨hpos, -⟩
  · obtain ⟨t, hquotient⟩ := of_zero_div hzero hunit hm
    exact floatTruncated_zero hquotient
  · omega

theorem rescaled (hx : FloatIs x negative f) (hunit : FloatIs unit false u) (hf : 1 ≤ f)
    (hf' : f ≤ 2 ^ 64) (hu : 1 / 2 ^ 100 ≤ u) (hu' : u ≤ 1) :
    ∃ p y, NearestFloat (f * u) p ∧
      (⌊p + 1 / 2⌋₊ = 0 ∧ y = 0 ∨ 0 < ⌊p + 1 / 2⌋₊ ∧ NearestFloat (⌊p + 1 / 2⌋₊ / u) y) ∧
      floatTruncated? (floatRounded .halfAway (x * unit) / unit) =
        some (signedWhole negative ⌊y⌋₊) := by
  have hupos : 0 < u := hunit.isNormal.pos
  obtain ⟨m, e, hof, hnormal, rfl⟩ := hunit
  have hproduct : 1 / 2 ^ 100 ≤ f * magnitude m e ∧ f * magnitude m e ≤ 2 ^ 64 := by
    constructor <;> nlinarith
  obtain ⟨p, hp, hnearest⟩ := mul_nearest hx hof hnormal.pos
    (inRange_of_between (by linarith) (by linarith))
  rw [Bool.xor_false] at hp
  rcases floatRounded_halfAway hp with ⟨hzero, hparts⟩ | ⟨hpos, hfloat⟩
  · obtain ⟨t, hquotient⟩ := of_zero_div hparts hof hnormal.pos
    refine ⟨p, 0, hnearest, .inl ⟨hzero, rfl⟩, ?_⟩
    rw [floatTruncated_zero hquotient, Nat.floor_zero, signedWhole_zero]
  have hone : (1 : ℚ) ≤ ⌊p + 1 / 2⌋₊ := by exact_mod_cast hpos
  have hfloor : (⌊p + 1 / 2⌋₊ : ℚ) ≤ 2 ^ 65 := by
    have := Nat.floor_le (show 0 ≤ p + 1 / 2 by linarith [hp.isNormal.pos])
    linarith [hnearest.le_mul]
  have hrange : InRange (⌊p + 1 / 2⌋₊ / magnitude m e) := by
    refine inRange_of_between ?_ ?_
    · rw [le_div_iff₀ hupos]
      linarith
    · rw [div_le_iff₀ hupos]
      linarith
  obtain ⟨y, ⟨m', e', hof', -, rfl⟩, hy⟩ := div_nearest hfloat ⟨m, e, hof, hnormal, rfl⟩ hrange
  refine ⟨p, _, hnearest, .inr ⟨hpos, hy⟩, ?_⟩
  rw [floatTruncated_eq hof', Bool.xor_false]

end

/-! ### How far it is off -/

section

variable {a d q : Nat} {u p y : ℚ}

theorem TightUnit.close (h : TightUnit d u) : CloseUnit d u where
  low := by linarith [h.low, h.high]
  high := by linarith [h.high]

theorem CloseUnit.pos (h : CloseUnit d u) : 0 < u := by
  by_contra hneg
  have := mul_nonpos_of_nonneg_of_nonpos (show (0 : ℚ) ≤ d from Nat.cast_nonneg d) (not_lt.1 hneg)
  linarith [h.low]

/-- Below 2⁵² the product is off by less than it takes to pass the next whole number, on the scale
of the number. -/
theorem product_between (hunit : CloseUnit d u) (ha : a ≤ 2 ^ 52) (hp : NearestFloat (a * u) p) :
    a - 1 < d * p ∧ d * p < a + 1 := by
  have ha' : (a : ℚ) ≤ 2 ^ 52 := by exact_mod_cast ha
  have hd : (0 : ℚ) ≤ d := Nat.cast_nonneg d
  have hpos : (0 : ℚ) ≤ a := Nat.cast_nonneg a
  obtain ⟨hlow, hhigh⟩ := hunit
  constructor
  · have hproduct : d * (a * u * (1 - 1 / 2 ^ 53)) ≤ d * p := mul_le_mul_of_nonneg_left hp.mul_le hd
    have hscaled : (a : ℚ) * 1 ≤ a * ((1 + 3 / 2 ^ 55) * (d * u)) :=
      mul_le_mul_of_nonneg_left hlow hpos
    linarith
  · have hproduct : d * p ≤ d * (a * u * (1 + 1 / 2 ^ 53)) := mul_le_mul_of_nonneg_left hp.le_mul hd
    have hscaled : (a : ℚ) * (d * u) ≤ a * (1 + 3 / 2 ^ 55) := mul_le_mul_of_nonneg_left hhigh hpos
    linarith

theorem floor_half_mem (hp : 0 ≤ p) : (⌊p + 1 / 2⌋₊ : ℚ) - 1 / 2 ≤ p ∧ p < ⌊p + 1 / 2⌋₊ + 1 / 2 := by
  have hle := Nat.floor_le (show 0 ≤ p + 1 / 2 by linarith)
  have hlt := Nat.lt_floor_add_one (p + 1 / 2)
  constructor <;> linarith

/-- The whole number taken for the product belongs to a nearest multiple. -/
theorem floor_product_near (hunit : CloseUnit d u) (heven : Even d) (ha : a ≤ 2 ^ 52)
    (hp : NearestFloat (a * u) p) : 2 * |(a : Int) - ⌊p + 1 / 2⌋₊ * d| ≤ d := by
  obtain ⟨half, rfl⟩ := heven
  obtain ⟨hlow, hhigh⟩ := product_between hunit ha hp
  obtain ⟨hbelow, habove⟩ := floor_half_mem hp.isNormal.pos.le
  generalize ⌊p + 1 / 2⌋₊ = q at *
  have hd : (0 : ℚ) ≤ (half + half : Nat) := Nat.cast_nonneg _
  have hdown := mul_le_mul_of_nonneg_left hbelow hd
  have hup := mul_le_mul_of_nonneg_left habove.le hd
  push_cast at hlow hhigh hdown hup
  have hfirst : (2 * q * half - half : ℚ) < a + 1 := by linarith
  have hsecond : (a - 1 : ℚ) < 2 * q * half + half := by linarith
  have hfirst' : (2 * q * half - half : Int) < a + 1 := by exact_mod_cast hfirst
  have hsecond' : (a - 1 : Int) < 2 * q * half + half := by exact_mod_cast hsecond
  push_cast
  rw [abs_sub_comm, ← abs_two, ← abs_mul, abs_le]
  constructor <;> linarith

/-- With a tight reciprocal a half goes away from zero. -/
theorem floor_product_away (hunit : TightUnit d u) (hd : 2 ≤ d) (ha : a ≤ 2 ^ 52)
    (hp : NearestFloat (a * u) p) (hhalf : (2 * q - 1) * d ≤ 2 * a) : q ≤ ⌊p + 1 / 2⌋₊ := by
  rcases Nat.eq_zero_or_pos q with rfl | hpos
  · exact Nat.zero_le _
  -- the half itself is a float
  have hodd : (2 * q - 1 : Nat) < 2 ^ 53 := by
    have := Nat.mul_le_mul_left (2 * q - 1) hd
    omega
  have hnormal : IsNormal ((2 * q - 1 : Nat) * 2 ^ (-1 : Int)) :=
    isNormal_of_lt (by omega) hodd (by norm_num) (by norm_num)
  have hvalue : ((2 * q - 1 : Nat) * 2 ^ (-1 : Int) : ℚ) = q - 1 / 2 := by
    rw [Nat.cast_sub (by omega)]
    push_cast
    norm_num
    ring
  rw [hvalue] at hnormal
  have hhalf' : ((q - 1 / 2) * d : ℚ) ≤ a := by
    have : (((2 * q - 1 : Nat) * d : Nat) : ℚ) ≤ (2 * a : Nat) := by exact_mod_cast hhalf
    rw [Nat.cast_mul, Nat.cast_sub (by omega)] at this
    push_cast at this
    linarith
  have hupos : 0 < u := hunit.close.pos
  have hscaled : (q - 1 / 2) * d * u ≤ a * u := mul_le_mul_of_nonneg_right hhalf' hupos.le
  have hle : (q - 1 / 2 : ℚ) ≤ p := by
    by_cases hbelow : (q - 1 / 2 : ℚ) ≤ a * u
    · exact hp.le_of_le hnormal hbelow
    refine (hp.eq_of_near hnormal ?_).ge
    rw [abs_of_neg (by linarith)]
    have hqpos := hnormal.pos
    have hless : (q - 1 / 2 : ℚ) * (d * u) < (q - 1 / 2) * 1 := by linarith
    have hone : d * u < 1 := lt_of_mul_lt_mul_left hless hqpos.le
    have hdiff : (1 - d * u) * 2 ^ 54 < 1 := by linarith [hunit.low]
    have := mul_lt_mul_of_pos_left hdiff hqpos
    linarith
  exact Nat.le_floor (by linarith)

theorem exact_quotient_near (hu : 0 < u) : |q / u - q * d| * (d * u) = q * d * |1 - d * u| := by
  have hscale : |q / u - q * d| * u = q * |1 - d * u| := by
    rw [← abs_of_pos hu, ← abs_mul, abs_of_pos hu, sub_mul, div_mul_cancel₀ _ hu.ne',
      ← Nat.abs_cast q, ← abs_mul, Nat.abs_cast]
    ring_nf
  calc |q / u - q * d| * (d * u) = |q / u - q * d| * u * d := by ring
    _ = q * d * |1 - d * u| := by
      rw [hscale]
      ring

theorem quotient_exact (hunit : TightUnit d u) (hpos : 0 < q * d) (hsmall : q * d < 2 ^ 53)
    (hy : NearestFloat (q / u) y) : y = (q * d : Nat) := by
  refine hy.eq_of_near (isNormal_natCast hpos hsmall) ?_
  have hpos' : (0 : ℚ) < q * d := by exact_mod_cast hpos
  have hd : 0 < d := Nat.pos_of_mul_pos_left hpos
  have hproduct : 0 < d * u := mul_pos (by exact_mod_cast hd) hunit.close.pos
  have hoff : |1 - d * u| * 2 ^ 54 < d * u := by
    obtain ⟨hlow, hhigh⟩ := hunit
    rcases abs_cases (1 - d * u) with ⟨heq, -⟩ | ⟨heq, -⟩ <;> rw [heq] <;> linarith
  have hscaled := mul_lt_mul_of_pos_left hoff hpos'
  have hexact := exact_quotient_near (q := q) (d := d) hunit.close.pos
  push_cast
  refine lt_of_mul_lt_mul_right ?_ hproduct.le
  linarith

theorem exact_quotient_close (hunit : CloseUnit d u) :
    |q / u - q * d| ≤ q * d * (3 / 2 ^ 55) := by
  have hpos := hunit.pos
  have hproduct : 0 < d * u := by linarith [hunit.low]
  have hoff : |1 - d * u| ≤ 3 / 2 ^ 55 * (d * u) := by
    obtain ⟨hlow, hhigh⟩ := hunit
    rcases abs_cases (1 - d * u) with ⟨heq, -⟩ | ⟨heq, hneg⟩ <;> rw [heq] <;> linarith
  have hscaled := mul_le_mul_of_nonneg_left hoff (show (0 : ℚ) ≤ q * d by positivity)
  have hexact := exact_quotient_near (q := q) (d := d) hpos
  refine le_of_mul_le_mul_right ?_ hproduct
  linarith

theorem floor_quotient (hunit : CloseUnit d u) (hsmall : q * d ≤ 51 * 10 ^ 14)
    (hy : NearestFloat (q / u) y) : ⌊y⌋₊ = q * d ∨ ⌊y⌋₊ + 1 = q * d := by
  have hsmall' : (q * d : ℚ) ≤ 51 * 10 ^ 14 := by exact_mod_cast hsmall
  have hnonneg : (0 : ℚ) ≤ q * d := by positivity
  obtain ⟨hlow, hhigh⟩ := abs_le.1 (exact_quotient_close (q := q) hunit)
  have hbelow : (q * d - 1 : ℚ) < y := by linarith [hy.mul_le]
  have habove : y < q * d + 1 := by linarith [hy.le_mul]
  have hypos := hy.isNormal.pos
  have hfloor : ⌊y⌋₊ < q * d + 1 := by
    rw [Nat.floor_lt hypos.le]
    push_cast
    exact habove
  have hfloor' : q * d < ⌊y⌋₊ + 2 := by
    have := Nat.lt_floor_add_one y
    have : (q * d : ℚ) < ⌊y⌋₊ + 2 := by linarith
    exact_mod_cast this
  omega

/-- However large the number is, the result is off by half of the power of ten and a few parts in
2⁵³. -/
theorem quotient_near {f : ℚ} (hf : NearestFloat a f) (hunit : CloseUnit d u)
    (hp : NearestFloat (f * u) p) (hy : |⌊p + 1 / 2⌋₊ / u - y| * 2 ^ 53 ≤ ⌊p + 1 / 2⌋₊ / u) :
    |y - a| ≤ d / 2 + (a + d) / 2 ^ 51 := by
  have hupos := hunit.pos
  obtain ⟨hbelow, habove⟩ := floor_half_mem hp.isNormal.pos.le
  generalize (⌊p + 1 / 2⌋₊ : ℚ) = q at *
  have hinv : 1 / u ≤ (1 + 3 / 2 ^ 55) * d := by
    rw [div_le_iff₀ hupos]
    linarith [hunit.low]
  have hlow : f * (1 - 1 / 2 ^ 53) - 1 / u * (1 / 2) ≤ q / u := by
    rw [le_div_iff₀ hupos, sub_mul, mul_right_comm (1 / u), one_div_mul_cancel hupos.ne', one_mul]
    linarith [hp.mul_le]
  have hhigh : q / u ≤ f * (1 + 1 / 2 ^ 53) + 1 / u * (1 / 2) := by
    rw [div_le_iff₀ hupos, add_mul, mul_right_comm (1 / u), one_div_mul_cancel hupos.ne', one_mul]
    linarith [hp.le_mul]
  have hroundoff := abs_le.1 ((le_div_iff₀ (by positivity)).2 hy)
  have hfrom := hf.mul_le
  have hto := hf.le_mul
  have ha : (0 : ℚ) ≤ a := Nat.cast_nonneg a
  have hd : (0 : ℚ) ≤ d := Nat.cast_nonneg d
  rw [abs_le]
  constructor <;> linarith

end

/-! ### Rounded numbers -/

theorem NearestMultiple.signed {d a b : Nat} (h : NearestMultiple d a b) (negative : Bool) :
    NearestMultiple d (signedWhole negative a) (signedWhole negative b) where
  dvd := dvd_signedWhole negative (Int.natCast_dvd_natCast.1 h.dvd)
  near := by
    rw [abs_signedWhole_sub]
    exact h.near
  away htie := by
    rw [abs_signedWhole_sub] at htie
    rw [abs_signedWhole, abs_signedWhole]
    exact_mod_cast h.away htie

/-- With a tight reciprocal the product gives the nearest multiple. -/
theorem floor_product_nearest {a d : Nat} {u p : ℚ} (hunit : TightUnit d u) (heven : Even d)
    (hd : 2 ≤ d) (ha : a ≤ 2 ^ 52) (hp : NearestFloat (a * u) p) :
    NearestMultiple d a (⌊p + 1 / 2⌋₊ * d : Nat) := by
  have hnear := floor_product_near hunit.close heven ha hp
  push_cast
  refine ⟨Dvd.intro_left _ rfl, hnear, fun htie => ?_⟩
  have hpos : (0 : Int) ≤ ⌊p + 1 / 2⌋₊ * d := by positivity
  rw [abs_of_nonneg (by omega), abs_of_nonneg hpos]
  rcases abs_cases ((a : Int) - ⌊p + 1 / 2⌋₊ * d) with ⟨heq, -⟩ | ⟨heq, hless⟩
  · -- the next multiple would have been taken
    have hhalf : (2 * (⌊p + 1 / 2⌋₊ + 1) - 1) * d ≤ 2 * a := by
      have hnext : (2 * (⌊p + 1 / 2⌋₊ + 1) - 1) * d = 2 * (⌊p + 1 / 2⌋₊ * d) + d := by
        rw [show 2 * (⌊p + 1 / 2⌋₊ + 1) - 1 = 2 * ⌊p + 1 / 2⌋₊ + 1 by omega]
        ring
      rw [hnext]
      omega
    have := floor_product_away hunit hd ha hp hhalf
    omega
  · omega

/-- The whole number that a number is rounded to, before it has to be a word. -/
def roundedWhole? (n : Int) (k : Nat) : Option Int :=
  floatTruncated? (floatRounded .halfAway (floatOfInt n * tenth k) / tenth k)

theorem roundedWhole_zero {k : Nat} (hpos : 0 < k) (hk : k ≤ 308) : roundedWhole? 0 k = some 0 := by
  obtain ⟨m, e, hof, hm⟩ := exists_of_tenth hpos hk
  have hzero : FloatParts.of (floatOfInt 0) = .finite false 0 (-1074) := by decide +kernel
  obtain ⟨s, hproduct⟩ := of_zero_mul hzero hof hm
  obtain ⟨t, hquotient⟩ := of_zero_div (floatRounded_zero hproduct (by norm_num)) hof hm
  exact floatTruncated_zero hquotient

section

variable {n : Int} (hn : n ≠ 0) (hsize : n.natAbs ≤ 2 ^ 63)
include hn hsize

theorem exists_float :
    ∃ f, FloatIs (floatOfInt n) (decide (n < 0)) f ∧ NearestFloat n.natAbs f ∧
      1 ≤ f ∧ f ≤ 2 ^ 64 := by
  obtain ⟨f, hf, hnearest⟩ := floatOfInt_nearest hn (by omega)
  have hone : (1 : ℚ) ≤ n.natAbs := by exact_mod_cast Int.natAbs_pos.2 hn
  have hmost : (n.natAbs : ℚ) ≤ 2 ^ 63 := by exact_mod_cast hsize
  have hnormal : IsNormal 1 := by exact_mod_cast isNormal_natCast one_pos (by norm_num)
  exact ⟨f, hf, hnearest, hnearest.le_of_le hnormal hone, by linarith [hnearest.le_mul]⟩

theorem roundedWhole_steps {k : Nat} (hpos : 0 < k) (hk : k < 20) :
    ∃ f u p y, NearestFloat n.natAbs f ∧ CloseUnit (10 ^ k) u ∧
      (k < 16 → k ∉ [5, 9, 11, 15] → TightUnit (10 ^ k) u) ∧ NearestFloat (f * u) p ∧
      (⌊p + 1 / 2⌋₊ = 0 ∧ y = 0 ∨ 0 < ⌊p + 1 / 2⌋₊ ∧ NearestFloat (⌊p + 1 / 2⌋₊ / u) y) ∧
      roundedWhole? n k = some (signedWhole (decide (n < 0)) ⌊y⌋₊) := by
  obtain ⟨f, hf, hnearest, hlow, hhigh⟩ := exists_float hn hsize
  obtain ⟨u, hu, hclose, htight⟩ := tenth_close hpos hk
  have hmost : ((10 ^ k : Nat) : ℚ) ≤ 10 ^ 19 := by
    exact_mod_cast Nat.pow_le_pow_right (by norm_num) (show k ≤ 19 by omega)
  have hten : (10 : ℚ) ≤ (10 ^ k : Nat) := by
    exact_mod_cast Nat.le_self_pow hpos.ne' 10
  have hupos := hclose.pos
  have hu₁ : 1 / 2 ^ 100 ≤ u := by nlinarith [hclose.low]
  have hu₂ : u ≤ 1 := by nlinarith [hclose.high]
  obtain ⟨p, y, hp, hy, htruncated⟩ := rescaled hf hu hlow hhigh hu₁ hu₂
  exact ⟨f, u, p, y, hnearest, hclose, htight, hp, hy, htruncated⟩

/-- From the twentieth power on everything is rounded to zero. -/
theorem roundedWhole_high {k : Nat} (hk : 20 ≤ k) (hk' : k ≤ 308) : roundedWhole? n k = some 0 := by
  obtain ⟨f, hf, hnearest, hlow, hhigh⟩ := exists_float hn hsize
  by_cases hlast : k ≤ 307
  · obtain ⟨u, ⟨m, e, hof, hnormal, rfl⟩, hleast, hmost⟩ := tenth_small hk hlast
    refine rescaled_zero hf hof hnormal.pos ?_ ?_
    · exact hleast.trans (le_mul_of_one_le_left (magnitude_nonneg m e) hlow)
    · nlinarith
  obtain rfl : k = 308 := by omega
  by_cases hsmall : n.natAbs < 5
  · have hchecked : ∀ a < 5, 0 < a → ∀ negative,
        roundedWhole? (signedWhole negative a) 308 = some 0 := by decide +kernel
    have := hchecked n.natAbs hsmall (Int.natAbs_pos.2 hn) (decide (n < 0))
    rwa [signedWhole_natAbs] at this
  have hfive : (5 : ℚ) ≤ f := by
    have hnormal : IsNormal 5 := by
      exact_mod_cast isNormal_natCast (show 0 < 5 by norm_num) (by norm_num)
    refine hnearest.le_of_le hnormal ?_
    exact_mod_cast not_lt.1 hsmall
  refine rescaled_zero hf of_tenth_last (by norm_num) ?_ ?_
  · have hsplit : (2 : ℚ) ^ (-1021 : Int) = 2 ^ 53 * 2 ^ (-1074 : Int) := by
      rw [← zpow_natCast, ← zpow_add₀ (by norm_num)]
      norm_num
    rw [magnitude, hsplit, ← mul_assoc]
    refine mul_le_mul_of_nonneg_right ?_ (by positivity)
    norm_num
    linarith
  have hpower : (2 : ℚ) ^ (-1074 : Int) ≤ 2 ^ (-200 : Int) :=
    zpow_le_zpow_right₀ (by norm_num) (by norm_num)
  have hmagnitude : magnitude 2024022533073105 (-1074) ≤ 1 / 2 ^ 100 := by
    refine (mul_le_mul_of_nonneg_left hpower (by positivity)).trans ?_
    norm_num
  nlinarith [magnitude_nonneg 2024022533073105 (-1074)]

end

/-- How far a rounded number can be off from a number. -/
def roundingError (n : Int) (d : Nat) : ℚ := d / 2 + (n.natAbs + d) / 2 ^ 51

theorem ten_pow_even {k : Nat} (hpos : 0 < k) : Even (10 ^ k) ∧ 2 ≤ 10 ^ k :=
  ⟨(show Even 10 by decide).pow_of_ne_zero hpos.ne',
    (show 2 ≤ 10 by norm_num).trans (Nat.le_self_pow hpos.ne' 10)⟩

theorem two_mul_abs_lt {n : Int} {k : Nat} (hk : 16 ≤ k) (hsize : n.natAbs ≤ 2 ^ 52) :
    2 * |n| < ((10 ^ k : Nat) : Int) := by
  have hpower : 10 ^ 16 ≤ 10 ^ k := Nat.pow_le_pow_right (by norm_num) hk
  rw [Int.abs_eq_natAbs]
  omega

theorem nearest_multiple_small {a q k : Nat} (hk : k ≤ 15) (ha : a ≤ 2 ^ 52)
    (h : 2 * |(a : Int) - q * (10 ^ k : Nat)| ≤ (10 ^ k : Nat)) : q * 10 ^ k ≤ 51 * 10 ^ 14 := by
  have hpower : 10 ^ k ≤ 10 ^ 15 := Nat.pow_le_pow_right (by norm_num) hk
  have hbelow := neg_abs_le ((a : Int) - q * (10 ^ k : Nat))
  have hle : (2 * (q * (10 ^ k : Nat)) : Int) ≤ 2 * a + (10 ^ k : Nat) := by linarith
  have hle' : 2 * (q * 10 ^ k) ≤ 2 * a + 10 ^ k := by exact_mod_cast hle
  omega

section

variable {n : Int} {k : Nat} (hpos : 0 < k)
include hpos

/-- There is always a result, and it is not farther off than that. -/
theorem roundedWhole_near (hk : k < 20) (hsize : n.natAbs ≤ 2 ^ 63) :
    ∃ t : Int, roundedWhole? n k = some t ∧ |(t - n : ℚ)| ≤ roundingError n (10 ^ k) + 1 ∧
      |(t : ℚ)| ≤ n.natAbs + roundingError n (10 ^ k) := by
  rcases eq_or_ne n 0 with rfl | hn
  · have hnonneg : 0 ≤ roundingError 0 (10 ^ k) := by
      unfold roundingError
      positivity
    refine ⟨0, roundedWhole_zero hpos (by omega), ?_, ?_⟩ <;> simp <;> linarith
  obtain ⟨f, u, p, y, hf, hclose, -, hp, hy, ht⟩ := roundedWhole_steps hn hsize hpos hk
  have hroundoff : |⌊p + 1 / 2⌋₊ / u - y| * 2 ^ 53 ≤ ⌊p + 1 / 2⌋₊ / u := by
    rcases hy with ⟨hzero, rfl⟩ | ⟨-, hy⟩
    · rw [hzero]
      simp
    · exact hy.close
  have hnonneg : 0 ≤ y := by
    rcases hy with ⟨-, rfl⟩ | ⟨-, hy⟩
    · exact le_rfl
    · exact hy.isNormal.pos.le
  have hfloor := Nat.floor_le hnonneg
  have hfloor' := Nat.lt_floor_add_one y
  have hnear := quotient_near hf hclose hp hroundoff
  rw [← roundingError] at hnear
  obtain ⟨hbelow, habove⟩ := abs_le.1 hnear
  refine ⟨_, ht, ?_, ?_⟩
  · have hdistance : |(signedWhole (decide (n < 0)) ⌊y⌋₊ - n : ℚ)| = |(⌊y⌋₊ - n.natAbs : ℚ)| := by
      have := abs_signedWhole_sub (decide (n < 0)) ⌊y⌋₊ n.natAbs
      rw [signedWhole_natAbs] at this
      exact_mod_cast congrArg (Int.cast (R := ℚ)) this
    rw [hdistance, abs_le]
    constructor <;> linarith
  have hvalue : |(signedWhole (decide (n < 0)) ⌊y⌋₊ : ℚ)| = ⌊y⌋₊ := by
    exact_mod_cast congrArg (Int.cast (R := ℚ)) (abs_signedWhole (decide (n < 0)) ⌊y⌋₊)
  rw [hvalue]
  linarith

theorem roundedWhole_small_steps (hk : k < 20) (hn : n ≠ 0) (hsize : n.natAbs ≤ 2 ^ 52) :
    ∃ u p y, CloseUnit (10 ^ k) u ∧ (k < 16 → k ∉ [5, 9, 11, 15] → TightUnit (10 ^ k) u) ∧
      NearestFloat (n.natAbs * u) p ∧
      (⌊p + 1 / 2⌋₊ = 0 ∧ y = 0 ∨ 0 < ⌊p + 1 / 2⌋₊ ∧ NearestFloat (⌊p + 1 / 2⌋₊ / u) y) ∧
      roundedWhole? n k = some (signedWhole (decide (n < 0)) ⌊y⌋₊) := by
  obtain ⟨f, u, p, y, hf, hclose, htight, hp, hy, ht⟩ :=
    roundedWhole_steps hn (hsize.trans (by norm_num)) hpos hk
  have hexact : f = n.natAbs := by
    have hnpos : 0 < n.natAbs := Int.natAbs_pos.2 hn
    refine hf.eq_of_near (isNormal_natCast hnpos (by omega)) ?_
    rw [sub_self, abs_zero, zero_mul]
    exact_mod_cast hnpos
  exact ⟨u, p, y, hclose, htight, hexact ▸ hp, hy, ht⟩

theorem roundedWhole_middle (hk : 16 ≤ k) (hk' : k < 20) (hsize : n.natAbs ≤ 2 ^ 52) :
    roundedWhole? n k = some 0 := by
  rcases eq_or_ne n 0 with rfl | hn
  · exact roundedWhole_zero hpos (by omega)
  obtain ⟨u, p, y, hclose, -, hp, hy, ht⟩ := roundedWhole_small_steps hpos hk' hn hsize
  have hfloor : ⌊p + 1 / 2⌋₊ = 0 := by
    have hpower : (10 ^ 16 : ℚ) * u ≤ (10 ^ k : Nat) * u := by
      refine mul_le_mul_of_nonneg_right ?_ hclose.pos.le
      exact_mod_cast Nat.pow_le_pow_right (show 0 < 10 by norm_num) hk
    have hproduct : (n.natAbs : ℚ) * u ≤ 2 ^ 52 * u :=
      mul_le_mul_of_nonneg_right (by exact_mod_cast hsize) hclose.pos.le
    rw [Nat.floor_eq_zero]
    linarith [hp.le_mul, hclose.high]
  rcases hy with ⟨-, rfl⟩ | ⟨hless, -⟩
  · rw [ht, Nat.floor_zero, signedWhole_zero]
  · omega

/-- Up to 2⁵² the result is a nearest multiple or one nearer to zero than that. -/
theorem roundedWhole_close (hk : k < 20) (hsize : n.natAbs ≤ 2 ^ 52) :
    ∃ t multiple, roundedWhole? n k = some t ∧ ((10 ^ k : Nat) : Int) ∣ multiple ∧
      2 * |n - multiple| ≤ (10 ^ k : Nat) ∧ (t = multiple ∨ t = multiple - multiple.sign) := by
  by_cases hlow : 16 ≤ k
  · refine ⟨0, 0, roundedWhole_middle hpos hlow hk hsize, dvd_zero _, ?_, .inl rfl⟩
    rw [sub_zero]
    exact (two_mul_abs_lt hlow hsize).le
  rcases eq_or_ne n 0 with rfl | hn
  · exact ⟨0, 0, roundedWhole_zero hpos (by omega), dvd_zero _, by simp, .inl rfl⟩
  obtain ⟨u, p, y, hclose, -, hp, hy, ht⟩ := roundedWhole_small_steps hpos hk hn hsize
  have hnear := floor_product_near hclose (ten_pow_even hpos).1 hsize hp
  have hsmall := nearest_multiple_small (by omega) hsize hnear
  refine ⟨_, signedWhole (decide (n < 0)) (⌊p + 1 / 2⌋₊ * 10 ^ k), ht, ?_, ?_, ?_⟩
  · exact dvd_signedWhole _ (Nat.dvd_mul_left _ _)
  · have := abs_signedWhole_sub (decide (n < 0)) n.natAbs (⌊p + 1 / 2⌋₊ * 10 ^ k)
    rw [signedWhole_natAbs] at this
    rw [this]
    exact_mod_cast hnear
  rcases hy with ⟨hzero, rfl⟩ | ⟨hqpos, hy⟩
  · left
    rw [hzero, Nat.floor_zero, zero_mul]
  rcases floor_quotient hclose hsmall hy with heq | hless
  · exact .inl (congrArg _ heq)
  · right
    rw [← hless, signedWhole_succ_sub_sign]

/-- With a tight reciprocal the result is the nearest multiple. -/
theorem roundedWhole_nearest (hk : k < 20) (hsize : n.natAbs ≤ 2 ^ 52)
    (hmost : k ∉ [5, 9, 11, 15]) :
    ∃ t, roundedWhole? n k = some t ∧ NearestMultiple (10 ^ k) n t := by
  by_cases hlow : 16 ≤ k
  · exact ⟨0, roundedWhole_middle hpos hlow hk hsize,
      nearestMultiple_zero (two_mul_abs_lt hlow hsize)⟩
  rcases eq_or_ne n 0 with rfl | hn
  · exact ⟨0, roundedWhole_zero hpos (by omega), nearestMultiple_zero (by simp)⟩
  obtain ⟨u, p, y, -, htight, hp, hy, ht⟩ := roundedWhole_small_steps hpos hk hn hsize
  have hunit := htight (by omega) hmost
  obtain ⟨heven, hten⟩ := ten_pow_even hpos
  have hnearest := floor_product_nearest hunit heven hten hsize hp
  have hfloor : ⌊y⌋₊ = ⌊p + 1 / 2⌋₊ * 10 ^ k := by
    rcases hy with ⟨hzero, rfl⟩ | ⟨hqpos, hy⟩
    · rw [hzero, Nat.floor_zero, zero_mul]
    have hnear := floor_product_near hunit.close heven hsize hp
    have hsmall := nearest_multiple_small (by omega) hsize hnear
    rw [quotient_exact hunit (Nat.mul_pos hqpos (by omega)) (by omega) hy, Nat.floor_natCast]
  refine ⟨_, ht, ?_⟩
  rw [hfloor]
  have := hnearest.signed (decide (n < 0))
  rwa [signedWhole_natAbs] at this

end

/-! ### The built-in -/

theorem wordOfFloat_of_truncated {x : Float} {t : Int} (h : floatTruncated? x = some t) :
    (∀ r : Int64, r.toInt = t → Value.wordOfFloat x = .ok r) ∧
      (¬ Word64.fits t → ∃ f, Value.wordOfFloat x = .error f ∧ f.kind = .overflow) := by
  unfold Value.wordOfFloat
  rw [h]
  dsimp only
  refine ⟨fun r hr => ?_, fun hfits => ?_⟩
  · rw [Word64.ofInt?_eq_some_iff.2 hr]
  · rw [Word64.ofInt?_eq_none_iff.2 hfits]
    exact ⟨_, rfl, rfl⟩

theorem run_round {n places : Int64} (hplaces : places < 0) {t : Int}
    (h : roundedWhole? n.toInt (min 308 places.toInt.natAbs) = some t) (quiet : Bool)
    (call : Caller) (w : World) :
    (∀ r : Int64, r.toInt = t →
      Builtin.round.run quiet call [.int n, .int places] .empty w = .ok (.int r) w) ∧
    (¬ Word64.fits t → ∃ f,
      Builtin.round.run quiet call [.int n, .int places] .empty w = .fault f w ∧
        f.kind = .overflow) := by
  have hrounded : roundedNumber (.int n) (some places) =
      (Value.wordOfFloat (roundedTo (Value.floatOfWord n) places)).map Value.int := by
    rw [roundedNumber, if_neg (Int64.not_le.2 hplaces)]
    rfl
  have hrun : Builtin.round.run quiet call [.int n, .int places] .empty w =
      Run.ofExcept (roundedNumber (.int n) (some places)) w := rfl
  obtain ⟨hword, hnone⟩ := @wordOfFloat_of_truncated
    (roundedTo (Value.floatOfWord n) places) t (by rw [roundedTo, tenToThe_of_neg hplaces]; exact h)
  rw [hrun, hrounded]
  refine ⟨fun r hr => ?_, fun hfits => ?_⟩
  · rw [hword r hr]
    rfl
  · obtain ⟨f, hf, hkind⟩ := hnone hfits
    rw [hf]
    exact ⟨f, rfl, hkind⟩

theorem fits_iff_abs_lt {t : Int} (h : |(t : ℚ)| < 2 ^ 63) : Word64.fits t = true := by
  have ht : |t| < 2 ^ 63 := by exact_mod_cast h
  have := abs_lt.1 ht
  rw [Word64.fits_iff]
  omega

theorem abs_le_of_not_fits {t : Int} (h : ¬ Word64.fits t) : 2 ^ 63 ≤ |(t : ℚ)| := by
  by_contra hless
  exact h (fits_iff_abs_lt (not_le.1 hless))

theorem natAbs_toInt_le (n : Int64) : n.toInt.natAbs ≤ 2 ^ 63 := by
  have := Word64.fits_iff.1 (Word64.fits_toInt n)
  omega

theorem natAbs_notMem {places : Int64} (hplaces : places < 0) (h : places ∉ [-5, -9, -11, -15]) :
    places.toInt.natAbs ∉ [5, 9, 11, 15] := by
  have hneg : places.toInt < 0 := Int64.lt_iff_toInt_lt.1 hplaces
  have hword (k : Int64) (hk : places.toInt = k.toInt) : places = k := Int64.toInt_inj.1 hk
  simp only [List.mem_cons, List.not_mem_nil, or_false, not_or] at h ⊢
  refine ⟨fun hk => h.1 (hword _ ?_), fun hk => h.2.1 (hword _ ?_), fun hk => h.2.2.1 (hword _ ?_),
    fun hk => h.2.2.2 (hword _ ?_)⟩
  · change places.toInt = -5
    omega
  · change places.toInt = -9
    omega
  · change places.toInt = -11
    omega
  · change places.toInt = -15
    omega

/-- Rounding to a negative number of places. Numbers up to 2⁵² become the nearest multiple of the
power of ten, a half away from zero, unless the power is the fifth, ninth, eleventh or fifteenth;
for these the result is a nearest multiple or one nearer to zero than that. From the twentieth
power on every number becomes zero, which is the nearest multiple. In any case the result is off
by half of the power and a few parts in 2⁵³ at most, and there is none, for an overflow, only if
so much more than the number is no word. -/
theorem round_to_power_of_ten (n places : Int64) (hplaces : places < 0) :
    (n.toInt.natAbs ≤ 2 ^ 52 ∧ places ∉ [-5, -9, -11, -15] ∨ places ≤ -20 →
      ∃ r : Int64, NearestMultiple (10 ^ places.toInt.natAbs) n.toInt r.toInt ∧
        ∀ (quiet : Bool) (call : Caller) (w : World),
          Builtin.round.run quiet call [.int n, .int places] .empty w = .ok (.int r) w) ∧
    (n.toInt.natAbs ≤ 2 ^ 52 →
      ∃ (r : Int64) (multiple : Int), ((10 ^ places.toInt.natAbs : Nat) : Int) ∣ multiple ∧
        2 * |n.toInt - multiple| ≤ (10 ^ places.toInt.natAbs : Nat) ∧
        (r.toInt = multiple ∨ r.toInt = multiple - multiple.sign) ∧
        ∀ (quiet : Bool) (call : Caller) (w : World),
          Builtin.round.run quiet call [.int n, .int places] .empty w = .ok (.int r) w) ∧
    ((∃ r : Int64,
      |(r.toInt - n.toInt : ℚ)| ≤ roundingError n.toInt (10 ^ places.toInt.natAbs) + 1 ∧
      ∀ (quiet : Bool) (call : Caller) (w : World),
        Builtin.round.run quiet call [.int n, .int places] .empty w = .ok (.int r) w) ∨
    (2 ^ 63 ≤ n.toInt.natAbs + roundingError n.toInt (10 ^ places.toInt.natAbs) ∧
      ∀ (quiet : Bool) (call : Caller) (w : World), ∃ f,
        Builtin.round.run quiet call [.int n, .int places] .empty w = .fault f w ∧
          f.kind = .overflow)) := by
  have hneg : places.toInt < 0 := Int64.lt_iff_toInt_lt.1 hplaces
  have hpos : 0 < places.toInt.natAbs := by omega
  have hsize := natAbs_toInt_le n
  by_cases hhigh : 20 ≤ places.toInt.natAbs
  · -- everything becomes zero
    have hpower : 10 ^ 20 ≤ 10 ^ places.toInt.natAbs := Nat.pow_le_pow_right (by norm_num) hhigh
    have hzero : roundedWhole? n.toInt (min 308 places.toInt.natAbs) = some 0 := by
      rcases eq_or_ne n.toInt 0 with hn | hn
      · rw [hn]
        exact roundedWhole_zero (by omega) (by omega)
      · exact roundedWhole_high hn hsize (by omega) (by omega)
    have hrun (quiet : Bool) (call : Caller) (w : World) :
        Builtin.round.run quiet call [.int n, .int places] .empty w = .ok (.int 0) w :=
      (run_round hplaces hzero quiet call w).1 0 rfl
    have hfar : 2 * |n.toInt| < (10 ^ places.toInt.natAbs : Nat) := by
      rw [Int.abs_eq_natAbs]
      omega
    have hnearest := nearestMultiple_zero hfar
    refine ⟨fun _ => ⟨0, hnearest, hrun⟩,
      fun _ => ⟨0, 0, hnearest.dvd, hnearest.near, .inl rfl, hrun⟩, .inl ⟨0, ?_, hrun⟩⟩
    have hfar' : 2 * |(n.toInt : ℚ)| < (10 ^ places.toInt.natAbs : Nat) := by exact_mod_cast hfar
    have hrest : (0 : ℚ) ≤ (n.toInt.natAbs + (10 ^ places.toInt.natAbs : Nat)) / 2 ^ 51 := by
      positivity
    rw [Int64.toInt_zero, Int.cast_zero, zero_sub, abs_neg, roundingError]
    linarith
  have hlow : places.toInt.natAbs < 20 := by omega
  obtain ⟨t, ht, hnear, hlimit⟩ := roundedWhole_near hpos hlow hsize
  have hmin : min 308 places.toInt.natAbs = places.toInt.natAbs := by omega
  have hrun (quiet : Bool) (call : Caller) (w : World) :=
    run_round hplaces (hmin.symm ▸ ht) quiet call w
  have hword (hsmall : n.toInt.natAbs ≤ 2 ^ 52) : ∃ r : Int64, r.toInt = t := by
    refine Word64.exists_word (fits_iff_abs_lt (hlimit.trans_lt ?_))
    have hsmall' : (n.toInt.natAbs : ℚ) ≤ 2 ^ 52 := by exact_mod_cast hsmall
    have hpower : ((10 ^ places.toInt.natAbs : Nat) : ℚ) ≤ 10 ^ 19 := by
      exact_mod_cast Nat.pow_le_pow_right (show 0 < 10 by norm_num) (Nat.le_of_lt_succ hlow)
    rw [roundingError]
    linarith
  refine ⟨?_, fun hsmall => ?_, ?_⟩
  · rintro (⟨hsmall, hmost⟩ | hmany)
    · obtain ⟨t', ht', hnearest⟩ :=
        roundedWhole_nearest hpos hlow hsmall (natAbs_notMem hplaces hmost)
      obtain rfl : t' = t := Option.some.inj (ht'.symm.trans ht)
      obtain ⟨r, rfl⟩ := hword hsmall
      exact ⟨r, hnearest, fun quiet call w => (hrun quiet call w).1 r rfl⟩
    · have : places.toInt ≤ -20 := Int64.le_iff_toInt_le.1 hmany
      omega
  · obtain ⟨t', multiple, ht', hdvd, hle, hresult⟩ := roundedWhole_close hpos hlow hsmall
    obtain rfl : t' = t := Option.some.inj (ht'.symm.trans ht)
    obtain ⟨r, rfl⟩ := hword hsmall
    exact ⟨r, multiple, hdvd, hle, hresult, fun quiet call w => (hrun quiet call w).1 r rfl⟩
  by_cases hfits : Word64.fits t = true
  · obtain ⟨r, rfl⟩ := Word64.exists_word hfits
    exact .inl ⟨r, hnear, fun quiet call w => (hrun quiet call w).1 r rfl⟩
  · exact .inr ⟨(abs_le_of_not_fits hfits).trans hlimit,
      fun quiet call w => (hrun quiet call w).2 hfits⟩

/-- A half just below 2⁵² goes away from zero. -/
theorem round_to_power_of_ten_half :
    (-2 : Int64) < 0 ∧ ∀ (quiet : Bool) (call : Caller) (w : World),
      Builtin.round.run quiet call [.int 4503599627370450, .int (-2)] .empty w =
        .ok (.int 4503599627370500) w := by
  have hplaces : (-2 : Int64) < 0 := by decide
  obtain ⟨r, ⟨hdvd, hnear, haway⟩, hrun⟩ :=
    (round_to_power_of_ten 4503599627370450 (-2) hplaces).1 (.inl (by decide))
  have hn : Int64.toInt 4503599627370450 = 4503599627370450 := rfl
  have hpower : 10 ^ (Int64.toInt (-2)).natAbs = 100 := by decide
  rw [hn, hpower] at hnear haway
  rw [hpower] at hdvd
  have hvalue : r.toInt = 4503599627370500 := by
    obtain ⟨c, hc⟩ := hdvd
    obtain ⟨hlow, hhigh⟩ := abs_le.1 (show |4503599627370450 - r.toInt| ≤ 50 by omega)
    by_contra hother
    have hless : r.toInt = 4503599627370400 := by omega
    rw [hless] at haway
    exact absurd (haway (by decide)) (by decide)
  obtain rfl : r = 4503599627370500 := Int64.toInt_inj.1 hvalue
  exact ⟨hplaces, hrun⟩

/-- A hundred thousand is a multiple of the fifth power of ten, and yet one is lost. -/
theorem round_hundred_thousand :
    NearestMultiple (10 ^ 5) 100000 100000 ∧ ∀ (quiet : Bool) (call : Caller) (w : World),
      Builtin.round.run quiet call [.int 100000, .int (-5)] .empty w = .ok (.int 99999) w := by
  refine ⟨⟨by decide, by decide, by decide⟩, fun quiet call w => ?_⟩
  have hwhole : roundedWhole? (Int64.toInt 100000) (min 308 (Int64.toInt (-5)).natAbs) =
      some 99999 := by decide +kernel
  exact (run_round (by decide) hwhole quiet call w).1 99999 rfl

end Scripting
