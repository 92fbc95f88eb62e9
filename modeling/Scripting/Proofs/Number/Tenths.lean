/-
# Negative powers of ten as floats

The reciprocal of a power of ten is no float. Up to the nineteenth power the float taken for it
has the leading bits of the exact quotient, and it is off by three quarters of one part in 2⁵³ at
most; for most of these powers it is less than half of that. The higher powers are only known to
be small: each product of the repeated squaring is off by one part in 2⁵³ at most, so that the
powers of a hundredth more and of a hundredth less than ten enclose the result.
-/
import Mathlib
import Scripting.Builtin.Number
import Scripting.Proofs.Number.Whole

namespace Scripting

open FloatParts

def tenth (k : Nat) : Float := 1.0 / squaredPower 1.0 10.0 64 k

theorem tenToThe_of_neg {places : Int64} (h : places < 0) :
    tenToThe places = tenth (min 308 places.toInt.natAbs) := by
  have hneg : places.toInt < 0 := Int64.lt_iff_toInt_lt.1 h
  have hclamped : (max (-308) (min 308 places.toInt)).natAbs = min 308 places.toInt.natAbs := by omega
  rw [tenToThe, if_pos (by omega), hclamped, tenth]

/-! ### Up to the nineteenth power -/

/-- How many bits it takes to shift the reciprocal of a number to 53 bits. -/
def tenthShift (k : Nat) : Nat := 53 + (10 ^ k).log2

/-- The 53 leading bits of the reciprocal of a power of ten, rounded. -/
def tenthMantissa (k : Nat) : Nat := roundedQuotient .halfEven false (2 ^ tenthShift k) (10 ^ k)

theorem of_tenth : ∀ k < 20, 0 < k →
    FloatParts.of (tenth k) = .finite false (tenthMantissa k) (-tenthShift k) := by
  decide +kernel

/-- The mantissas have 53 bits and are off by three quarters of one part in 2⁵³ at most. -/
theorem tenthMantissa_close : ∀ k < 20, 0 < k →
    2 ^ 52 ≤ tenthMantissa k ∧ tenthMantissa k < 2 ^ 53 ∧ tenthShift k ≤ 1000 ∧
      2 ^ 55 * 2 ^ tenthShift k ≤ (2 ^ 55 + 3) * (10 ^ k * tenthMantissa k) ∧
      2 ^ 55 * (10 ^ k * tenthMantissa k) ≤ (2 ^ 55 + 3) * 2 ^ tenthShift k := by
  decide +kernel

theorem tenthMantissa_tight : ∀ k < 16, 0 < k → k ∉ [5, 9, 11, 15] →
    2 ^ 54 * 2 ^ tenthShift k < (2 ^ 54 + 1) * (10 ^ k * tenthMantissa k) ∧
      2 ^ 54 * (10 ^ k * tenthMantissa k) ≤ (2 ^ 54 + 1) * 2 ^ tenthShift k := by
  decide +kernel

theorem tenth_floatIs {k : Nat} (hpos : 0 < k) (hk : k < 20) :
    FloatIs (tenth k) false (tenthMantissa k / 2 ^ tenthShift k) := by
  obtain ⟨hlow, hhigh, hshift, -⟩ := tenthMantissa_close k hk hpos
  refine ⟨_, _, of_tenth k hk hpos, ⟨hlow, hhigh, by omega, by omega⟩, ?_⟩
  rw [magnitude, zpow_neg, zpow_natCast, div_eq_mul_inv]

/-- A number that is off from the reciprocal by three quarters of one part in 2⁵³ at most. -/
structure CloseUnit (d : Nat) (u : ℚ) : Prop where
  low : 1 ≤ (1 + 3 / 2 ^ 55) * (d * u)
  high : d * u ≤ 1 + 3 / 2 ^ 55

/-- A number that is off from the reciprocal by less than half of one part in 2⁵³, or by just as
much if it is too large. -/
structure TightUnit (d : Nat) (u : ℚ) : Prop where
  low : 1 < (1 + 1 / 2 ^ 54) * (d * u)
  high : d * u ≤ 1 + 1 / 2 ^ 54

theorem tenth_close {k : Nat} (hpos : 0 < k) (hk : k < 20) :
    ∃ u, FloatIs (tenth k) false u ∧ CloseUnit (10 ^ k) u ∧
      (k < 16 → k ∉ [5, 9, 11, 15] → TightUnit (10 ^ k) u) := by
  have hscale : (0 : ℚ) < 2 ^ tenthShift k := by positivity
  have hproduct : ((10 ^ k : Nat) * (tenthMantissa k / 2 ^ tenthShift k) : ℚ) =
      10 ^ k * tenthMantissa k / 2 ^ tenthShift k := by
    push_cast
    ring
  refine ⟨_, tenth_floatIs hpos hk, ?_, fun hk' hmost => ?_⟩
  · obtain ⟨-, -, -, hlow, hhigh⟩ := tenthMantissa_close k hk hpos
    have hlow' : (2 ^ 55 * 2 ^ tenthShift k : ℚ) ≤ (2 ^ 55 + 3) * (10 ^ k * tenthMantissa k) := by
      exact_mod_cast hlow
    have hhigh' : (2 ^ 55 * (10 ^ k * tenthMantissa k) : ℚ) ≤ (2 ^ 55 + 3) * 2 ^ tenthShift k := by
      exact_mod_cast hhigh
    constructor
    · rw [hproduct, ← mul_div_assoc, le_div_iff₀ hscale]
      linarith
    · rw [hproduct, div_le_iff₀ hscale]
      linarith
  obtain ⟨hlow, hhigh⟩ := tenthMantissa_tight k hk' hpos hmost
  have hlow' : (2 ^ 54 * 2 ^ tenthShift k : ℚ) < (2 ^ 54 + 1) * (10 ^ k * tenthMantissa k) := by
    exact_mod_cast hlow
  have hhigh' : (2 ^ 54 * (10 ^ k * tenthMantissa k) : ℚ) ≤ (2 ^ 54 + 1) * 2 ^ tenthShift k := by
    exact_mod_cast hhigh
  constructor
  · rw [hproduct, ← mul_div_assoc, lt_div_iff₀ hscale]
    linarith
  · rw [hproduct, div_le_iff₀ hscale]
    linarith

/-! ### Higher powers -/

/-- A float between the powers of a hundredth less and of a hundredth more than ten. -/
def NearPower (x : Float) (a : Nat) : Prop :=
  ∃ f, FloatIs x false f ∧ (999 / 100) ^ a ≤ f ∧ f ≤ (1001 / 100) ^ a

/-- A float that stays between them if it is off by another part in 2⁵³. -/
def NearBase (x : Float) (b : Nat) : Prop :=
  ∃ g, FloatIs x false g ∧ (999 / 100) ^ b ≤ g * (1 - 1 / 2 ^ 53) ∧
    g * (1 + 1 / 2 ^ 53) ≤ (1001 / 100) ^ b

theorem power_le_of_nat {num den k l : Nat} (hden : 0 < den)
    (h : num ^ k * 2 ^ 53 + 2 ^ l * den ^ k ≤ 2 ^ l * den ^ k * 2 ^ 53) :
    (num / den : ℚ) ^ k ≤ 2 ^ (l : Int) * (1 - 1 / 2 ^ 53) := by
  have h' : (num ^ k * 2 ^ 53 + 2 ^ l * den ^ k : ℚ) ≤ 2 ^ l * den ^ k * 2 ^ 53 := by
    exact_mod_cast h
  rw [div_pow, div_le_iff₀ (by positivity), zpow_natCast]
  linarith

theorem power_le_limit {a : Nat} (ha : a ≤ 307) :
    (1001 / 100 : ℚ) ^ a ≤ 2 ^ (1021 : Int) * (1 - 1 / 2 ^ 53) := by
  have hlimit := @power_le_of_nat 1001 100 307 1021 (by norm_num) (by decide +kernel)
  simp only [Nat.cast_ofNat] at hlimit
  exact (pow_le_pow_right₀ (by norm_num) ha).trans hlimit

theorem inRange_of_power {a : Nat} (ha : a ≤ 307) {p : ℚ} (hlow : 1 ≤ p)
    (hhigh : p ≤ (1001 / 100) ^ a) : InRange p := by
  have hlimit := power_le_limit ha
  have hone : (2 : ℚ) ^ (-1021 : Int) ≤ 1 := zpow_le_one_of_nonpos₀ (by norm_num) (by norm_num)
  refine ⟨hone.trans hlow, hhigh.trans (hlimit.trans ?_)⟩
  exact mul_le_of_le_one_right (by positivity) (by norm_num)

theorem NearPower.mul {x y : Float} {a b : Nat} (hx : NearPower x a) (hy : NearBase y b)
    (hroom : a + b ≤ 307) : NearPower (x * y) (a + b) := by
  obtain ⟨f, hf, hlow, hhigh⟩ := hx
  obtain ⟨g, hg, hlow', hhigh'⟩ := hy
  have hone : (1 : ℚ) ≤ (999 / 100) ^ a := one_le_pow₀ (by norm_num)
  have hone' : (1 : ℚ) ≤ (999 / 100) ^ b := one_le_pow₀ (by norm_num)
  have hgpos : 0 < g := hg.isNormal.pos
  have hup : f * (g * (1 + 1 / 2 ^ 53)) ≤ (1001 / 100) ^ (a + b) := by
    rw [pow_add]
    exact mul_le_mul hhigh hhigh' (by positivity) (by positivity)
  have hdown : (999 / 100) ^ (a + b) ≤ f * (g * (1 - 1 / 2 ^ 53)) := by
    rw [pow_add]
    exact mul_le_mul hlow hlow' (by positivity) (by linarith)
  have hexact : 1 ≤ f * g ∧ f * g ≤ (1001 / 100) ^ (a + b) := by
    constructor <;> nlinarith
  obtain ⟨h, hh, hnearest⟩ := hf.mul hg (inRange_of_power hroom hexact.1 hexact.2)
  exact ⟨h, hh, by linarith [hnearest.mul_le], by linarith [hnearest.le_mul]⟩

theorem NearBase.sq {x : Float} {b : Nat} (hx : NearBase x b) (hroom : 2 * b ≤ 307) :
    NearBase (x * x) (2 * b) := by
  obtain ⟨g, hg, hlow, hhigh⟩ := hx
  have hone : (1 : ℚ) ≤ (999 / 100) ^ b := one_le_pow₀ (by norm_num)
  have hup : (g * (1 + 1 / 2 ^ 53)) * (g * (1 + 1 / 2 ^ 53)) ≤ (1001 / 100) ^ (2 * b) := by
    rw [two_mul, pow_add]
    exact mul_self_le_mul_self (by nlinarith) hhigh
  have hdown : (999 / 100) ^ (2 * b) ≤ (g * (1 - 1 / 2 ^ 53)) * (g * (1 - 1 / 2 ^ 53)) := by
    rw [two_mul, pow_add]
    exact mul_self_le_mul_self (by positivity) hlow
  have hexact : 1 ≤ g * g ∧ g * g ≤ (1001 / 100) ^ (2 * b) := by
    constructor <;> nlinarith
  obtain ⟨h, hh, hnearest⟩ := hg.mul hg (inRange_of_power hroom hexact.1 hexact.2)
  exact ⟨h, hh, by linarith [hnearest.mul_le], by linarith [hnearest.le_mul]⟩

theorem squaredPower_between {steps : Nat} : ∀ {product base : Float} {a b exponent : Nat},
    NearPower product a → NearBase base b → exponent < 2 ^ steps → a + b * exponent ≤ 307 →
    NearPower (squaredPower product base steps exponent) (a + b * exponent) := by
  induction steps with
  | zero =>
    intro product base a b exponent hproduct _ hexponent _
    obtain rfl : exponent = 0 := by omega
    exact hproduct
  | succ steps ih =>
    intro product base a b exponent hproduct hbase hexponent hroom
    have hsplit : b * exponent = b * (exponent % 2) + 2 * b * (exponent / 2) := by
      conv_lhs => rw [← Nat.mod_add_div exponent 2]
      ring
    have hnext : NearPower (if exponent % 2 = 1 then product * base else product)
        (a + b * (exponent % 2)) := by
      split
      next hodd =>
        rw [hodd, mul_one] at hsplit ⊢
        exact hproduct.mul hbase (by omega)
      next heven =>
        rw [Nat.mod_two_ne_one.1 heven, mul_zero, add_zero]
        exact hproduct
    unfold squaredPower
    dsimp only
    split
    next hlast =>
      rw [hlast, mul_zero, add_zero] at hsplit
      rw [hsplit]
      exact hnext
    next hmore =>
      have hroom' : 2 * b ≤ 2 * b * (exponent / 2) := Nat.le_mul_of_pos_right _ (by omega)
      have hrun := ih hnext (hbase.sq (by omega)) (show exponent / 2 < 2 ^ steps by omega) (by omega)
      rwa [add_assoc, ← hsplit] at hrun

theorem one_floatIs : FloatIs 1.0 false 1 := by
  refine ⟨2 ^ 52, -52, by decide +kernel, ⟨?_, ?_, ?_, ?_⟩, ?_⟩ <;>
    norm_num [magnitude]

theorem ten_floatIs : FloatIs 10.0 false 10 := by
  refine ⟨10 * 2 ^ 49, -49, by decide +kernel, ⟨?_, ?_, ?_, ?_⟩, ?_⟩ <;>
    norm_num [magnitude]

theorem tenth_small {k : Nat} (hk : 20 ≤ k) (hk' : k ≤ 307) :
    ∃ u, FloatIs (tenth k) false u ∧ 2 ^ (-1021 : Int) ≤ u ∧ u ≤ 1 / 2 ^ 66 := by
  have hone : NearPower 1.0 0 := ⟨1, one_floatIs, by norm_num, by norm_num⟩
  have hten : NearBase 10.0 1 := ⟨10, ten_floatIs, by norm_num, by norm_num⟩
  have hsteps : k < 2 ^ 64 := by omega
  obtain ⟨y, hy, hlow, hhigh⟩ := squaredPower_between hone hten hsteps (by omega)
  rw [zero_add, one_mul] at hlow hhigh
  have hpos : 0 < y := hy.isNormal.pos
  have hleast : (999 / 100 : ℚ) ^ 20 ≤ y := (pow_le_pow_right₀ (by norm_num) hk).trans hlow
  have hlow' : 2 ^ (-1021 : Int) ≤ 1 / y * (1 - 1 / 2 ^ 53) := by
    rw [div_mul_eq_mul_div, one_mul, le_div_iff₀ hpos, zpow_neg, inv_mul_le_iff₀ (by positivity)]
    exact hhigh.trans (power_le_limit hk')
  have hhigh' : 1 / y * (1 + 1 / 2 ^ 53) ≤ 1 / 2 ^ 66 := by
    rw [div_mul_eq_mul_div, one_mul, div_le_iff₀ hpos]
    norm_num at hleast ⊢
    linarith
  have hinv : 0 < 1 / y := by positivity
  have hrange : InRange (1 / y) := by
    have hone : (1 : ℚ) ≤ 2 ^ (1021 : Int) := one_le_zpow₀ (by norm_num) (by norm_num)
    exact ⟨by linarith, le_trans (by linarith) hone⟩
  obtain ⟨u, hu, hnearest⟩ := div_nearest one_floatIs hy hrange
  exact ⟨u, hu, hlow'.trans hnearest.mul_le, hnearest.le_mul.trans hhigh'⟩

theorem of_tenth_last : FloatParts.of (tenth 308) = .finite false 2024022533073105 (-1074) := by
  decide +kernel

theorem exists_of_tenth {k : Nat} (hpos : 0 < k) (hk : k ≤ 308) :
    ∃ m e, FloatParts.of (tenth k) = .finite false m e ∧ 0 < m := by
  by_cases hlow : k < 20
  · obtain ⟨m, e, hof, hnormal, -⟩ := tenth_floatIs hpos hlow
    exact ⟨m, e, hof, hnormal.pos⟩
  by_cases hhigh : k ≤ 307
  · obtain ⟨u, ⟨m, e, hof, hnormal, -⟩, -⟩ := tenth_small (by omega) hhigh
    exact ⟨m, e, hof, hnormal.pos⟩
  · obtain rfl : k = 308 := by omega
    exact ⟨_, _, of_tenth_last, by norm_num⟩

end Scripting
