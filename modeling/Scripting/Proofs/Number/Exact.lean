/-
# The exact number of a float

A float that is not "not a number" is an infinity or an exact rational number, which is read
off its parts. The order of floats is the order of these numbers: the bits fix the form in
which a number is written, so that a higher exponent is always a larger number.
-/
import Mathlib
import Scripting.Value.Order

namespace Scripting

open Float.Model Float.Model.UnpackedFloat

/-- The rational numbers with an infinity at either end. -/
abbrev ExtendedRat : Type := WithBot (WithTop ℚ)

namespace ExtendedRat

/-- A rational number between the infinities. -/
def of (p : ℚ) : ExtendedRat := ((p : WithTop ℚ) : WithBot (WithTop ℚ))

theorem of_strictMono : StrictMono of := WithBot.coe_strictMono.comp WithTop.coe_strictMono

theorem of_inj {p q : ℚ} : of p = of q ↔ p = q := of_strictMono.injective.eq_iff

theorem cmp_of (p q : ℚ) : cmp (of p) (of q) = cmp p q := of_strictMono.cmp_map_eq p q

theorem cmp_of_bot (p : ℚ) : cmp (of p) ⊥ = .gt := (cmp_eq_gt_iff _ _).2 (WithBot.bot_lt_coe _)

theorem cmp_of_top (p : ℚ) : cmp (of p) ⊤ = .lt :=
  (cmp_eq_lt_iff _ _).2 (WithBot.coe_lt_coe.2 (WithTop.coe_lt_top p))

theorem eq_bot_or_top_or_of (x : ExtendedRat) : x = ⊥ ∨ x = ⊤ ∨ ∃ p, x = of p := by
  cases x using WithBot.recBotCoe with
  | bot => exact .inl rfl
  | coe x =>
    cases x using WithTop.recTopCoe with
    | top => exact .inr (.inl rfl)
    | coe p => exact .inr (.inr ⟨p, rfl⟩)

end ExtendedRat

namespace FloatParts

/-! ### Parts -/

/-- The parts of a float in the form that its operations work on. -/
def unpacked : UnpackedFloat → FloatParts
  | .notANumber => .nan
  | .infinity sign => .infinite (sign == .negative)
  | .zero sign => .finite (sign == .negative) 0 (-1074)
  | .finite sign mantissa exponent _ => .finite (sign == .negative) mantissa exponent

theorem of_eq (x : Float) : of x = unpacked x.toModel.unpack := by
  have hbits : x.toBits.toNat = x.toModel.toBits.toBitVec.toNat := rfl
  unfold of Float.Model.unpack UnpackedFloat.unpack
  generalize x.toModel.toBits.toBitVec = bits at *
  have hmantissa : (@unpackMantissa Format.binary64 bits).toNat = bits.toNat % Nat.pow 2 52 := by
    simp [unpackMantissa]
  have hexponent : (@unpackExponent Format.binary64 bits).toNat =
      bits.toNat / Nat.pow 2 52 % Nat.pow 2 11 := by
    simp [unpackExponent, Nat.shiftRight_eq_div_pow]
  have hsign : (@unpackSign Format.binary64 bits).toNat = bits.toNat / Nat.pow 2 63 := by
    simp [unpackSign, Nat.shiftRight_eq_div_pow]
    omega
  have hnegative : (Sign.ofBitVec (@unpackSign Format.binary64 bits) == .negative) =
      (bits.toNat / Nat.pow 2 63 == 1) := by
    rw [← hsign]
    generalize @unpackSign Format.binary64 bits = sign
    revert sign
    decide
  have hone : (1#1 ++ @unpackMantissa Format.binary64 bits).toNat =
      bits.toNat % Nat.pow 2 52 + Nat.pow 2 52 := by
    rw [BitVec.toNat_append, ← Nat.shiftLeft_add_eq_or_of_lt (BitVec.isLt _), hmantissa]
    exact Nat.add_comm _ _
  have hlast : (-1#11).toNat = 2047 := rfl
  have hbias : (Format.binary64.exponentBias : Int) + Format.binary64.mantissaBitsWithoutImplicit =
      1075 := rfl
  simp only [hbits, ← BitVec.toNat_inj, hmantissa, hexponent, hlast, hbias, BitVec.toNat_zero]
  generalize bits.toNat % Nat.pow 2 52 = fraction at *
  generalize bits.toNat / Nat.pow 2 52 % Nat.pow 2 11 = exponent at *
  by_cases hlarge : exponent = 2047
  · by_cases hzero : fraction = 0 <;> simp [hlarge, hzero, unpacked, hnegative]
  by_cases hsmall : exponent = 0
  · by_cases hzero : fraction = 0 <;> simp [hsmall, hzero, unpacked, hnegative]
  · simp [hlarge, hsmall, unpacked, hnegative, hone]

/-- The form in which the bits of a float hold its parts: 53 bits with a leading one, unless the
exponent is the least one. -/
def Canonical : FloatParts → Prop
  | .finite _ mantissa exponent =>
    mantissa < 2 ^ 53 ∧ -1074 ≤ exponent ∧ (2 ^ 52 ≤ mantissa ∨ exponent = -1074)
  | _ => True

theorem of_canonical (x : Float) : (of x).Canonical := by
  have hfraction : x.toBits.toNat % Nat.pow 2 52 < 2 ^ 52 := Nat.mod_lt _ (by decide)
  unfold of
  dsimp only
  split
  · split <;> trivial
  split
  · exact ⟨by omega, by omega, .inr rfl⟩
  · have hpow : Nat.pow 2 52 = 2 ^ 52 := rfl
    exact ⟨by omega, by omega, .inl (by omega)⟩

/-! ### The order of magnitudes -/

def magnitude (mantissa : Nat) (exponent : Int) : ℚ := mantissa * 2 ^ exponent

theorem magnitude_nonneg (mantissa : Nat) (exponent : Int) : 0 ≤ magnitude mantissa exponent := by
  unfold magnitude
  positivity

section

variable {sign sign' : Bool} {m m' : Nat} {e e' : Int}
  (h : (finite sign m e).Canonical) (h' : (finite sign' m' e').Canonical)
include h h'

theorem magnitude_lt_of_exponent_lt (hlt : e < e') : magnitude m e < magnitude m' e' := by
  have hone : 2 ^ 52 ≤ m' := h'.2.2.resolve_right (by have := h.2.1; omega)
  have hpos : (0 : ℚ) < 2 ^ e := by positivity
  calc magnitude m e < 2 ^ 53 * 2 ^ e := by
        have : (m : ℚ) < 2 ^ 53 := by exact_mod_cast h.1
        exact mul_lt_mul_of_pos_right this hpos
    _ = 2 ^ 52 * 2 ^ (e + 1) := by
        rw [zpow_add_one₀ (by norm_num)]
        ring
    _ ≤ m' * 2 ^ e' := by
        have : (2 ^ 52 : ℚ) ≤ m' := by exact_mod_cast hone
        have : (2 : ℚ) ^ (e + 1) ≤ 2 ^ e' := zpow_le_zpow_right₀ (by norm_num) (by omega)
        gcongr

theorem cmp_magnitude :
    cmp (magnitude m e) (magnitude m' e') = (compare e e').then (compare m m') := by
  rcases lt_trichotomy e e' with hlt | rfl | hlt
  · rw [Int.compare_eq_lt.2 hlt]
    exact cmp_eq_lt_iff _ _ |>.2 (magnitude_lt_of_exponent_lt h h' hlt)
  · rw [compare_eq_iff_eq.2 rfl]
    have hpos : (0 : ℚ) < 2 ^ e := by positivity
    rw [magnitude, magnitude, cmp_mul_pos_right hpos, Nat.strictMono_cast.cmp_map_eq]
    exact cmp_eq_compare m m'
  · rw [Int.compare_eq_gt.2 hlt]
    exact cmp_eq_gt_iff _ _ |>.2 (magnitude_lt_of_exponent_lt h' h hlt)

end

/-! ### Exact numbers -/

def signed (negative : Bool) (p : ℚ) : ℚ := if negative then -p else p

/-- The exact number of a float: an infinity or a rational number, or none. -/
def number? : FloatParts → Option ExtendedRat
  | .nan => none
  | .infinite negative => some (if negative then ⊥ else ⊤)
  | .finite negative mantissa exponent => some (.of (signed negative (magnitude mantissa exponent)))

theorem magnitude_pos {mantissa : Nat} (h : 0 < mantissa) (exponent : Int) :
    0 < magnitude mantissa exponent := by
  unfold magnitude
  positivity

theorem cmp_neg (p q : ℚ) : cmp (-p) (-q) = (cmp p q).swap := by
  rw [cmp_swap]
  rcases lt_trichotomy q p with hlt | rfl | hlt
  · rw [(cmp_eq_lt_iff _ _).2 hlt, (cmp_eq_lt_iff _ _).2 (neg_lt_neg hlt)]
  · rw [(cmp_eq_eq_iff _ _).2 rfl, (cmp_eq_eq_iff _ _).2 rfl]
  · rw [(cmp_eq_gt_iff _ _).2 hlt, (cmp_eq_gt_iff _ _).2 (neg_lt_neg hlt)]

/-- The number of a float that is neither an infinity nor "not a number". -/
def finiteNumber : UnpackedFloat → ℚ
  | .finite .positive mantissa exponent _ => magnitude mantissa exponent
  | .finite .negative mantissa exponent _ => -magnitude mantissa exponent
  | _ => 0

theorem number_unpacked {a : UnpackedFloat} (h : a.isFinite) :
    (unpacked a).number? = some (.of (finiteNumber a)) := by
  cases a with
  | notANumber | infinity => cases h
  | zero sign => cases sign <;> simp [unpacked, number?, finiteNumber, signed, magnitude]
  | finite sign m e hm => cases sign <;> rfl

theorem compare_finite {a b : UnpackedFloat} (ha : (unpacked a).Canonical)
    (hb : (unpacked b).Canonical) (hfa : a.isFinite) (hfb : b.isFinite) :
    a.compare b = some (cmp (finiteNumber a) (finiteNumber b)) := by
  cases a with
  | notANumber | infinity => cases hfa
  | zero sign =>
    cases b with
    | notANumber | infinity => cases hfb
    | zero sign' => rfl
    | finite sign' m' e' hm' =>
      have hpos := magnitude_pos hm' e'
      cases sign'
      · exact congrArg some ((cmp_eq_gt_iff _ _).2 (neg_lt_zero.2 hpos)).symm
      · exact congrArg some ((cmp_eq_lt_iff _ _).2 hpos).symm
  | finite sign m e hm =>
    have hpos := magnitude_pos hm e
    cases b with
    | notANumber | infinity => cases hfb
    | zero sign' =>
      cases sign
      · exact congrArg some ((cmp_eq_lt_iff _ _).2 (neg_lt_zero.2 hpos)).symm
      · exact congrArg some ((cmp_eq_gt_iff _ _).2 hpos).symm
    | finite sign' m' e' hm' =>
      have hpos' := magnitude_pos hm' e'
      cases sign <;> cases sign'
      · simp only [UnpackedFloat.compare, finiteNumber, cmp_neg, cmp_magnitude ha hb]
      · exact congrArg some ((cmp_eq_lt_iff _ _).2 ((neg_lt_zero.2 hpos).trans hpos')).symm
      · exact congrArg some ((cmp_eq_gt_iff _ _).2 ((neg_lt_zero.2 hpos').trans hpos)).symm
      · simp only [UnpackedFloat.compare, finiteNumber, cmp_magnitude ha hb]

theorem compare_unpacked {a b : UnpackedFloat} (ha : (unpacked a).Canonical)
    (hb : (unpacked b).Canonical) :
    a.compare b = (unpacked a).number?.bind fun x => (unpacked b).number?.map fun y => cmp x y := by
  have hbot (q : ℚ) : ⊥ < ExtendedRat.of q := (cmp_eq_gt_iff _ _).1 (ExtendedRat.cmp_of_bot q)
  have htop (q : ℚ) : ExtendedRat.of q < ⊤ := (cmp_eq_lt_iff _ _).1 (ExtendedRat.cmp_of_top q)
  by_cases hfa : a.isFinite <;> by_cases hfb : b.isFinite
  · rw [compare_finite ha hb hfa hfb, number_unpacked hfa, number_unpacked hfb, Option.bind_some,
      Option.map_some, ExtendedRat.cmp_of]
  · rw [number_unpacked hfa, Option.bind_some]
    cases b with
    | zero | finite => exact absurd rfl hfb
    | notANumber => cases a <;> rfl
    | infinity sign =>
      cases sign
      · refine Eq.trans ?_ (congrArg some ((cmp_eq_gt_iff _ _).2 (hbot (finiteNumber a))).symm)
        cases a <;> first | rfl | cases hfa
      · refine Eq.trans ?_ (congrArg some ((cmp_eq_lt_iff _ _).2 (htop (finiteNumber a))).symm)
        cases a <;> first | rfl | cases hfa
  · rw [number_unpacked hfb]
    cases a with
    | zero | finite => exact absurd rfl hfa
    | notANumber => cases b <;> rfl
    | infinity sign =>
      cases sign
      · refine Eq.trans ?_ (congrArg some ((cmp_eq_lt_iff _ _).2 (hbot (finiteNumber b))).symm)
        cases b <;> first | rfl | cases hfb
      · refine Eq.trans ?_ (congrArg some ((cmp_eq_gt_iff _ _).2 (htop (finiteNumber b))).symm)
        cases b <;> first | rfl | cases hfb
  cases a with
  | zero | finite => exact absurd rfl hfa
  | notANumber => cases b <;> rfl
  | infinity sign =>
    cases b with
    | zero | finite => exact absurd rfl hfb
    | notANumber => cases sign <;> rfl
    | infinity sign' => cases sign <;> cases sign' <;> rfl

end FloatParts

/-- The exact numbers of two floats in their order, if both are numbers. -/
def floatOrder? (x y : Float) : Option Ordering :=
  (FloatParts.of x).number?.bind fun p => (FloatParts.of y).number?.map fun q => cmp p q

theorem compare_toModel (x y : Float) :
    x.toModel.unpack.compare y.toModel.unpack = floatOrder? x y := by
  have hx := FloatParts.of_canonical x
  have hy := FloatParts.of_canonical y
  rw [FloatParts.of_eq] at hx hy
  rw [floatOrder?, FloatParts.of_eq, FloatParts.of_eq, FloatParts.compare_unpacked hx hy]

theorem lt_iff_floatOrder {x y : Float} : x < y ↔ floatOrder? x y = some .lt := by
  rw [← compare_toModel]
  change decide (UnpackedFloat.lt _ _ = true) = true ↔ _
  simp [UnpackedFloat.lt]

theorem beq_iff_floatOrder {x y : Float} : (x == y) = true ↔ floatOrder? x y = some .eq := by
  rw [← compare_toModel]
  change (UnpackedFloat.beq _ _) = true ↔ _
  simp [UnpackedFloat.beq]

theorem floatOrder_swap (x y : Float) : floatOrder? y x = (floatOrder? x y).map Ordering.swap := by
  unfold floatOrder?
  cases (FloatParts.of x).number? <;> cases (FloatParts.of y).number? <;> simp [cmp_swap]

/-- The order of two floats is that of their exact numbers. -/
theorem compareFloats_eq (x y : Float) :
    Value.compareFloats x y = match floatOrder? x y with
      | some order => .ok order
      | none => .error (typeFault "cannot order NaN") := by
  have hgt : x > y ↔ floatOrder? x y = some .gt := by
    change y < x ↔ _
    rw [lt_iff_floatOrder, floatOrder_swap]
    cases floatOrder? x y with
    | none => simp
    | some order => cases order <;> simp
  unfold Value.compareFloats
  simp only [lt_iff_floatOrder, beq_iff_floatOrder, hgt]
  cases floatOrder? x y with
  | none => rfl
  | some order => cases order <;> rfl

end Scripting
