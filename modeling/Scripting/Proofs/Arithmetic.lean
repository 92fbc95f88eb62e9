/-
# Operators on whole numbers

Sums, differences, products, quotients rounded down, powers and opposites of words are exact if
they are words; if they are not, an overflow is reported. A quotient fails otherwise only for a
divisor of zero, and a power with a negative exponent for a base of zero. No plain operation on
the way leaves the words (`int_operators_exact`).

The remainder goes with the quotient rounded down and has the sign of the divisor. It is a word
for every divisor but zero, but the least word has none for a divisor of minus one: there the
quotient toward zero is missing, and an overflow is reported (`remainder_matches_quotient`,
`remainder_of_least`).
-/
import Scripting.Operator
import Scripting.Proofs.Number.Words

namespace Scripting

variable {a b : Int64}

/-! ### What the operators mean -/

/-- What an operator gives in the integers, where it gives an integer. -/
def BinaryOp.exactResult (op : BinaryOp) (a b : Int) : Option Int :=
  match op with
  | .add => some (a + b)
  | .sub => some (a - b)
  | .mul => some (a * b)
  | .floorDiv => if b = 0 then none else some ⌊(a / b : ℚ)⌋
  | .pow => if b < 0 then none else some (a ^ b.toNat)
  | _ => none

theorem floor_div_eq_fdiv (a b : Int) : ⌊(a / b : ℚ)⌋ = a.fdiv b := by
  have hpos (a : Int) (n : Nat) : ⌊(a / (n : Int) : ℚ)⌋ = a.fdiv n := by
    rw [Int.cast_natCast, Rat.floor_intCast_div_natCast, Int.fdiv_eq_ediv_of_nonneg _ (by omega)]
  obtain ⟨n, rfl | rfl⟩ := b.eq_nat_or_neg
  · exact hpos a n
  · rw [Int.cast_neg, div_neg, ← neg_div, ← Int.cast_neg, hpos (-a) n, ← Int.neg_fdiv_neg, neg_neg]

/-! ### What they give -/

theorem wordResult_of_toInt {word : Int64} {n : Int} (h : word.toInt = n) :
    wordResult (Word64.ofInt? n) = .ok (.int word) := by
  rw [Word64.ofInt?_eq_some_iff.2 h, wordResult]

theorem toInt_neg_one_pow (hb : 0 ≤ b.toInt) :
    (if b % 2 = 0 then 1 else -1 : Int64).toInt = (-1) ^ b.toInt.toNat := by
  have hrest : (b % 2).toInt = b.toInt.toNat % 2 := by
    rw [Int64.toInt_mod, show Int64.toInt 2 = 2 from rfl, Int.tmod_eq_emod_of_nonneg hb]
    omega
  split
  next heven =>
    rw [heven, Int64.toInt_zero] at hrest
    exact (Even.neg_one_pow (Nat.even_iff.2 (by omega))).symm
  next hodd =>
    have := Word64.toInt_ne_zero hodd
    exact (Odd.neg_one_pow (Nat.odd_iff.2 (by omega))).symm

theorem intPower_of_nonneg (a : Int64) (hb : 0 ≤ b.toInt) :
    intPower a b = wordResult (Word64.ofInt? (a.toInt ^ b.toInt.toNat)) := by
  have hle : (0 : Int64) ≤ b := by rwa [Int64.le_iff_toInt_le, Int64.toInt_zero]
  have hneg : ¬ b < 0 := Int64.not_lt.2 hle
  unfold intPower
  rw [if_neg fun h => hneg h.2]
  by_cases hzero : a = 0
  · subst hzero
    by_cases hpos : 0 < b
    · have hexponent : b.toInt.toNat ≠ 0 := by
        rw [Int64.lt_iff_toInt_lt, Int64.toInt_zero] at hpos
        omega
      rw [if_pos ⟨rfl, hpos⟩, Int64.toInt_zero, zero_pow hexponent]
      exact (wordResult_of_toInt Int64.toInt_zero).symm
    · obtain rfl : b = 0 := Int64.le_antisymm (Int64.not_lt.1 hpos) hle
      unfold Word64.pow? Word64.timesPow?
      rfl
  rw [if_neg fun h => hzero h.1]
  by_cases hone : a = 1
  · rw [if_pos hone, hone, show Int64.toInt 1 = 1 from rfl, one_pow]
    exact (wordResult_of_toInt rfl).symm
  rw [if_neg hone]
  by_cases hminus : a = -1
  · rw [if_pos ⟨hminus, hle⟩, hminus, show Int64.toInt (-1) = -1 from rfl,
      wordResult_of_toInt (toInt_neg_one_pow hb)]
  rw [if_neg fun h => hminus h.1, if_neg hneg]
  have hbase : a.toInt ≠ 0 ∧ a.toInt ≠ 1 ∧ a.toInt ≠ -1 :=
    ⟨fun h => hzero (Int64.toInt_inj.1 h), fun h => hone (Int64.toInt_inj.1 h),
      fun h => hminus (Int64.toInt_inj.1 h)⟩
  rw [Word64.pow?_eq (by omega)]

/-- The operators compute what they mean, as far as it is a word. -/
theorem intOperation_of_exact {op : BinaryOp} {n : Int}
    (h : op.exactResult a.toInt b.toInt = some n) :
    intOperation? op a b = some (wordResult (Word64.ofInt? n)) := by
  cases op with
  | add | sub | mul =>
    cases h
    rfl
  | floorDiv =>
    simp only [BinaryOp.exactResult, Option.ite_none_left_eq_some, Option.some.injEq] at h
    obtain ⟨hb, rfl⟩ := h
    have hb' : b ≠ 0 := fun h => hb (h ▸ Int64.toInt_zero)
    rw [intOperation?, if_neg hb', Word64.floorDiv?,
      Word64.floorDivWith_eq Word64.wrapped_faithful a hb', floor_div_eq_fdiv]
    rfl
  | pow =>
    simp only [BinaryOp.exactResult, Option.ite_none_left_eq_some, Option.some.injEq] at h
    obtain ⟨hb, rfl⟩ := h
    rw [intOperation?, intPower_of_nonneg a (not_lt.1 hb)]
  | _ => cases h

theorem binary_ints {op : BinaryOp} {result : Except Fault Value}
    (h : intOperation? op a b = some result) (line : Nat) :
    binary op (.int a) (.int b) line = Run.atLine line (Run.ofExcept result) := by
  have hact : operation? op (.int a) (.int b) = some (.ofExcept result) := by
    rw [operation?, h]
    rfl
  cases op with
  | eq | ne | isIn | notIn => cases h
  | _ =>
    unfold binary
    simp only [hact]

/-- A checked result is the exact number, or an overflow on the line if that is no word. -/
theorem wordResult_outcome (n : Int) (line : Nat) (w : World) :
    (∀ word : Int64, Run.atLine line (Run.ofExcept (wordResult (Word64.ofInt? n))) w =
        .ok (.int word) w ↔ word.toInt = n) ∧
      (Run.atLine line (Run.ofExcept (wordResult (Word64.ofInt? n))) w =
        .fault (integerOverflow.atLine line) w ↔ ¬ Word64.fits n) := by
  rw [← Word64.ofInt?_eq_none_iff]
  simp only [← Word64.ofInt?_eq_some_iff]
  cases Word64.ofInt? n with
  | none => exact ⟨fun word => ⟨nofun, nofun⟩, fun _ => rfl, fun _ => rfl⟩
  | some word =>
    refine ⟨fun word' => ?_, nofun, nofun⟩
    change Outcome.ok (Value.int word) w = _ ↔ _
    simp

theorem unary_neg_outcome (h : Heap) (a : Int64) :
    (∀ word : Int64, unary h .neg (.int a) = .ok (.int word) ↔ word.toInt = -a.toInt) ∧
      (unary h .neg (.int a) = .error integerOverflow ↔ ¬ Word64.fits (-a.toInt)) := by
  change (∀ word : Int64, wordResult (Word64.ofInt? (-a.toInt)) = _ ↔ _) ∧
    (wordResult (Word64.ofInt? (-a.toInt)) = _ ↔ _)
  rw [← Word64.ofInt?_eq_none_iff]
  simp only [← Word64.ofInt?_eq_some_iff]
  cases Word64.ofInt? (-a.toInt) with
  | none => simp [wordResult]
  | some word => simp [wordResult]

theorem floorDiv_division_iff (a b : Int64) (line : Nat) (w : World) :
    (∃ f, binary .floorDiv (.int a) (.int b) line w = .fault f w ∧ f.kind = .division) ↔
      b = 0 := by
  constructor
  · rintro ⟨f, hf, hkind⟩
    by_contra hb
    have hexact : BinaryOp.floorDiv.exactResult a.toInt b.toInt = some ⌊(a.toInt / b.toInt : ℚ)⌋ :=
      if_neg (Word64.toInt_ne_zero hb)
    rw [binary_ints (intOperation_of_exact hexact)] at hf
    cases hword : Word64.ofInt? ⌊(a.toInt / b.toInt : ℚ)⌋ with
    | none =>
      rw [hword] at hf
      cases hf
      cases hkind
    | some word =>
      rw [hword] at hf
      cases hf
  rintro rfl
  have hzero : intOperation? .floorDiv a 0 = some (.error (divisionFault "integer division")) := rfl
  rw [binary_ints hzero]
  exact ⟨_, rfl, Fault.kind_atLine _ _⟩

theorem pow_zero_of_neg (hb : b < 0) (line : Nat) (w : World) :
    ∃ f, binary .pow (.int 0) (.int b) line w = .fault f w ∧ f.kind = .division := by
  have hfault : intOperation? .pow 0 b =
      some (.error (.of .division "0 cannot be raised to a negative power")) := by
    rw [intOperation?, intPower, if_pos ⟨rfl, hb⟩]
  rw [binary_ints hfault]
  exact ⟨_, rfl, Fault.kind_atLine _ _⟩

/-- A quotient is the same if a plain result that is no word ends its computation. -/
theorem floorDivWith_checked (a b : Int64) :
    Word64.floorDivWith Word64.ofInt? a b = some (Word64.floorDiv? a b) := by
  by_cases hb : b = 0
  · subst hb
    rfl
  · rw [Word64.floorDiv?, Word64.floorDivWith_eq Word64.ofInt?_faithful a hb,
      Word64.floorDivWith_eq Word64.wrapped_faithful a hb]
    rfl

theorem mod?_of_div? {q : Int64} (h : Word64.div? a b = some q) :
    Word64.mod? a b = some (a % b) := by
  unfold Word64.div? at h
  unfold Word64.mod?
  split at h
  next hquotient => rw [if_pos hquotient]
  · cases h

/-- Operators on whole numbers are exact, or report an overflow where the exact result is no
word. Quotients have a fault of their own for a divisor of zero only, and zero has no negative
powers. Nothing on the way leaves the words: quotients are the same if a plain result that is no
word ends their computation, and the remainders that are taken are there. -/
theorem int_operators_exact :
    (∀ (op : BinaryOp) (a b : Int64) (n : Int), op.exactResult a.toInt b.toInt = some n →
      ∀ (line : Nat) (w : World),
        (∀ word : Int64,
          binary op (.int a) (.int b) line w = .ok (.int word) w ↔ word.toInt = n) ∧
        (binary op (.int a) (.int b) line w = .fault (integerOverflow.atLine line) w ↔
          ¬ Word64.fits n)) ∧
    (∀ (h : Heap) (a : Int64),
      (∀ word : Int64, unary h .neg (.int a) = .ok (.int word) ↔ word.toInt = -a.toInt) ∧
      (unary h .neg (.int a) = .error integerOverflow ↔ ¬ Word64.fits (-a.toInt))) ∧
    (∀ (a b : Int64) (line : Nat) (w : World),
      (∃ f, binary .floorDiv (.int a) (.int b) line w = .fault f w ∧ f.kind = .division) ↔
        b = 0) ∧
    (∀ (b : Int64) (line : Nat) (w : World), b < 0 →
      ∃ f, binary .pow (.int 0) (.int b) line w = .fault f w ∧ f.kind = .division) ∧
    (∀ a b : Int64, Word64.floorDivWith Word64.ofInt? a b = some (Word64.floorDiv? a b) ∧
      ∀ q, Word64.div? a b = some q → Word64.mod? a b = some (a % b)) ∧
    ∀ b : Int64, Word64.mod? b 2 = some (b % 2) := by
  refine ⟨fun op a b n hexact line w => ?_, unary_neg_outcome, floorDiv_division_iff,
    fun b line w hb => pow_zero_of_neg hb line w,
    fun a b => ⟨floorDivWith_checked a b, fun q => mod?_of_div?⟩, fun b => ?_⟩
  · rw [binary_ints (intOperation_of_exact hexact)]
    exact wordResult_outcome n line w
  · exact if_pos (Word64.hasQuotient_iff.2 ⟨by decide, fun h => absurd h.2 (by decide)⟩)

/-- The least word is a power of minus two and has no opposite, and its quotient with minus one
is no word; the word above it divided by two is rounded down. Zero has no power with the exponent
minus one. -/
theorem int_operators_exact_least :
    BinaryOp.pow.exactResult (Int64.toInt (-2)) (Int64.toInt 63) = some Int64.minValue.toInt ∧
    BinaryOp.floorDiv.exactResult Int64.minValue.toInt (Int64.toInt (-1)) = some (2 ^ 63) ∧
    BinaryOp.floorDiv.exactResult (Int64.toInt (-9223372036854775807)) (Int64.toInt 2) =
      some (-2 ^ 62) ∧
    (∀ line w,
      binary .pow (.int (-2)) (.int 63) line w = .ok (.int Int64.minValue) w ∧
      binary .floorDiv (.int Int64.minValue) (.int (-1)) line w =
        .fault (integerOverflow.atLine line) w ∧
      binary .floorDiv (.int (-9223372036854775807)) (.int 2) line w =
        .ok (.int (-4611686018427387904)) w ∧
      ∃ f, binary .pow (.int 0) (.int (-1)) line w = .fault f w ∧ f.kind = .division) ∧
    unary .empty .neg (.int Int64.minValue) = .error integerOverflow := by
  have hpower : BinaryOp.pow.exactResult (Int64.toInt (-2)) (Int64.toInt 63) =
      some Int64.minValue.toInt := by decide
  have hquotient : BinaryOp.floorDiv.exactResult Int64.minValue.toInt (Int64.toInt (-1)) =
      some (2 ^ 63) := by decide +kernel
  have hrounded : BinaryOp.floorDiv.exactResult (Int64.toInt (-9223372036854775807)) (Int64.toInt 2) =
      some (-2 ^ 62) := by decide +kernel
  obtain ⟨hexact, hneg, -, hzero, -⟩ := int_operators_exact
  refine ⟨hpower, hquotient, hrounded, fun line w => ⟨?_, ?_, ?_, hzero _ line w (by decide)⟩, ?_⟩
  · exact ((hexact _ _ _ _ hpower line w).1 Int64.minValue).2 rfl
  · exact (hexact _ _ _ _ hquotient line w).2.2 (by decide)
  · exact ((hexact _ _ _ _ hrounded line w).1 (-4611686018427387904)).2 rfl
  · exact (hneg .empty Int64.minValue).2.2 (by decide)

/-! ### Remainders -/

theorem fmod_eq_sub_mul_floor (a b : Int) : a.fmod b = a - b * ⌊(a / b : ℚ)⌋ := by
  rw [floor_div_eq_fdiv, Int.fmod_def]

theorem fmod_mem {a b : Int} (hb : b ≠ 0) :
    (a.fmod b = 0 ∨ (a.fmod b < 0 ↔ b < 0)) ∧ |a.fmod b| < |b| := by
  rcases lt_or_gt_of_ne hb with hneg | hpos
  · have hlow := Int.fmod_nonneg_of_pos (-a) (show 0 < -b by omega)
    have hhigh := Int.fmod_lt_of_pos (-a) (show 0 < -b by omega)
    rw [Int.neg_fmod_neg] at hlow hhigh
    refine ⟨by omega, ?_⟩
    rw [abs_of_nonpos (by omega), abs_of_neg hneg]
    exact hhigh
  have hlow := Int.fmod_nonneg_of_pos a hpos
  have hhigh := Int.fmod_lt_of_pos a hpos
  refine ⟨by omega, ?_⟩
  rwa [abs_of_nonneg hlow, abs_of_pos hpos]

theorem intOperation_mod (a : Int64) (hb : b ≠ 0) :
    intOperation? .mod a b = some (wordResult (if Word64.hasQuotient a b then
      Word64.ofInt? (a.toInt.fmod b.toInt) else none)) := by
  rw [intOperation?, if_neg hb, Word64.floorMod?,
    Word64.floorModWith_eq Word64.wrapped_faithful a hb]
  rfl

theorem exists_remainder (h : Word64.hasQuotient a b = true) (line : Nat) (w : World) :
    ∃ r : Int64, r.toInt = a.toInt.fmod b.toInt ∧
      binary .mod (.int a) (.int b) line w = .ok (.int r) w := by
  have hb := (Word64.hasQuotient_iff.1 h).1
  have hnear := (fmod_mem (Word64.toInt_ne_zero hb) (a := a.toInt)).2
  have hword := Word64.fits_iff.1 (Word64.fits_toInt b)
  obtain ⟨r, hr⟩ : ∃ r : Int64, r.toInt = a.toInt.fmod b.toInt := by
    refine Word64.exists_word (Word64.fits_iff.2 ?_)
    rw [abs_lt] at hnear
    rcases abs_cases b.toInt with ⟨habs, -⟩ | ⟨habs, -⟩ <;> omega
  refine ⟨r, hr, ?_⟩
  rw [binary_ints (intOperation_mod a hb), if_pos h, ← hr, wordResult_of_toInt rfl]
  rfl

theorem no_remainder (line : Nat) (w : World) :
    binary .mod (.int Int64.minValue) (.int (-1)) line w =
      .fault (integerOverflow.atLine line) w := by
  rw [binary_ints (intOperation_mod Int64.minValue (b := -1) (by decide))]
  rfl

/-- For every divisor but zero the remainder is what the quotient rounded down leaves: zero or of
the sign of the divisor, and nearer to zero than that. If the quotient is a word, then the two
give the dividend again. The one exception is the least word divided by minus one: its remainder
is reported as an overflow. No plain result on the way leaves the words. -/
theorem remainder_matches_quotient (a b : Int64) (hb : b ≠ 0) :
    (¬ (a = Int64.minValue ∧ b = -1) → ∀ (line : Nat) (w : World),
      ∃ r : Int64, binary .mod (.int a) (.int b) line w = .ok (.int r) w ∧
        r.toInt = a.toInt - b.toInt * ⌊(a.toInt / b.toInt : ℚ)⌋ ∧
        (r = 0 ∨ (r < 0 ↔ b < 0)) ∧ |r.toInt| < |b.toInt| ∧
        ∀ q : Int64, binary .floorDiv (.int a) (.int b) line w = .ok (.int q) w →
          q.toInt * b.toInt + r.toInt = a.toInt) ∧
    (a = Int64.minValue ∧ b = -1 → ∀ (line : Nat) (w : World),
      binary .mod (.int a) (.int b) line w = .fault (integerOverflow.atLine line) w) ∧
    Word64.floorModWith Word64.ofInt? a b = some (Word64.floorMod? a b) := by
  refine ⟨fun hpair line w => ?_, ?_, ?_⟩
  · obtain ⟨r, hr, hrun⟩ := exists_remainder (Word64.hasQuotient_iff.2 ⟨hb, hpair⟩) line w
    obtain ⟨hsign, hnear⟩ := fmod_mem (Word64.toInt_ne_zero hb) (a := a.toInt)
    rw [← hr] at hsign hnear
    refine ⟨r, hrun, by rw [hr, fmod_eq_sub_mul_floor], ?_, hnear, fun q hq => ?_⟩
    · rwa [← Int64.toInt_inj, Int64.lt_iff_toInt_lt, Int64.lt_iff_toInt_lt]
    have hexact : BinaryOp.floorDiv.exactResult a.toInt b.toInt = some ⌊(a.toInt / b.toInt : ℚ)⌋ :=
      if_neg (Word64.toInt_ne_zero hb)
    rw [binary_ints (intOperation_of_exact hexact)] at hq
    rw [((wordResult_outcome _ line w).1 q).1 hq, floor_div_eq_fdiv, hr, Int.fdiv_mul_add_fmod]
  · rintro ⟨rfl, rfl⟩
    exact no_remainder
  · rw [Word64.floorMod?, Word64.floorModWith_eq Word64.ofInt?_faithful a hb,
      Word64.floorModWith_eq Word64.wrapped_faithful a hb]
    rfl

/-- The least word divided by three leaves one; with minus one it has no remainder. -/
theorem remainder_matches_quotient_least :
    (∀ line w, ∃ r : Int64, binary .mod (.int Int64.minValue) (.int 3) line w = .ok (.int r) w ∧
      r.toInt = 1 ∧ ∀ q : Int64,
        binary .floorDiv (.int Int64.minValue) (.int 3) line w = .ok (.int q) w →
          q.toInt * 3 + r.toInt = Int64.minValue.toInt) ∧
    ∀ line w, binary .mod (.int Int64.minValue) (.int (-1)) line w =
      .fault (integerOverflow.atLine line) w := by
  obtain ⟨hthree, -, -⟩ := remainder_matches_quotient Int64.minValue 3 (by decide)
  obtain ⟨-, hone, -⟩ := remainder_matches_quotient Int64.minValue (-1) (by decide)
  refine ⟨fun line w => ?_, hone ⟨rfl, rfl⟩⟩
  obtain ⟨r, hrun, hr, -, -, hback⟩ := hthree (fun h => absurd h.2 (by decide)) line w
  refine ⟨r, hrun, ?_, hback⟩
  rw [hr, ← fmod_eq_sub_mul_floor]
  rfl

/-- The remainder of the least word by minus one would be zero, and yet there is none. -/
theorem remainder_of_least :
    Int64.minValue.toInt - Int64.toInt (-1) * ⌊(Int64.minValue.toInt / Int64.toInt (-1) : ℚ)⌋ = 0 ∧
    ∀ line w, ¬ ∃ r, binary .mod (.int Int64.minValue) (.int (-1)) line w = .ok r w := by
  refine ⟨?_, fun line w => ?_⟩
  · rw [← fmod_eq_sub_mul_floor]
    rfl
  · rintro ⟨r, hr⟩
    rw [no_remainder] at hr
    cases hr

end Scripting
