/-
# Comparing numbers

Numbers are compared by their exact numbers, with one exception: a whole number of more than
53 bits may have no float of its own, and then it is equal to the float nearest to it. Such a
pair is blurred. All other pairs of numbers, also of a whole number and a float, are in the
order of their exact numbers, and are equal if these are the same. So `<=` is transitive and
`==` an equivalence on any numbers of which no two are blurred.
-/
import Scripting.Operator
import Scripting.Proofs.Number.Nearest

namespace Scripting

variable {x y : Float} {q : ExtendedRat} {a b : Value}

namespace Value

/-- The exact number of a value, if it is a number. -/
def number? : Value → Option ExtendedRat
  | .int n => some (.of n.toInt)
  | .float x => (FloatParts.of x).number?
  | _ => Option.none

/-- A whole number and the float nearest to it, if this is another number. -/
inductive Blurs : Value → Value → Prop
  | up {n : Int64} {x : Float} {p : ℚ} (hx : (FloatParts.of x).number? = some (.of p))
    (hp : RoundsTo n.toInt p) (hne : p ≠ n.toInt) : Blurs (.int n) (.float x)
  | down {n : Int64} {x : Float} {p : ℚ} (hx : (FloatParts.of x).number? = some (.of p))
    (hp : RoundsTo n.toInt p) (hne : p ≠ n.toInt) : Blurs (.float x) (.int n)

theorem Blurs.symm (h : a.Blurs b) : b.Blurs a := by
  cases h with
  | up hx hp hne => exact .down hx hp hne
  | down hx hp hne => exact .up hx hp hne

/-- What a comparison of two numbers gives. -/
structure Compared (a b : Value) (p q : ExtendedRat) (order : Ordering) : Prop where
  compare : a.compare b = .ok order
  equals (h : Heap) : h.equals a b = .ok (order == .eq)
  exact : ¬ a.Blurs b → order = cmp p q
  blurred : a.Blurs b → order = .eq ∧ p ≠ q

/-! ### Numbers of one kind -/

theorem compared_ints (m n : Int64) :
    Compared (.int m) (.int n) (.of m.toInt) (.of n.toInt)
      (Ord.compare m.toInt n.toInt) where
  compare := rfl
  equals h := by
    change Except.ok (m == n) = _
    congr 1
    rw [Bool.eq_iff_iff, beq_iff_eq, beq_iff_eq, Int.compare_eq_eq, Int64.toInt_inj]
  exact _ := by
    rw [ExtendedRat.cmp_of, Int.cast_strictMono.cmp_map_eq]
    exact (cmp_eq_compare _ _).symm
  blurred h := by cases h

theorem compareFloats_of_order {order : Ordering} (h : floatOrder? x y = some order) :
    compareFloats x y = .ok order := by
  rw [compareFloats_eq, h]

theorem beq_of_order {order : Ordering} (h : floatOrder? x y = some order) :
    (x == y) = (order == .eq) := by
  rw [Bool.eq_iff_iff, beq_iff_floatOrder, h, Option.some.injEq, beq_iff_eq]

theorem compared_floats {p : ExtendedRat} (hx : (FloatParts.of x).number? = some p)
    (hy : (FloatParts.of y).number? = some q) : Compared (.float x) (.float y) p q (cmp p q) := by
  have horder : floatOrder? x y = some (cmp p q) := by
    rw [floatOrder?, hx, hy]
    rfl
  exact
    { compare := compareFloats_of_order horder
      equals := fun h => congrArg Except.ok (beq_of_order horder)
      exact := fun _ => rfl
      blurred := fun h => by cases h }

/-! ### A whole number and a float -/

theorem natAbs_toInt_lt (n : Int64) : n.toInt.natAbs < 2 ^ 64 := by
  have hlow := n.le_toInt
  have hhigh := n.toInt_lt
  omega

/-- A float is on the same side of a whole number as it is of the float nearest to that, unless
it is the nearest one itself. -/
theorem cmp_rounded {n : Int} (hn : n.natAbs < 2 ^ 64) {q : ℚ} (hq : IsFloat q)
    (hne : rounded n = q → q = n) : cmp (rounded n) q = cmp (n : ℚ) q := by
  have hnear : |n - rounded n| ≤ |n - q| := (floatOfInt_roundsTo hn).near hq
  rcases lt_trichotomy (rounded n) q with hlt | heq | hgt
  · have hless : (n : ℚ) < q := by
      by_contra hnot
      have hle : q ≤ n := not_lt.1 hnot
      rw [abs_of_nonneg (sub_nonneg.2 (hlt.le.trans hle)), abs_of_nonneg (sub_nonneg.2 hle),
        sub_le_sub_iff_left] at hnear
      exact hlt.not_ge hnear
    rw [(cmp_eq_lt_iff _ _).2 hlt, (cmp_eq_lt_iff _ _).2 hless]
  · rw [heq, hne heq]
  have hmore : q < n := by
    by_contra hnot
    have hle : (n : ℚ) ≤ q := not_lt.1 hnot
    rw [abs_of_nonpos (sub_nonpos.2 (hle.trans hgt.le)), abs_of_nonpos (sub_nonpos.2 hle),
      neg_le_neg_iff, sub_le_sub_iff_left] at hnear
    exact hgt.not_ge hnear
  rw [(cmp_eq_gt_iff _ _).2 hgt, (cmp_eq_gt_iff _ _).2 hmore]

theorem floatOrder_floatOfWord (n : Int64) (hx : (FloatParts.of x).number? = some q) :
    ∃ order, floatOrder? (floatOfWord n) x = some order ∧
      (¬ Blurs (.int n) (.float x) → order = cmp (.of n.toInt) q) ∧
      (Blurs (.int n) (.float x) → order = .eq ∧ ExtendedRat.of n.toInt ≠ q) := by
  have hn := natAbs_toInt_lt n
  refine ⟨cmp (.of (rounded n.toInt)) q, ?_, fun hexact => ?_,
    fun hblurs => ?_⟩
  · rw [floatOrder?, floatOfWord, number_floatOfInt hn, hx]
    rfl
  · rcases q.eq_bot_or_top_or_of with rfl | rfl | ⟨q, rfl⟩
    · rw [ExtendedRat.cmp_of_bot, ExtendedRat.cmp_of_bot]
    · rw [ExtendedRat.cmp_of_top, ExtendedRat.cmp_of_top]
    rw [ExtendedRat.cmp_of, ExtendedRat.cmp_of]
    refine cmp_rounded hn ⟨x, hx⟩ fun heq => ?_
    by_contra hne
    exact hexact (.up hx (heq ▸ floatOfInt_roundsTo hn) hne)
  cases hblurs with
  | up hx' hp hne =>
    obtain rfl := Option.some.inj (hx.symm.trans hx')
    rw [hp.eq_rounded hn] at hne ⊢
    refine ⟨(cmp_eq_eq_iff _ _).2 rfl, fun heq => hne ?_⟩
    exact (ExtendedRat.of_inj.1 heq).symm

theorem compared_int_float (n : Int64) (hx : (FloatParts.of x).number? = some q) :
    ∃ order, Compared (.int n) (.float x) (.of n.toInt) q order := by
  obtain ⟨order, horder, hexact, hblurred⟩ := floatOrder_floatOfWord n hx
  exact ⟨order, compareFloats_of_order horder,
    fun h => congrArg Except.ok (beq_of_order horder), hexact, hblurred⟩

theorem compared_float_int (n : Int64) (hx : (FloatParts.of x).number? = some q) :
    ∃ order, Compared (.float x) (.int n) q (.of n.toInt) order := by
  obtain ⟨order, horder, hexact, hblurred⟩ := floatOrder_floatOfWord n hx
  have hswap : floatOrder? x (floatOfWord n) = some order.swap := by
    rw [floatOrder_swap, horder]
    rfl
  refine ⟨order.swap, compareFloats_of_order hswap, fun h => ?_, fun hnot => ?_, fun hblurs => ?_⟩
  · change Except.ok (floatOfWord n == x) = _
    rw [beq_of_order horder]
    cases order <;> rfl
  · rw [hexact fun hblurs => hnot hblurs.symm, cmp_swap]
  · obtain ⟨rfl, hne⟩ := hblurred hblurs.symm
    exact ⟨rfl, hne.symm⟩

theorem exists_compared {p : ExtendedRat} (ha : a.number? = some p) (hb : b.number? = some q) :
    ∃ order, Compared a b p q order := by
  cases a with
  | int m =>
    cases ha
    cases b with
    | int n =>
      cases hb
      exact ⟨_, compared_ints m n⟩
    | float y => exact compared_int_float m hb
    | _ => cases hb
  | float x =>
    cases b with
    | int n =>
      cases hb
      exact compared_float_int n ha
    | float y => exact ⟨_, compared_floats ha hb⟩
    | _ => cases hb
  | _ => cases ha

/-- Whole numbers of 53 bits have floats of their own. -/
theorem not_blurs_of_small (h : ∀ n, a = .int n ∨ b = .int n → n.toInt.natAbs ≤ 2 ^ 53) :
    ¬ a.Blurs b := by
  intro hblurs
  cases hblurs with
  | @up n x p _ hp hne =>
    exact hne ((hp.eq_rounded (natAbs_toInt_lt n)).trans (rounded_of_small (h n (.inl rfl))))
  | @down n x p _ hp hne =>
    exact hne ((hp.eq_rounded (natAbs_toInt_lt n)).trans (rounded_of_small (h n (.inr rfl))))

theorem not_blurs_self (a : Value) : ¬ a.Blurs a := by
  intro hblurs
  cases hblurs

section

variable {p : ExtendedRat} {order : Ordering} (h : Compared a b p q order)
include h

theorem Compared.isEq (hclear : ¬ a.Blurs b) : (order == .eq) = decide (p = q) := by
  rw [h.exact hclear, Bool.eq_iff_iff, beq_iff_eq, cmp_eq_eq_iff, decide_eq_true_iff]

theorem Compared.swap {order' : Ordering} (h' : Compared b a q p order') : order' = order.swap := by
  by_cases hblurs : a.Blurs b
  · rw [(h.blurred hblurs).1, (h'.blurred hblurs.symm).1]
    rfl
  · rw [h.exact hblurs, h'.exact fun hblurs' => hblurs hblurs'.symm, cmp_swap]

/-! ### The operators -/

theorem Compared.binary_le (ha : a.number? = some p) (hb : b.number? = some q) (line : Nat)
    (w : World) : binary .le a b line w = .ok (.bool order.isLE) w := by
  have hcompare := h.compare
  cases a with
  | int | float =>
    cases b with
    | int | float =>
      simp only [Value.compare] at hcompare
      simp only [binary, Run.atLine, operation?, intOperation?, floatOperation?, comparison?,
        Value.compare, hcompare, Option.map_some, Run.ofExcept, BinaryOp.holdsOf?, Option.getD_some]
    | _ => cases hb
  | _ => cases ha

theorem Compared.binary_eq (line : Nat) (w : World) :
    binary .eq a b line w = .ok (.bool (order == .eq)) w := by
  simp only [binary, Run.atLine, Run.inspect, h.equals, Except.map]

end

section

variable {p : ExtendedRat} (ha : a.number? = some p) (hb : b.number? = some q)
  (hclear : ¬ a.Blurs b) (line : Nat) (w : World)
include ha hb hclear

theorem le_holds_iff : binary .le a b line w = .ok (.bool true) w ↔ p ≤ q := by
  obtain ⟨order, h⟩ := exists_compared ha hb
  rw [h.binary_le ha hb, h.exact hclear, Outcome.ok.injEq, Value.bool.injEq, and_iff_left rfl,
    Ordering.isLE_iff_ne_gt, cmp_eq_gt_iff, not_lt]

theorem eq_holds_iff : binary .eq a b line w = .ok (.bool true) w ↔ p = q := by
  obtain ⟨order, h⟩ := exists_compared ha hb
  rw [h.binary_eq, h.isEq hclear, Outcome.ok.injEq, Value.bool.injEq, and_iff_left rfl,
    decide_eq_true_iff]

end

end Value

open Value

/-- **Numbers are compared by their exact numbers**, in any mix, unless they are a whole number
and the float nearest to it: these are equal, even if they are not the same number. There is no
such pair with a whole number of 53 bits. On numbers without such a pair `<=` is transitive and
`==` is an equivalence. -/
theorem numbers_compare_exactly {a b : Value} {p q : ExtendedRat}
    (ha : a.number? = some p) (hb : b.number? = some q) (h : Heap) :
    (¬ a.Blurs b → a.compare b = .ok (cmp p q) ∧ h.equals a b = .ok (decide (p = q))) ∧
    (a.Blurs b → p ≠ q ∧ a.compare b = .ok .eq ∧ h.equals a b = .ok true) ∧
    ((∀ n, a = .int n ∨ b = .int n → n.toInt.natAbs ≤ 2 ^ 53) → ¬ a.Blurs b) ∧
    h.equals a a = .ok true ∧ h.equals b a = h.equals a b ∧
    ∀ c r, c.number? = some r → ¬ a.Blurs b → ¬ b.Blurs c → ¬ a.Blurs c → ∀ line w,
      (binary .le a b line w = .ok (.bool true) w → binary .le b c line w = .ok (.bool true) w →
        binary .le a c line w = .ok (.bool true) w) ∧
      (binary .eq a b line w = .ok (.bool true) w → binary .eq b c line w = .ok (.bool true) w →
        binary .eq a c line w = .ok (.bool true) w) := by
  obtain ⟨order, hab⟩ := exists_compared ha hb
  refine ⟨fun hclear => ?_, fun hblurs => ?_, not_blurs_of_small, ?_, ?_, ?_⟩
  · rw [hab.compare, hab.equals, hab.isEq hclear, hab.exact hclear]
    exact ⟨rfl, rfl⟩
  · obtain ⟨rfl, hne⟩ := hab.blurred hblurs
    exact ⟨hne, hab.compare, hab.equals h⟩
  · obtain ⟨order', haa⟩ := exists_compared ha ha
    rw [haa.equals, haa.exact (not_blurs_self a), cmp_self_eq_eq]
    rfl
  · obtain ⟨order', hba⟩ := exists_compared hb ha
    rw [hba.equals, hab.equals, hab.swap hba]
    cases order <;> rfl
  intro c r hc habClear hbcClear hacClear line w
  rw [le_holds_iff ha hb habClear, le_holds_iff hb hc hbcClear, le_holds_iff ha hc hacClear,
    eq_holds_iff ha hb habClear, eq_holds_iff hb hc hbcClear, eq_holds_iff ha hc hacClear]
  exact ⟨le_trans, Eq.trans⟩

/-- 2^53 + 1 is equal to the float 2^53, which is the nearest one; but 3 is less than 3.5. -/
theorem numbers_compare_exactly_large :
    let large : Value := .int 9007199254740993
    let nearest : Value := .float (Float.ofBits 0x4340000000000000)
    let half : Value := .float (Float.ofBits 0x400C000000000000)
    let h : Heap := ⟨#[], #[], #[], #[]⟩
    (large.Blurs nearest ∧ large.compare nearest = .ok .eq ∧ h.equals large nearest = .ok true) ∧
      ¬ (Value.int 3).Blurs half ∧ (Value.int 3).compare half = .ok .lt ∧
        h.equals (.int 3) half = .ok false := by
  intro large nearest half h
  have hparts : FloatParts.of (Float.ofBits 0x4340000000000000) = .finite false (2 ^ 52) 1 := rfl
  have hnearest : nearest.number? = some (.of 9007199254740992) :=
    FloatParts.number_eq_of_iff.2 ⟨_, _, _, hparts, by norm_num [FloatParts.signed,
      FloatParts.magnitude]⟩
  have hparts' : FloatParts.of (Float.ofBits 0x400C000000000000) =
    .finite false (7 * 2 ^ 50) (-51) := rfl
  have hhalf : half.number? = some (.of (7 / 2)) :=
    FloatParts.number_eq_of_iff.2 ⟨_, _, _, hparts', by norm_num [FloatParts.signed,
      FloatParts.magnitude]⟩
  have hrounded : rounded 9007199254740993 = 9007199254740992 := by decide +kernel
  have hblurs : large.Blurs nearest :=
    .up hnearest (hrounded ▸ floatOfInt_roundsTo (by decide)) (by decide +kernel)
  obtain ⟨-, hblurred, -⟩ := @numbers_compare_exactly large nearest _ _ rfl hnearest h
  obtain ⟨hexact, -, hsmall, -⟩ := @numbers_compare_exactly (.int 3) half _ _ rfl hhalf h
  have hclear : ¬ (Value.int 3).Blurs half := by
    apply hsmall
    rintro n (hn | hn)
    · cases hn
      decide
    · simp only [half, reduceCtorEq] at hn
  refine ⟨⟨hblurs, (hblurred hblurs).2⟩, hclear, ?_⟩
  have hless : ExtendedRat.of (3 : Int64).toInt < .of (7 / 2) :=
    ExtendedRat.of_strictMono (by decide +kernel)
  obtain ⟨hcompare, hequals⟩ := hexact hclear
  rw [hcompare, hequals, (cmp_eq_lt_iff _ _).2 hless, decide_eq_false hless.ne]
  exact ⟨rfl, rfl⟩

/-- Not every two numbers are compared by their exact numbers, and `<=` and `==` are not
transitive on all of them: 2^53 + 1 is equal to the float 2^53 but not to the whole number. -/
theorem large_int_equals_float :
    let large : Value := .int 9007199254740993
    let float : Value := .float (Float.ofBits 0x4340000000000000)
    let whole : Value := .int 9007199254740992
    large.number? = some (.of 9007199254740993) ∧ float.number? = some (.of 9007199254740992) ∧
    whole.number? = some (.of 9007199254740992) ∧
    cmp (ExtendedRat.of 9007199254740993) (.of 9007199254740992) = .gt ∧
    large.compare float = .ok .eq ∧ (∀ h : Heap, h.equals large float = .ok true) ∧
    (∀ line w, binary .le large float line w = .ok (.bool true) w ∧
      binary .le float whole line w = .ok (.bool true) w ∧
      binary .le large whole line w = .ok (.bool false) w) ∧
    (∀ line w, binary .eq large float line w = .ok (.bool true) w ∧
      binary .eq float whole line w = .ok (.bool true) w ∧
      binary .eq large whole line w = .ok (.bool false) w) := by
  intro large float whole
  have hparts : FloatParts.of (Float.ofBits 0x4340000000000000) = .finite false (2 ^ 52) 1 := rfl
  have hfloat : float.number? = some (.of 9007199254740992) :=
    FloatParts.number_eq_of_iff.2 ⟨_, _, _, hparts, by norm_num [FloatParts.signed,
      FloatParts.magnitude]⟩
  have hmore : cmp (ExtendedRat.of 9007199254740993) (.of 9007199254740992) = .gt := by
    rw [ExtendedRat.cmp_of]
    decide +kernel
  exact ⟨rfl, hfloat, rfl, hmore, rfl, fun _ => rfl, fun _ _ => ⟨rfl, rfl, rfl⟩,
    fun _ _ => ⟨rfl, rfl, rfl⟩⟩

end Scripting
