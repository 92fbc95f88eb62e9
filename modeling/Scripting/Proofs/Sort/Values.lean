/-
# Sorting values

A number can be compared with any number and a text with any text, and nothing else can be
compared. So being comparable is symmetric and transitive, and a sort comes to an end just if
all its values are comparable.

If besides the comparisons are transitive, the place of a value is told by how many come before
it. By this rank the values are sorted, and there is one way only to sort a list by ranks and
leave items of one rank as they stand (`Sort.Sorts.unique`).
-/
import Scripting.Proofs.Number.Comparison
import Scripting.Proofs.Sort.Linked
import Scripting.Proofs.Sort.Stable
import Scripting.Value.Order

namespace Scripting

namespace Value

/-! ### Values that can be compared -/

def Comparable (a b : Value) : Prop := ∃ order, a.compare b = .ok order

/-- What values are measured by. -/
inductive Scale where
  | number
  | text

def scale? : Value → Option Scale
  | .int _ => some .number
  | .float x => (FloatParts.of x).number?.map fun _ => .number
  | .str _ => some .text
  | _ => Option.none

theorem scale_eq_number {a : Value} : a.scale? = some .number ↔ ∃ p, a.number? = some p := by
  cases a with
  | int n => exact ⟨fun _ => ⟨_, rfl⟩, fun _ => rfl⟩
  | float x => simp [scale?, number?]
  | _ => simp [scale?, number?]

theorem scale_eq_text {a : Value} : a.scale? = some .text ↔ ∃ s, a = .str s := by
  cases a with
  | float x => simp [scale?]
  | _ => simp [scale?]

theorem compare_error {a b : Value} {f : Fault} (h : a.compare b = .error f) : f.kind = .type := by
  unfold Value.compare at h
  split at h
  case h_2 | h_3 | h_4 =>
    rw [compareFloats_eq] at h
    split at h
    · cases h
    · cases h
      rfl
  all_goals cases h
  rfl

theorem number_of_compareFloats {x y : Float} {order : Ordering}
    (h : compareFloats x y = .ok order) :
    (∃ p, (FloatParts.of x).number? = some p) ∧ ∃ q, (FloatParts.of y).number? = some q := by
  rw [compareFloats_eq] at h
  split at h
  next horder =>
    obtain ⟨p, hp, hq⟩ := Option.bind_eq_some_iff.1 horder
    obtain ⟨q, hq, -⟩ := Option.map_eq_some_iff.1 hq
    exact ⟨⟨p, hp⟩, ⟨q, hq⟩⟩
  · cases h

/-- Values can be compared if they are on one scale. -/
theorem comparable_iff {a b : Value} :
    a.Comparable b ↔ ∃ scale, a.scale? = some scale ∧ b.scale? = some scale := by
  constructor
  · rintro ⟨order, h⟩
    have hnumbers (ha : ∃ p, a.number? = some p) (hb : ∃ q, b.number? = some q) :
        ∃ scale, a.scale? = some scale ∧ b.scale? = some scale :=
      ⟨.number, scale_eq_number.2 ha, scale_eq_number.2 hb⟩
    unfold Value.compare at h
    split at h
    case h_1 => exact hnumbers ⟨_, rfl⟩ ⟨_, rfl⟩
    case h_2 => exact hnumbers ⟨_, rfl⟩ (number_of_compareFloats h).2
    case h_3 => exact hnumbers (number_of_compareFloats h).1 ⟨_, rfl⟩
    case h_4 => exact hnumbers (number_of_compareFloats h).1 (number_of_compareFloats h).2
    case h_5 => exact ⟨.text, rfl, rfl⟩
    case h_6 => cases h
  rintro ⟨scale, ha, hb⟩
  cases scale with
  | number =>
    obtain ⟨p, hp⟩ := scale_eq_number.1 ha
    obtain ⟨q, hq⟩ := scale_eq_number.1 hb
    obtain ⟨order, h⟩ := exists_compared hp hq
    exact ⟨order, h.compare⟩
  | text =>
    obtain ⟨s, rfl⟩ := scale_eq_text.1 ha
    obtain ⟨t, rfl⟩ := scale_eq_text.1 hb
    exact ⟨_, rfl⟩

theorem compareTexts_swap (s t : String) : compareTexts t s = (compareTexts s t).swap := by
  unfold compareTexts
  by_cases hlt : s < t
  · have hne : ¬ t = s := fun heq => String.lt_irrefl s (heq ▸ hlt)
    rw [if_pos hlt, if_neg (String.lt_asymm hlt), if_neg hne]
    rfl
  by_cases heq : s = t
  · subst heq
    rw [if_neg hlt, if_pos rfl]
    rfl
  have hgt : t < s := by
    by_contra hnot
    exact heq (String.le_antisymm (String.not_lt.1 hnot) (String.not_lt.1 hlt))
  rw [if_pos hgt, if_neg hlt, if_neg heq]
  rfl

theorem compare_swap {a b : Value} {order : Ordering} (h : a.compare b = .ok order) :
    b.compare a = .ok order.swap := by
  obtain ⟨scale, ha, hb⟩ := comparable_iff.1 ⟨order, h⟩
  cases scale with
  | number =>
    obtain ⟨p, hp⟩ := scale_eq_number.1 ha
    obtain ⟨q, hq⟩ := scale_eq_number.1 hb
    obtain ⟨order', hab⟩ := exists_compared hp hq
    obtain ⟨order'', hba⟩ := exists_compared hq hp
    obtain rfl : order' = order := Except.ok.inj (hab.compare.symm.trans h)
    rw [hba.compare, hab.swap hba]
  | text =>
    obtain ⟨s, rfl⟩ := scale_eq_text.1 ha
    obtain ⟨t, rfl⟩ := scale_eq_text.1 hb
    obtain rfl : compareTexts s t = order := Except.ok.inj h
    exact congrArg Except.ok (compareTexts_swap s t)

theorem compare_self {a : Value} (h : a.Comparable a) : a.compare a = .ok .eq := by
  obtain ⟨order, horder⟩ := h
  have hswap := (compare_swap horder).symm.trans horder
  cases order with
  | eq => exact horder
  | lt | gt => cases hswap

theorem Comparable.symm {a b : Value} (h : a.Comparable b) : b.Comparable a := by
  obtain ⟨scale, ha, hb⟩ := comparable_iff.1 h
  exact comparable_iff.2 ⟨scale, hb, ha⟩

theorem Comparable.trans {a b c : Value} (h : a.Comparable b) (h' : b.Comparable c) :
    a.Comparable c := by
  obtain ⟨scale, ha, hb⟩ := comparable_iff.1 h
  obtain ⟨scale', hb', hc⟩ := comparable_iff.1 h'
  rw [hb, Option.some.injEq] at hb'
  exact comparable_iff.2 ⟨scale, ha, hb' ▸ hc⟩

/-! ### The order of values -/

/-- A value comes before another or is level with it. -/
def AtMost (a b : Value) : Prop := a.compare b = .ok .lt ∨ a.compare b = .ok .eq

/-- Two values are in order, upwards or downwards. -/
def InOrder (reverse : Bool) (a b : Value) : Prop := if reverse then b.AtMost a else a.AtMost b

def levelWith (a b : Value) : Bool :=
  match a.compare b with
  | .ok .eq => true
  | _ => false

/-- Whether a value is known to come before another, upwards or downwards. -/
def precedes (reverse : Bool) (a b : Value) : Bool :=
  match comesBefore reverse a b with
  | .ok true => true
  | _ => false

section

variable {reverse : Bool} {a b : Value} (h : a.Comparable b)
include h

theorem Comparable.comesBefore_eq : comesBefore reverse a b = .ok (precedes reverse a b) := by
  obtain ⟨order, horder⟩ := h
  simp only [precedes, comesBefore, horder]
  cases order == if reverse then .gt else .lt <;> rfl

theorem Comparable.inOrder_iff : InOrder reverse a b ↔ precedes reverse b a = false := by
  obtain ⟨order, horder⟩ := h
  simp only [InOrder, AtMost, precedes, comesBefore, compare_swap horder, horder]
  cases reverse <;> cases order <;> simp

theorem Comparable.inOrder_of_precedes (hab : precedes reverse a b = true) :
    InOrder reverse a b := by
  obtain ⟨order, horder⟩ := h
  simp only [precedes, comesBefore, horder] at hab
  simp only [InOrder, AtMost, compare_swap horder, horder]
  cases reverse <;> cases order <;> simp_all

theorem Comparable.levelWith_iff :
    levelWith a b = true ↔ precedes reverse a b = false ∧ precedes reverse b a = false := by
  obtain ⟨order, horder⟩ := h
  simp only [levelWith, precedes, comesBefore, compare_swap horder, horder]
  cases reverse <;> cases order <;> simp

end

end Value

open Value

/-- Values that can be compared, any two of them, and whose comparisons are transitive. -/
structure Sortable (keys : List Value) : Prop where
  comparable : keys.Pairwise Comparable
  trans : ∀ a ∈ keys, ∀ b ∈ keys, ∀ c ∈ keys, a.AtMost b → b.AtMost c → a.AtMost c

/-- The items of a list in the order of their keys, upwards or downwards, with items of level
keys as they stood. -/
structure StableSort {α : Type} (reverse : Bool) (key : α → Value) (xs ys : List α) : Prop where
  perm : ys.Perm xs
  ordered : ys.Pairwise fun x y => InOrder reverse (key x) (key y)
  stable : ∀ x ∈ xs, ys.filter (fun y => (key x).levelWith (key y)) =
    xs.filter fun y => (key x).levelWith (key y)

theorem sortable_of_numbers {keys : List Value} (hnumber : ∀ a ∈ keys, ∃ p, a.number? = some p)
    (hclear : ∀ a ∈ keys, ∀ b ∈ keys, ¬ a.Blurs b) : Sortable keys where
  comparable := List.pairwise_of_forall_mem_list fun a ha b hb =>
    comparable_iff.2 ⟨.number, scale_eq_number.2 (hnumber a ha), scale_eq_number.2 (hnumber b hb)⟩
  trans a ha b hb c hc hab hbc := by
    obtain ⟨p, hp⟩ := hnumber a ha
    obtain ⟨q, hq⟩ := hnumber b hb
    obtain ⟨r, hr⟩ := hnumber c hc
    have hle {a b : Value} {p q : ExtendedRat} (ha : a.number? = some p) (hb : b.number? = some q)
        (hclear : ¬ a.Blurs b) : a.AtMost b ↔ p ≤ q := by
      obtain ⟨order, horder⟩ := exists_compared ha hb
      rw [AtMost, horder.compare, horder.exact hclear, Except.ok.injEq, Except.ok.injEq,
        cmp_eq_lt_iff, cmp_eq_eq_iff, le_iff_lt_or_eq]
    rw [hle hp hq (hclear a ha b hb)] at hab
    rw [hle hq hr (hclear b hb c hc)] at hbc
    rw [hle hp hr (hclear a ha c hc)]
    exact hab.trans hbc

theorem sortable_of_small {keys : List Value} (hnumber : ∀ a ∈ keys, ∃ p, a.number? = some p)
    (hsmall : ∀ n, .int n ∈ keys → n.toInt.natAbs ≤ 2 ^ 53) : Sortable keys := by
  refine sortable_of_numbers hnumber fun a ha b hb => not_blurs_of_small ?_
  rintro n (rfl | rfl)
  · exact hsmall n ha
  · exact hsmall n hb

/-! ### Ranks -/

/-- How many of some values come before a value. -/
def rankAmong (reverse : Bool) (keys : List Value) (a : Value) : Nat :=
  keys.countP fun k => precedes reverse k a

theorem comparable_of_mem {keys : List Value} (h : keys.Pairwise Comparable)
    (hlength : 2 ≤ keys.length) {a b : Value} (ha : a ∈ keys) (hb : b ∈ keys) :
    a.Comparable b := by
  have hself : ∀ a ∈ keys, a.Comparable a := by
    intro a ha
    match keys, hlength with
    | first :: second :: rest, _ =>
      have hfirst := (List.pairwise_cons.1 h).1
      rcases List.mem_cons.1 ha with rfl | ha
      · have hother := hfirst second (.head _)
        exact hother.trans hother.symm
      · exact (hfirst a ha).symm.trans (hfirst a ha)
  have : Std.Symm Comparable := ⟨fun _ _ => Comparable.symm⟩
  exact List.Pairwise.forall_of_forall hself h ha hb

section

variable {reverse : Bool} {keys : List Value} (h : Sortable keys) (hlength : 2 ≤ keys.length)
  {a b c : Value} (ha : a ∈ keys) (hb : b ∈ keys) (hc : c ∈ keys)

include h ha hb hc in
theorem Sortable.inOrder_trans (hab : InOrder reverse a b) (hbc : InOrder reverse b c) :
    InOrder reverse a c := by
  cases reverse with
  | false => exact h.trans a ha b hb c hc hab hbc
  | true => exact h.trans c hc b hb a ha hbc hab

include h hlength ha hb

/-- What comes before a value comes before all that this one is in order with. -/
theorem Sortable.precedes_of_inOrder (hab : InOrder reverse a b) {k : Value} (hk : k ∈ keys)
    (hka : precedes reverse k a = true) : precedes reverse k b = true := by
  have hcomparable {a b : Value} (ha : a ∈ keys) (hb : b ∈ keys) :=
    comparable_of_mem h.comparable hlength ha hb
  by_contra hkb
  rw [Bool.not_eq_true, ← (hcomparable hb hk).inOrder_iff] at hkb
  have hak := h.inOrder_trans ha hb hk hab hkb
  rw [(hcomparable ha hk).inOrder_iff, hka] at hak
  cases hak

theorem Sortable.rankAmong_lt_iff :
    rankAmong reverse keys a < rankAmong reverse keys b ↔ precedes reverse a b = true := by
  have hcomparable {a b : Value} (ha : a ∈ keys) (hb : b ∈ keys) :=
    comparable_of_mem h.comparable hlength ha hb
  constructor
  · intro hlt
    by_contra hnot
    rw [Bool.not_eq_true, ← (hcomparable hb ha).inOrder_iff] at hnot
    have hle : rankAmong reverse keys b ≤ rankAmong reverse keys a :=
      List.countP_mono_left fun k hk => h.precedes_of_inOrder hlength hb ha hnot hk
    omega
  intro hab
  have himp (k : Value) (hk : k ∈ keys) (hka : precedes reverse k a = true) :
      precedes reverse k b = true :=
    h.precedes_of_inOrder hlength ha hb ((hcomparable ha hb).inOrder_of_precedes hab) hk hka
  -- what comes before `a` is a part of what comes before `b`, without `a` itself
  have hpart : keys.filter (precedes reverse · a) =
      (keys.filter (precedes reverse · b)).filter (precedes reverse · a) := by
    rw [List.filter_filter]
    refine List.filter_congr fun k hk => ?_
    cases hka : precedes reverse k a with
    | false => rfl
    | true => rw [himp k hk hka, Bool.and_self]
  have hself : precedes reverse a a = false := by
    have hself := hcomparable ha ha
    exact (hself.levelWith_iff.1 (by rw [levelWith, compare_self hself])).1
  rw [rankAmong, rankAmong, List.countP_eq_length_filter, List.countP_eq_length_filter, hpart,
    List.length_filter_lt_length_iff_exists]
  exact ⟨a, List.mem_filter.2 ⟨ha, hab⟩, by rw [hself]; exact Bool.false_ne_true⟩

theorem Sortable.comesBefore_eq : comesBefore reverse a b =
    .ok (decide (rankAmong reverse keys a < rankAmong reverse keys b)) := by
  rw [(comparable_of_mem h.comparable hlength ha hb).comesBefore_eq]
  congr 1
  rw [Bool.eq_iff_iff, decide_eq_true_iff, h.rankAmong_lt_iff hlength ha hb]

theorem Sortable.inOrder_iff : InOrder reverse a b ↔
    rankAmong reverse keys a ≤ rankAmong reverse keys b := by
  rw [(comparable_of_mem h.comparable hlength ha hb).inOrder_iff, ← not_lt,
    h.rankAmong_lt_iff hlength hb ha, Bool.not_eq_true]

theorem Sortable.levelWith_iff : levelWith a b = true ↔
    rankAmong reverse keys b = rankAmong reverse keys a := by
  rw [@Comparable.levelWith_iff reverse _ _ (comparable_of_mem h.comparable hlength ha hb),
    ← Bool.not_eq_true, ← Bool.not_eq_true, ← h.rankAmong_lt_iff hlength ha hb,
    ← h.rankAmong_lt_iff hlength hb ha]
  omega

end

/-! ### Sorts of values -/

section

variable {α : Type} {reverse : Bool} {key : α → Value} {xs ys : List α}

theorem stableSort_of_sorts (h : Sortable (xs.map key)) (hlength : 2 ≤ xs.length)
    (hsorts : Sort.Sorts (fun x => rankAmong reverse (xs.map key) (key x)) xs ys) :
    StableSort reverse key xs ys := by
  have hlength' : 2 ≤ (xs.map key).length := by rwa [List.length_map]
  have hmem {y : α} (hy : y ∈ ys) : key y ∈ xs.map key :=
    List.mem_map_of_mem (hsorts.keeps.perm.subset hy)
  refine ⟨hsorts.keeps.perm, ?_, fun x hx => ?_⟩
  · refine hsorts.ordered.imp_of_mem fun hx hy hle => ?_
    exact (h.inOrder_iff hlength' (hmem hx) (hmem hy)).2 hle
  have hlevel {zs : List α} (hzs : ∀ z ∈ zs, key z ∈ xs.map key) :
      zs.filter (fun z => (key x).levelWith (key z)) = zs.filter fun z =>
        rankAmong reverse (xs.map key) (key z) = rankAmong reverse (xs.map key) (key x) := by
    refine List.filter_congr fun z hz => ?_
    rw [Bool.eq_iff_iff, decide_eq_true_iff,
      h.levelWith_iff hlength' (List.mem_map_of_mem hx) (hzs z hz)]
  rw [hlevel fun y hy => hmem hy, hlevel fun z hz => List.mem_map_of_mem hz]
  exact hsorts.keeps.filter _

theorem sortBy_short (before : α → α → Except Fault Bool) (widest : Sort.Group) (room : Nat)
    (h : xs.length ≤ 1) : sortBy widest room before xs = .ok xs := by
  match xs with
  | [] => rfl
  | [x] => rfl

theorem stableSort_short (h : xs.length ≤ 1) : StableSort reverse key xs xs :=
  ⟨.refl _, Sort.pairwise_of_short h, fun _ _ => rfl⟩

theorem sortBy_ranks (h : Sortable (xs.map key)) (hlength : 2 ≤ xs.length) (widest : Sort.Group)
    (room : Nat) :
    ∃ ys, sortBy widest room (fun a b => comesBefore reverse (key a) (key b)) xs = .ok ys ∧
      Sort.Sorts (fun x => rankAmong reverse (xs.map key) (key x)) xs ys := by
  have hranks : Sort.Ranks (fun a b => comesBefore reverse (key a) (key b)) (· ∈ xs)
      (fun x => rankAmong reverse (xs.map key) (key x)) :=
    ⟨fun ha hb => h.comesBefore_eq (by rwa [List.length_map]) (List.mem_map_of_mem ha)
      (List.mem_map_of_mem hb)⟩
  exact sortBy_sorts hranks widest room fun _ hx => hx

/-- A sort of values with transitive comparisons is stable. -/
theorem sortBy_stable (h : Sortable (xs.map key)) (widest : Sort.Group) (room : Nat) :
    ∃ ys, sortBy widest room (fun a b => comesBefore reverse (key a) (key b)) xs = .ok ys ∧
      StableSort reverse key xs ys := by
  by_cases hlength : 2 ≤ xs.length
  · obtain ⟨ys, hsort, hsorts⟩ := sortBy_ranks h hlength widest room
    exact ⟨ys, hsort, stableSort_of_sorts h hlength hsorts⟩
  · have hshort : xs.length ≤ 1 := by omega
    exact ⟨xs, sortBy_short _ widest room hshort, stableSort_short hshort⟩

section

variable (widest : Sort.Group) (room : Nat)

/-- A sort that succeeds gives the items of its list and has compared enough to know that all
values are comparable, and any other one fails with a fault of type. -/
theorem sortBy_ends : Ends (fun f => f.kind = .type)
    (fun ys => ys.Perm xs ∧ (xs.map key).Pairwise Comparable)
    (sortBy widest room (fun a b => comesBefore reverse (key a) (key b)) xs) := by
  have hlinks : Sort.Links (fun a b => comesBefore reverse (key a) (key b)) (fun _ => True)
      (fun f => f.kind = .type) (fun a b => (key a).Comparable (key b)) :=
    { asks := fun {a b} _ _ => by
        unfold comesBefore
        cases horder : (key a).compare (key b) with
        | error f => exact compare_error horder
        | ok order => exact ⟨order, horder⟩
      symm := Comparable.symm
      trans := Comparable.trans }
  rw [List.pairwise_map]
  exact sortBy_links hlinks widest room fun _ _ => trivial

theorem sortBy_comparable (h : (xs.map key).Pairwise Comparable) :
    ∃ ys, sortBy widest room (fun a b => comesBefore reverse (key a) (key b)) xs = .ok ys := by
  by_cases hlength : 2 ≤ xs.length
  · have hlinks : Sort.Links (fun a b => comesBefore reverse (key a) (key b)) (· ∈ xs)
        (fun _ => False) (fun _ _ => True) :=
      { asks := fun {a b} ha hb => by
          have hcomparable := comparable_of_mem h (by rwa [List.length_map])
            (List.mem_map_of_mem ha) (List.mem_map_of_mem hb)
          rw [hcomparable.comesBefore_eq]
          trivial
        symm := fun _ => trivial
        trans := fun _ _ => trivial }
    have hends := sortBy_links hlinks widest room fun _ hx => hx
    cases hsort : sortBy widest room (fun a b => comesBefore reverse (key a) (key b)) xs with
    | error f =>
      rw [hsort] at hends
      exact absurd hends id
    | ok ys => exact ⟨ys, rfl⟩
  · exact ⟨xs, sortBy_short _ widest room (by omega)⟩

theorem sortBy_incomparable (h : ¬ (xs.map key).Pairwise Comparable) :
    ∃ f, sortBy widest room (fun a b => comesBefore reverse (key a) (key b)) xs = .error f ∧
      f.kind = .type := by
  have hends := @sortBy_ends α reverse key xs widest room
  cases hsort : sortBy widest room (fun a b => comesBefore reverse (key a) (key b)) xs with
  | error f =>
    rw [hsort] at hends
    exact ⟨f, rfl, hends⟩
  | ok ys =>
    rw [hsort] at hends
    exact absurd hends.2 h

end

end

end Scripting
