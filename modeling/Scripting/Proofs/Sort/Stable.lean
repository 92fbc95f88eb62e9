/-
# Stable sorting

Where the answers of the comparisons fit an order, told by a key for each item, a sort puts the
items in that order and keeps items of one key as they stand. Every step only moves items past
items of other keys, which is all that the relation `Keeps` allows.

The merge from both ends stops in the middle. What it has taken from the front and what it has
taken from the back are two cuts through the two lists, and the cuts do not overlap: an item
between them in one list would have to come before and not before one of the other list.
-/
import Mathlib
import Scripting.Proofs.Sort.Law

namespace Scripting.Sort

variable {α κ ε : Type} [LinearOrder κ] {key : α → κ}

/-! ### Items of one key keep their order -/

/-- The same items, those of each key in the same order. -/
structure Keeps (key : α → κ) (xs ys : List α) : Prop where
  perm : ys.Perm xs
  filter (k : κ) : ys.filter (key · = k) = xs.filter (key · = k)

namespace Keeps

variable {xs ys zs xs' ys' : List α}

theorem refl (xs : List α) : Keeps key xs xs := ⟨.refl _, fun _ => rfl⟩

theorem trans (h : Keeps key xs ys) (h' : Keeps key ys zs) : Keeps key xs zs :=
  ⟨h'.perm.trans h.perm, fun k => (h'.filter k).trans (h.filter k)⟩

theorem append (h : Keeps key xs xs') (h' : Keeps key ys ys') :
    Keeps key (xs ++ ys) (xs' ++ ys') where
  perm := h.perm.append h'.perm
  filter k := by rw [List.filter_append, List.filter_append, h.filter, h'.filter]

theorem append_left (xs : List α) (h : Keeps key ys ys') : Keeps key (xs ++ ys) (xs ++ ys') :=
  (refl xs).append h

theorem append_right (ys : List α) (h : Keeps key xs xs') : Keeps key (xs ++ ys) (xs' ++ ys) :=
  h.append (refl ys)

theorem reverse (h : Keeps key xs ys) : Keeps key xs.reverse ys.reverse where
  perm := ys.reverse_perm.trans (h.perm.trans xs.reverse_perm.symm)
  filter k := by rw [List.filter_reverse, List.filter_reverse, h.filter]

/-- Items go past items of other keys. -/
theorem swap (h : ∀ x ∈ xs, ∀ y ∈ ys, key x ≠ key y) : Keeps key (xs ++ ys) (ys ++ xs) where
  perm := List.perm_append_comm
  filter k := by
    rw [List.filter_append, List.filter_append]
    -- one of the two lists has no item of this key
    by_cases hxs : xs.filter (key · = k) = []
    · rw [hxs, List.append_nil, List.nil_append]
    have hys : ys.filter (key · = k) = [] := by
      obtain ⟨x, hx⟩ := List.exists_mem_of_ne_nil _ hxs
      simp only [List.mem_filter, decide_eq_true_eq] at hx
      rw [List.filter_eq_nil_iff]
      intro y hy
      rw [decide_eq_true_eq, ← hx.2]
      exact fun hkey => h x hx.1 y hy hkey.symm
    rw [hys, List.append_nil, List.nil_append]

theorem of_reverse (h : xs.Pairwise (key · ≠ key ·)) : Keeps key xs xs.reverse := by
  induction xs with
  | nil => exact refl []
  | cons x xs ih =>
    obtain ⟨hx, hxs⟩ := List.pairwise_cons.1 h
    have hpast : Keeps key ([x] ++ xs) (xs ++ [x]) := swap (by simpa using hx)
    rw [List.reverse_cons]
    exact hpast.trans ((ih hxs).append_right [x])

theorem partition (test : κ → Bool) (xs : List α) :
    Keeps key xs (xs.filter (fun x => test (key x)) ++ xs.filter fun x => ! test (key x)) := by
  induction xs with
  | nil => exact refl []
  | cons x xs ih =>
    cases hx : test (key x) with
    | true =>
      simp only [hx, List.filter_cons_of_pos, Bool.not_true, Bool.false_eq_true, not_false_eq_true,
        List.filter_cons_of_neg]
      exact ih.append_left [x]
    | false =>
      simp only [hx, Bool.false_eq_true, not_false_eq_true, List.filter_cons_of_neg, Bool.not_false,
        List.filter_cons_of_pos]
      have hpast : Keeps key ([x] ++ xs.filter fun x => test (key x))
          ((xs.filter fun x => test (key x)) ++ [x]) := by
        refine swap fun a ha y hy hkey => ?_
        rw [List.mem_singleton.1 ha] at hkey
        have hy := (List.mem_filter.1 hy).2
        rw [← hkey, hx] at hy
        cases hy
      have hmoved := hpast.append_right (xs.filter fun x => ! test (key x))
      rw [List.append_assoc, List.append_assoc] at hmoved
      exact (ih.append_left [x]).trans hmoved

theorem ofDual (h : Keeps (fun x => OrderDual.toDual (key x)) xs ys) : Keeps key xs ys :=
  ⟨h.perm, fun k => h.filter (OrderDual.toDual k)⟩

end Keeps

/-- A list in the order of the keys. -/
abbrev Ordered (key : α → κ) (xs : List α) : Prop := xs.Pairwise (key · ≤ key ·)

/-- The items of a list in the order of their keys, those of one key as they stand. -/
structure Sorts (key : α → κ) (xs ys : List α) : Prop where
  keeps : Keeps key xs ys
  ordered : Ordered key ys

namespace Sorts

variable {xs ys xs' ys' : List α}

theorem refl (h : Ordered key xs) : Sorts key xs xs := ⟨.refl xs, h⟩

theorem length_eq (h : Sorts key xs ys) : ys.length = xs.length := h.keeps.perm.length_eq

theorem all (h : Sorts key xs ys) {P : α → Prop} (hxs : ∀ x ∈ xs, P x) : ∀ y ∈ ys, P y :=
  fun y hy => hxs y (h.keeps.perm.subset hy)

theorem append (h : Sorts key xs xs') (h' : Sorts key ys ys')
    (hle : ∀ x ∈ xs, ∀ y ∈ ys, key x ≤ key y) : Sorts key (xs ++ ys) (xs' ++ ys') where
  keeps := h.keeps.append h'.keeps
  ordered := List.pairwise_append.2 ⟨h.ordered, h'.ordered, fun x hx y hy =>
    hle x (h.keeps.perm.subset hx) y (h'.keeps.perm.subset hy)⟩

theorem of_keeps {zs : List α} (h : Sorts key ys zs) (hkeeps : Keeps key xs ys) :
    Sorts key xs zs := ⟨hkeeps.trans h.keeps, h.ordered⟩

/-- Sorted by the reversed order of keys and seen from the back, a list is sorted. -/
theorem reverse (h : Sorts (fun x => OrderDual.toDual (key x)) xs ys) :
    Sorts key xs.reverse ys.reverse :=
  ⟨h.keeps.ofDual.reverse, List.pairwise_reverse.2 h.ordered⟩

theorem cons {y : α} (h : Sorts key xs ys) (hle : ∀ x ∈ xs, key y ≤ key x) :
    Sorts key (y :: xs) (y :: ys) :=
  append (refl (List.pairwise_singleton _ y)) h (by simpa using hle)

theorem snoc {y : α} (h : Sorts key xs ys) (hle : ∀ x ∈ xs, key x ≤ key y) :
    Sorts key (xs ++ [y]) (ys ++ [y]) :=
  h.append (refl (List.pairwise_singleton _ y)) (by simpa using hle)

theorem map {β : Type} {f : β → α} {xs ys : List β} (h : Sorts (fun x => key (f x)) xs ys) :
    Sorts key (xs.map f) (ys.map f) where
  keeps :=
    { perm := h.keeps.perm.map f
      filter := fun k => by
        rw [List.filter_map, List.filter_map]
        exact congrArg (List.map f) (h.keeps.filter k) }
  ordered := List.pairwise_map.2 h.ordered

theorem eq_of_filter {ys zs : List α} (hys : Ordered key ys) (hzs : Ordered key zs)
    (hperm : ys.Perm zs) (h : ∀ k, ys.filter (key · = k) = zs.filter (key · = k)) : ys = zs := by
  induction ys generalizing zs with
  | nil => exact (List.nil_perm.1 hperm).symm
  | cons y ys ih =>
    match zs with
    | [] => exact absurd hperm.length_eq (Nat.succ_ne_zero _)
    | z :: zs =>
      obtain ⟨hy, hys'⟩ := List.pairwise_cons.1 hys
      obtain ⟨hz, hzs'⟩ := List.pairwise_cons.1 hzs
      -- each list starts with an item of the least key, and the first of these is the same
      have hkey : key y = key z := by
        refine le_antisymm ?_ ?_
        · rcases List.mem_cons.1 (hperm.symm.subset (.head _)) with rfl | hmem
          · exact le_rfl
          · exact hy z hmem
        · rcases List.mem_cons.1 (hperm.subset (.head _)) with rfl | hmem
          · exact le_rfl
          · exact hz y hmem
      have hfirst := h (key y)
      rw [List.filter_cons_of_pos (by simp), List.filter_cons_of_pos (by simp [hkey])] at hfirst
      obtain ⟨rfl, -⟩ := List.cons.inj hfirst
      refine congrArg (y :: ·) (ih hys' hzs' ((List.perm_cons y).1 hperm) fun k => ?_)
      have hrest := h k
      by_cases hk : key y = k
      · rw [List.filter_cons_of_pos (by simp [hk]), List.filter_cons_of_pos (by simp [hk])] at hrest
        exact (List.cons.inj hrest).2
      · rw [List.filter_cons_of_neg (by simp [hk]), List.filter_cons_of_neg (by simp [hk])] at hrest
        exact hrest

/-- There is one way only to sort a list. -/
theorem unique {ys zs : List α} (hys : Sorts key xs ys) (hzs : Sorts key xs zs) : ys = zs :=
  eq_of_filter hys.ordered hzs.ordered (hys.keeps.perm.trans hzs.keeps.perm.symm) fun k =>
    (hys.keeps.filter k).trans (hzs.keeps.filter k).symm

end Sorts

/-! ### Cuts through two sorted lists -/

/-- Two lists are cut into what goes first and what is left. Of two equal items the left list's
one goes first. -/
structure Cut (key : α → κ) (left right left' right' : List α) : Prop where
  le : ∀ x ∈ left, ∀ y ∈ right', key x ≤ key y
  lt : ∀ y ∈ right, ∀ x ∈ left', key y < key x

section

variable {left right xs ys : List α} {x y : α} (h : Cut key left right (x :: xs) (y :: ys))
include h

theorem Cut.takeLeft (hys : Ordered key (y :: ys)) (hle : key x ≤ key y) :
    Cut key (left ++ [x]) right xs (y :: ys) where
  le a ha b hb := by
    rcases List.mem_append.1 ha with ha | ha
    · exact h.le a ha b hb
    rw [List.mem_singleton.1 ha]
    rcases List.mem_cons.1 hb with rfl | hb
    · exact hle
    · exact hle.trans (List.rel_of_pairwise_cons hys hb)
  lt b hb a ha := h.lt b hb a (.tail _ ha)

theorem Cut.takeRight (hxs : Ordered key (x :: xs)) (hlt : key y < key x) :
    Cut key left (right ++ [y]) (x :: xs) ys where
  le a ha b hb := h.le a ha b (.tail _ hb)
  lt b hb a ha := by
    rcases List.mem_append.1 hb with hb | hb
    · exact h.lt b hb a ha
    rw [List.mem_singleton.1 hb]
    rcases List.mem_cons.1 ha with rfl | ha
    · exact hlt
    · exact hlt.trans_le (List.rel_of_pairwise_cons hxs ha)

end

theorem exists_mem_of_overlap {front behind front' behind' : List α}
    (h : front ++ behind = front' ++ behind') (hlonger : front'.length < front.length) :
    ∃ x, x ∈ front ∧ x ∈ behind' := by
  rcases List.append_eq_append_iff.1 h with ⟨c, hc, -⟩ | ⟨c, hc, hbehind⟩
  · rw [hc, List.length_append] at hlonger
    omega
  · rw [hc, List.length_append] at hlonger
    obtain ⟨x, hx⟩ := List.exists_mem_of_length_pos (show 0 < c.length by omega)
    exact ⟨x, hc ▸ List.mem_append_right _ hx, hbehind ▸ List.mem_append_left _ hx⟩

/-- Of two cuts through the same lists the one that takes no more items stands before the
other, with a part of each list between them. -/
theorem Cut.between {left right behind behind' left₁ right₁ left' right' : List α}
    (h : Cut key left right behind behind') (h₁ : Cut key left₁ right₁ left' right')
    (hxs : left ++ behind = left₁ ++ left') (hys : right ++ behind' = right₁ ++ right')
    (hle : left.length + right.length ≤ left₁.length + right₁.length) :
    ∃ mid mid', left₁ = left ++ mid ∧ behind = mid ++ left' ∧ right₁ = right ++ mid' ∧
      behind' = mid' ++ right' := by
  have hleft : left.length ≤ left₁.length := by
    by_contra hmore
    obtain ⟨x, hx, hx'⟩ := exists_mem_of_overlap hxs (by omega)
    obtain ⟨y, hy, hy'⟩ := exists_mem_of_overlap hys.symm (by omega)
    exact absurd (h.le x hx y hy') (not_le.2 (h₁.lt y hy x hx'))
  have hright : right.length ≤ right₁.length := by
    by_contra hmore
    obtain ⟨y, hy, hy'⟩ := exists_mem_of_overlap hys (by omega)
    obtain ⟨x, hx, hx'⟩ := exists_mem_of_overlap hxs.symm (by omega)
    exact absurd (h₁.le x hx y hy') (not_le.2 (h.lt y hy x hx'))
  obtain ⟨mid, rfl⟩ := List.prefix_of_prefix_length_le ⟨behind, hxs⟩ ⟨left', rfl⟩ hleft
  obtain ⟨mid', rfl⟩ := List.prefix_of_prefix_length_le ⟨behind', hys⟩ ⟨right', rfl⟩ hright
  rw [List.append_assoc] at hxs hys
  exact ⟨mid, mid', rfl, List.append_cancel_left hxs, rfl, List.append_cancel_left hys⟩

/-- In lists that are in order a cut parts lower keys from higher ones. -/
theorem Cut.le_behind {left right left' right' : List α} (h : Cut key left right left' right')
    (hxs : Ordered key (left ++ left')) (hys : Ordered key (right ++ right')) :
    ∀ x ∈ left ++ right, ∀ y ∈ left' ++ right', key x ≤ key y := by
  intro x hx y hy
  rcases List.mem_append.1 hx with hx | hx <;> rcases List.mem_append.1 hy with hy | hy
  · exact (List.pairwise_append.1 hxs).2.2 x hx y hy
  · exact h.le x hx y hy
  · exact (h.lt x hx y hy).le
  · exact (List.pairwise_append.1 hys).2.2 x hx y hy

/-- Two lists are sorted from both ends up to two cuts, with one item or none between them. -/
theorem Cut.sorts {left mid left' right mid' right' first last : List α}
    (h : Cut key left right (mid ++ left') (mid' ++ right'))
    (h₁ : Cut key (left ++ mid) (right ++ mid') left' right')
    (hxs : Ordered key (left ++ (mid ++ left'))) (hys : Ordered key (right ++ (mid' ++ right')))
    (hmid : Ordered key (mid ++ mid')) (hfirst : Sorts key (left ++ right) first)
    (hlast : Sorts key (left' ++ right') last) :
    Sorts key (left ++ (mid ++ left') ++ (right ++ (mid' ++ right')))
      (first ++ (mid ++ mid') ++ last) := by
  have hparts : Sorts key (left ++ right ++ (mid ++ mid') ++ (left' ++ right'))
      (first ++ (mid ++ mid') ++ last) := by
    refine (hfirst.append (.refl hmid) ?_).append hlast ?_
    · intro x hx y hy
      refine h.le_behind hxs hys x hx y ?_
      simp only [List.mem_append] at hy ⊢
      tauto
    intro x hx y hy
    rw [← List.append_assoc] at hxs hys
    refine h₁.le_behind hxs hys x ?_ y hy
    simp only [List.mem_append] at hx ⊢
    tauto
  have hright : Keeps key (mid ++ left' ++ right) (right ++ (mid ++ left')) :=
    .swap fun x hx y hy => (h.lt y hy x hx).ne'
  have hmid' : Keeps key (left' ++ mid') (mid' ++ left') :=
    .swap fun x hx y hy => (h₁.lt y (List.mem_append_right _ hy) x hx).ne'
  have hmoved : Keeps key (left ++ (mid ++ left') ++ (right ++ (mid' ++ right')))
      (left ++ right ++ (mid ++ mid') ++ (left' ++ right')) := by
    have hfar := (hright.append_left left).append_right (mid' ++ right')
    have hnear := (hmid'.append_left (left ++ right ++ mid)).append_right right'
    simp only [List.append_assoc] at hfar hnear ⊢
    exact hfar.trans hnear
  exact ⟨hmoved.trans hparts.keeps, hparts.ordered⟩

/-! ### The steps -/

/-- Merging two lists from the front has taken a number of items, and they are sorted. -/
def Merging.Reaches (key : α → κ) (xs ys : List α) (n : Nat) (m : Merging α) : Prop :=
  m.taken.length = n ∧ ∃ left right, left ++ m.left = xs ∧ right ++ m.right = ys ∧
    Cut key left right m.left m.right ∧ Sorts key (left ++ right) m.taken.reverse

theorem Merging.Reaches.start (xs ys : List α) : Merging.Reaches key xs ys 0 ⟨xs, ys, []⟩ :=
  ⟨rfl, [], [], rfl, rfl, ⟨by simp, by simp⟩, .refl .nil⟩

theorem Merging.Reaches.seen {xs ys : List α} {n : Nat} {m : Merging α}
    (h : m.Reaches (fun x => OrderDual.toDual (key x)) ys.reverse xs.reverse n) :
    m.taken.length = n ∧ ∃ left right, m.right.reverse ++ left = xs ∧ m.left.reverse ++ right = ys ∧
      Cut key m.right.reverse m.left.reverse left right ∧ Sorts key (left ++ right) m.taken := by
  obtain ⟨hlength, right, left, hy, hx, hcut, hsorts⟩ := h
  refine ⟨hlength, left.reverse, right.reverse, ?_, ?_, ⟨?_, ?_⟩, ?_⟩
  · rw [← List.reverse_append, hx, List.reverse_reverse]
  · rw [← List.reverse_append, hy, List.reverse_reverse]
  · exact fun x hx y hy => hcut.le y (List.mem_reverse.1 hy) x (List.mem_reverse.1 hx)
  · exact fun y hy x hx => hcut.lt x (List.mem_reverse.1 hx) y (List.mem_reverse.1 hy)
  · simpa using hsorts.reverse

/-- What a comparison answers is told by the keys. -/
structure Ranks (before : α → α → Except ε Bool) (Item : α → Prop) (key : α → κ) : Prop where
  asks {a b : α} : Item a → Item b → before a b = .ok (decide (key a < key b))

namespace Ranks

variable {before : α → α → Except ε Bool} {Item : α → Prop} (h : Ranks before Item key)
include h

theorem turned : Ranks (fun a b => before b a) Item (fun x => OrderDual.toDual (key x)) where
  asks ha hb := h.asks hb ha

variable {xs ys : List α}

theorem insertLast_eq {x : α} (hx : Item x) (hys : ∀ y ∈ ys, Item y)
    (hdown : ys.Pairwise (key · ≥ key ·)) :
    ∃ higher others, ys = higher ++ others ∧ (∀ y ∈ higher, key x < key y) ∧
      (∀ y ∈ others, key y ≤ key x) ∧ insertLast before x ys = .ok (higher ++ x :: others) := by
  induction ys with
  | nil => exact ⟨[], [], rfl, by simp, by simp, rfl⟩
  | cons y ys ih =>
    rw [insertLast, h.asks hx (hys y (.head _))]
    by_cases hlt : key x < key y
    · obtain ⟨higher, others, rfl, hhigher, hothers, hrest⟩ :=
        ih (fun z hz => hys z (.tail _ hz)) (List.pairwise_cons.1 hdown).2
      refine ⟨y :: higher, others, rfl, List.forall_mem_cons.2 ⟨hlt, hhigher⟩, hothers, ?_⟩
      simp only [hlt, decide_true, hrest, List.cons_append]
    have hle : key y ≤ key x := not_lt.1 hlt
    refine ⟨[], y :: ys, rfl, by simp, List.forall_mem_cons.2 ⟨hle, fun z hz => ?_⟩, ?_⟩
    · exact (List.rel_of_pairwise_cons hdown hz).trans hle
    · simp only [hlt, decide_false, List.nil_append]

theorem insertLast_sorts {done : List α} {x : α} (hx : Item x) (hys : ∀ y ∈ ys, Item y)
    (hsorts : Sorts key done ys.reverse) :
    ∃ r, insertLast before x ys = .ok r ∧ Sorts key (done ++ [x]) r.reverse := by
  obtain ⟨higher, others, rfl, hhigher, hothers, heq⟩ :=
    h.insertLast_eq hx hys (List.pairwise_reverse.1 hsorts.ordered)
  refine ⟨_, heq, ?_⟩
  obtain ⟨hkeeps, hordered⟩ := hsorts
  simp only [List.reverse_append, List.reverse_cons] at hkeeps hordered ⊢
  have hpast : Keeps key (higher.reverse ++ [x]) ([x] ++ higher.reverse) := by
    refine .swap fun y hy a ha => ?_
    rw [List.mem_singleton.1 ha]
    exact (hhigher y (List.mem_reverse.1 hy)).ne'
  refine ⟨?_, ?_⟩
  · have hmoved := hpast.append_left others.reverse
    rw [← List.append_assoc] at hmoved
    simpa using (hkeeps.append_right [x]).trans hmoved
  obtain ⟨hothers', hhigher', -⟩ := List.pairwise_append.1 hordered
  have hfirst : Sorts key (others.reverse ++ [x]) (others.reverse ++ [x]) :=
    (Sorts.refl hothers').snoc fun y hy => hothers y (List.mem_reverse.1 hy)
  refine (hfirst.append (.refl hhigher') fun y hy z hz => ?_).ordered
  have hxz : key x ≤ key z := (hhigher z (List.mem_reverse.1 hz)).le
  rcases List.mem_append.1 hy with hy | hy
  · exact (hothers y (List.mem_reverse.1 hy)).trans hxz
  · rwa [List.mem_singleton.1 hy]

theorem mergeInto_sorts (merged : List α) (hxs : ∀ x ∈ xs, Item x) (hys : ∀ y ∈ ys, Item y)
    (hleft : Ordered key xs) (hright : Ordered key ys) :
    ∃ r, mergeInto before merged xs ys = .ok (merged.reverse ++ r) ∧ Sorts key (xs ++ ys) r := by
  fun_induction mergeInto before merged xs ys with
  | case1 merged ys => exact ⟨ys, rfl, .refl hright⟩
  | case2 merged xs =>
    rw [List.append_nil]
    exact ⟨xs, rfl, .refl hleft⟩
  | case3 merged x xs y ys e he =>
    rw [h.asks (hys y (.head _)) (hxs x (.head _))] at he
    cases he
  | case4 merged x xs y ys he ih =>
    rw [h.asks (hys y (.head _)) (hxs x (.head _))] at he
    simp only [Except.ok.injEq, decide_eq_true_eq] at he
    obtain ⟨hy, hright⟩ := List.pairwise_cons.1 hright
    obtain ⟨r, hr, hsorts⟩ := ih hxs (fun z hz => hys z (.tail _ hz)) hleft hright
    have hlt : ∀ z ∈ x :: xs, key y < key z := by
      intro z hz
      rcases List.mem_cons.1 hz with rfl | hz
      · exact he
      · exact he.trans_le (List.rel_of_pairwise_cons hleft hz)
    refine ⟨y :: r, by rw [hr, List.reverse_cons, List.append_assoc]; rfl, ?_⟩
    have hpast : Keeps key (x :: xs ++ [y]) ([y] ++ x :: xs) :=
      .swap fun z hz y' hy' => List.mem_singleton.1 hy' ▸ (hlt z hz).ne'
    have hfirst : Sorts key (y :: (x :: xs ++ ys)) (y :: r) := by
      refine hsorts.cons fun z hz => ?_
      rcases List.mem_append.1 hz with hz | hz
      · exact (hlt z hz).le
      · exact hy z hz
    have hmoved := hpast.append_right ys
    rw [List.append_assoc] at hmoved
    exact ⟨hmoved.trans hfirst.keeps, hfirst.ordered⟩
  | case5 merged x xs y ys he ih =>
    rw [h.asks (hys y (.head _)) (hxs x (.head _))] at he
    simp only [Except.ok.injEq, decide_eq_false_iff_not, not_lt] at he
    obtain ⟨hx, hleft⟩ := List.pairwise_cons.1 hleft
    obtain ⟨r, hr, hsorts⟩ := ih (fun z hz => hxs z (.tail _ hz)) hys hleft hright
    refine ⟨x :: r, by rw [hr, List.reverse_cons, List.append_assoc]; rfl, ?_⟩
    refine hsorts.cons fun z hz => ?_
    rcases List.mem_append.1 hz with hz | hz
    · exact hx z hz
    · rcases List.mem_cons.1 hz with rfl | hz
      · exact he
      · exact he.trans (List.rel_of_pairwise_cons hright hz)

theorem merge_sorts (hxs : ∀ x ∈ xs, Item x) (hys : ∀ y ∈ ys, Item y)
    (hleft : Ordered key xs) (hright : Ordered key ys) :
    ∃ r, merge before xs ys = .ok r ∧ Sorts key (xs ++ ys) r := by
  unfold merge
  split
  · simpa using h.mergeInto_sorts [] hxs hys hleft hright
  have hback : ∃ r, mergeInto (fun y x => before x y) [] ys.reverse xs.reverse = .ok ([] ++ r) ∧
      Sorts (fun x => OrderDual.toDual (key x)) (ys.reverse ++ xs.reverse) r :=
    h.turned.mergeInto_sorts [] (by simpa using hys) (by simpa using hxs)
      (List.pairwise_reverse.2 hright) (List.pairwise_reverse.2 hleft)
  obtain ⟨r, hr, hsorts⟩ := hback
  rw [hr]
  refine ⟨r.reverse, rfl, ?_⟩
  simpa using hsorts.reverse

theorem step_reaches {m : Merging α} {n : Nat} (hxs : ∀ x ∈ xs, Item x) (hys : ∀ y ∈ ys, Item y)
    (hleft : Ordered key xs) (hright : Ordered key ys) (hm : m.Reaches key xs ys n)
    (hx : n < xs.length) (hy : n < ys.length) :
    ∃ m', m.step before = .ok m' ∧ m'.Reaches key xs ys (n + 1) := by
  obtain ⟨hlength, left, right, rfl, rfl, hcut, hsorts⟩ := hm
  have htaken : left.length + right.length = n := by
    rw [← hlength, ← List.length_append, ← hsorts.length_eq, List.length_reverse]
  simp only [List.length_append] at hx hy
  obtain ⟨x, xs, hmx⟩ := List.exists_cons_of_length_pos (show 0 < m.left.length by omega)
  obtain ⟨y, ys, hmy⟩ := List.exists_cons_of_length_pos (show 0 < m.right.length by omega)
  have hbehind := hcut.le_behind hleft hright
  rw [hmx] at hcut hleft hbehind hxs
  rw [hmy] at hcut hright hbehind hys
  have hasked := h.asks (hys y (by simp)) (hxs x (by simp))
  unfold Merging.step
  rw [hmx, hmy]
  by_cases hlt : key y < key x
  · simp only [hasked, hlt, decide_true]
    refine ⟨_, rfl, by simp [hlength], left, right ++ [y], rfl, by simp, ?_, ?_⟩
    · exact hcut.takeRight (List.pairwise_append.1 hleft).2.1 hlt
    · rw [← List.append_assoc, List.reverse_cons]
      exact hsorts.snoc fun a ha => hbehind a ha y (by simp)
  simp only [hasked, hlt, decide_false]
  refine ⟨_, rfl, by simp [hlength], left ++ [x], right, by simp, rfl, ?_, ?_⟩
  · exact hcut.takeLeft (List.pairwise_append.1 hright).2.1 (not_lt.1 hlt)
  have hlast : Sorts key (left ++ right ++ [x]) (m.taken.reverse ++ [x]) :=
    hsorts.snoc fun a ha => hbehind a ha x (by simp)
  have hpast : Keeps key ([x] ++ right) (right ++ [x]) := by
    refine .swap fun a ha b hb => ?_
    rw [List.mem_singleton.1 ha]
    exact (hcut.lt b hb x (.head _)).ne'
  rw [List.append_assoc] at hlast
  rw [List.append_assoc, List.reverse_cons]
  exact ⟨(hpast.append_left left).trans hlast.keeps, hlast.ordered⟩

theorem stepBoth_reaches (n : Nat) {done : Nat} {front back : Merging α}
    (hxs : ∀ x ∈ xs, Item x) (hys : ∀ y ∈ ys, Item y) (hleft : Ordered key xs)
    (hright : Ordered key ys) (hfront : front.Reaches key xs ys done)
    (hback : back.Reaches (fun x => OrderDual.toDual (key x)) ys.reverse xs.reverse done)
    (hx : done + n ≤ xs.length) (hy : done + n ≤ ys.length) :
    ∃ front' back', stepBoth before n front back = .ok (front', back') ∧
      front'.Reaches key xs ys (done + n) ∧
      back'.Reaches (fun x => OrderDual.toDual (key x)) ys.reverse xs.reverse (done + n) := by
  induction n generalizing done front back with
  | zero => exact ⟨front, back, rfl, hfront, hback⟩
  | succ n ih =>
    obtain ⟨front₁, hstep, hfront₁⟩ :=
      h.step_reaches hxs hys hleft hright hfront (by omega) (by omega)
    obtain ⟨back₁, hstep', hback₁⟩ := h.turned.step_reaches (by simpa using hys)
      (by simpa using hxs) (List.pairwise_reverse.2 hright) (List.pairwise_reverse.2 hleft) hback
      (by simp; omega) (by simp; omega)
    obtain ⟨front', back', hboth, hfront', hback'⟩ := ih hfront₁ hback₁ (by omega) (by omega)
    refine ⟨front', back', ?_, ?_⟩
    · simp only [stepBoth, hstep, hstep', hboth]
    · rw [show done + (n + 1) = done + 1 + n by omega]
      exact ⟨hfront', hback'⟩

theorem mergeEnds_sorts (hxs : ∀ x ∈ xs, Item x) (hys : ∀ y ∈ ys, Item y)
    (hleft : Ordered key xs) (hright : Ordered key ys) (hle : xs.length ≤ ys.length)
    (hlonger : ys.length ≤ xs.length + 1) :
    ∃ r, mergeEnds before xs ys = .ok r ∧ Sorts key (xs ++ ys) r := by
  obtain ⟨front, back, hends, hfront, hback⟩ := h.stepBoth_reaches xs.length hxs hys hleft hright
    (.start xs ys) (.start ys.reverse xs.reverse) (by omega) (by omega)
  rw [Nat.zero_add] at hfront hback
  obtain ⟨hlength, left, right, hx, hy, hcut, hsorts⟩ := hfront
  obtain ⟨hlength', left', right', hx', hy', hcut', hsorts'⟩ := hback.seen
  have htaken := hsorts.length_eq
  have htaken' := hsorts'.length_eq
  have hxlength := congrArg List.length hx'
  have hylength := congrArg List.length hy'
  simp only [List.length_append, List.length_reverse] at htaken htaken' hxlength hylength
  obtain ⟨mid, mid', hleft', hbehind, hright', hbehind'⟩ := hcut.between hcut'
    (hx.trans hx'.symm) (hy.trans hy'.symm) (by simp only [List.length_reverse]; omega)
  -- the ends do not overlap, and what is between them is taken as it stands
  have hl : front.left.length + back.right.length = xs.length + mid.length := by
    rw [← back.right.length_reverse, hleft', ← hx, List.length_append, List.length_append]
    omega
  have hr : front.right.length + back.left.length = ys.length + mid'.length := by
    rw [← back.left.length_reverse, hright', ← hy, List.length_append, List.length_append]
    omega
  have hmerged : mergeEnds before xs ys = .ok (front.taken.reverse ++ (mid ++ mid') ++ back.taken) := by
    have hnone : ¬ ((decide (xs.length + mid.length < xs.length) ||
        decide (ys.length + mid'.length < ys.length)) = true) := by simp
    simp only [mergeEnds, hends, hl, hr, if_neg hnone, Nat.add_sub_cancel_left]
    rw [hbehind, hbehind', List.take_left, List.take_left]
  refine ⟨_, hmerged, ?_⟩
  rw [hleft', hright'] at hcut'
  rw [hbehind, hbehind'] at hcut
  rw [hbehind] at hx
  rw [hbehind'] at hy
  subst hx hy
  have hmid : Ordered key (mid ++ mid') := by
    refine pairwise_of_short ?_
    simp only [List.length_append] at *
    omega
  exact hcut.sorts hcut' hleft hright hmid hsorts hsorts'

theorem orderTwo_sorts {a b : α} (ha : Item a) (hb : Item b) :
    ∃ low high, orderTwo before a b = .ok (low, high) ∧ Sorts key [a, b] [low, high] := by
  rw [orderTwo, h.asks hb ha]
  by_cases hlt : key b < key a
  · have hswap : Keeps key ([a] ++ [b]) ([b] ++ [a]) := .swap (by simpa using hlt.ne')
    exact ⟨b, a, by simp [hlt], hswap, List.pairwise_pair.2 hlt.le⟩
  · exact ⟨a, b, by simp [hlt], .refl (List.pairwise_pair.2 (not_lt.1 hlt))⟩

theorem sortFour_sorts {a b c d : α} (ha : Item a) (hb : Item b) (hc : Item c) (hd : Item d) :
    ∃ r, sortFour before a b c d = .ok r ∧ Sorts key [a, b, c, d] r := by
  obtain ⟨a', b', htwo, hab⟩ := h.orderTwo_sorts ha hb
  obtain ⟨c', d', htwo', hcd⟩ := h.orderTwo_sorts hc hd
  have hitems : ∀ x ∈ [a', b', c', d'], Item x := by
    intro x hx
    have := (hab.keeps.append hcd.keeps).perm.subset hx
    simp only [List.cons_append, List.nil_append, List.mem_cons, List.not_mem_nil, or_false] at this
    rcases this with rfl | rfl | rfl | rfl <;> assumption
  simp only [List.mem_cons, List.not_mem_nil, or_false, forall_eq_or_imp, forall_eq] at hitems
  obtain ⟨ha', hb', hc', hd'⟩ := hitems
  have hle : key a' ≤ key b' := List.rel_of_pairwise_cons hab.ordered (.head _)
  have hle' : key c' ≤ key d' := List.rel_of_pairwise_cons hcd.ordered (.head _)
  -- the two that are still open go between a first and a last item
  have hopen {first low high last : α} (hlow : Item low) (hhigh : Item high)
      (hkeeps : Keeps key [a', b', c', d'] [first, low, high, last])
      (hfirst : key first ≤ key low ∧ key first ≤ key high)
      (hlast : key low ≤ key last ∧ key high ≤ key last) :
      ∃ r, (orderTwo before low high >>= fun two => pure [first, two.1, two.2, last]) = .ok r ∧
        Sorts key [a, b, c, d] r := by
    obtain ⟨p, q, hpq, hsorts⟩ := h.orderTwo_sorts hlow hhigh
    have hfour : Sorts key [first, low, high, last] [first, p, q, last] := by
      refine (hsorts.snoc ?_).cons ?_
      · simpa using hlast
      · simp [hfirst, hfirst.1.trans hlast.1]
    rw [hpq]
    exact ⟨_, rfl, ((hab.keeps.append hcd.keeps).trans hkeeps).trans hfour.keeps, hfour.ordered⟩
  have hc'first (hca : key c' < key a') : Keeps key ([a', b'] ++ [c']) ([c'] ++ [a', b']) :=
    .swap (by simp [hca.ne', (hca.trans_le hle).ne'])
  have hb'last (hdb : key d' < key b') : Keeps key ([b'] ++ [c', d']) ([c', d'] ++ [b']) :=
    .swap (by simp [hdb.ne', (hle'.trans_lt hdb).ne'])
  simp only [sortFour, htwo, htwo', h.asks hc' ha', h.asks hd' hb', bind, Except.bind]
  by_cases hca : key c' < key a' <;> by_cases hdb : key d' < key b' <;>
    simp only [hca, hdb, decide_true, decide_false]
  · have hmoved : Keeps key ([b'] ++ [d']) ([d'] ++ [b']) := .swap (by simpa using hdb.ne')
    exact hopen ha' hd' (((hc'first hca).append_right [d']).trans (hmoved.append_left [c', a']))
      ⟨hca.le, hle'⟩ ⟨hle, hdb.le⟩
  · exact hopen ha' hb' ((hc'first hca).append_right [d']) ⟨hca.le, hca.le.trans hle⟩
      ⟨hle.trans (not_lt.1 hdb), not_lt.1 hdb⟩
  · exact hopen hc' hd' ((hb'last hdb).append_left [a'])
      ⟨not_lt.1 hca, (not_lt.1 hca).trans hle'⟩ ⟨hle'.trans hdb.le, hdb.le⟩
  · exact hopen hb' hc' (.refl _) ⟨hle, not_lt.1 hca⟩ ⟨not_lt.1 hdb, hle'⟩

theorem extend_eq (down : Bool) {last : α} {taken rest : List α} (hlast : Item last)
    (hrest : ∀ x ∈ rest, Item x)
    (htaken : (last :: taken).Pairwise fun a b => decide (key a < key b) = down) :
    ∃ r, extend before down last taken rest = .ok r ∧
      r.reverse <+: (last :: taken).reverse ++ rest ∧
      r.Pairwise fun a b => decide (key a < key b) = down := by
  have htrans {a b c : α} (hab : decide (key a < key b) = down)
      (hbc : decide (key b < key c) = down) : decide (key a < key c) = down := by
    cases down
    · simp only [decide_eq_false_iff_not, not_lt] at *
      exact hbc.trans hab
    · simp only [decide_eq_true_eq] at *
      exact hab.trans hbc
  induction rest generalizing last taken with
  | nil => exact ⟨_, rfl, List.prefix_append _ _, htaken⟩
  | cons x rest ih =>
    have hx := hrest x (.head _)
    rw [extend, h.asks hx hlast]
    by_cases hanswer : decide (key x < key last) = down
    · simp only [hanswer, if_true]
      have hlonger : (x :: last :: taken).Pairwise fun a b => decide (key a < key b) = down := by
        refine List.pairwise_cons.2 ⟨fun y hy => ?_, htaken⟩
        rcases List.mem_cons.1 hy with rfl | hy
        · exact hanswer
        · exact htrans hanswer (List.rel_of_pairwise_cons htaken hy)
      obtain ⟨r, hr, hfront, hpairwise⟩ :=
        ih hx (fun y hy => hrest y (.tail _ hy)) hlonger
      rw [List.reverse_cons, List.append_assoc] at hfront
      exact ⟨r, hr, hfront, hpairwise⟩
    · simp only [hanswer, if_false]
      exact ⟨_, rfl, List.prefix_append _ _, htaken⟩

theorem orderedFront_sorts (hxs : ∀ x ∈ xs, Item x) :
    ∃ front, orderedFront before xs = .ok front ∧ Sorts key (xs.take front.length) front := by
  unfold orderedFront
  split
  next x y rest =>
    simp only [List.mem_cons, forall_eq_or_imp] at hxs
    obtain ⟨hx, hy, hrest⟩ := hxs
    obtain ⟨taken, htaken, hfront, hpairwise⟩ := h.extend_eq (decide (key y < key x)) hy hrest
      (List.pairwise_pair.2 rfl)
    have htake : (x :: y :: rest).take taken.length = taken.reverse := by
      rw [← taken.length_reverse]
      exact (List.prefix_iff_eq_take.1 hfront).symm
    simp only [h.asks hy hx, htaken]
    by_cases hlt : key y < key x
    · simp only [hlt, decide_true, decide_eq_true_eq] at hpairwise
      refine ⟨taken, by simp [hlt], ?_, hpairwise.imp fun h => h.le⟩
      have hturned : Keeps key taken.reverse taken.reverse.reverse :=
        .of_reverse (List.pairwise_reverse.2 (hpairwise.imp fun h => h.ne'))
      rwa [List.reverse_reverse, ← htake] at hturned
    simp only [hlt, decide_false, decide_eq_false_iff_not, not_lt] at hpairwise
    refine ⟨taken.reverse, by simp [hlt], ?_⟩
    rw [List.length_reverse, htake]
    exact .refl (List.pairwise_reverse.2 hpairwise)
  next hshort =>
    refine ⟨xs, rfl, ?_⟩
    rw [List.take_length]
    refine .refl (pairwise_of_short ?_)
    rcases xs with _ | ⟨x, _ | ⟨y, rest⟩⟩
    · simp
    · simp
    · exact absurd rfl (hshort x y rest)

omit h in
theorem splitBy_eq {test : α → Except ε Bool} {answer : α → Bool}
    (htest : ∀ x ∈ xs, test x = .ok (answer x)) (left right : List α) :
    splitBy test left right xs =
      .ok ((xs.filter answer).reverse ++ left, (xs.filter (! answer ·)).reverse ++ right) := by
  induction xs generalizing left right with
  | nil => rfl
  | cons x xs ih =>
    have hrest (y : α) (hy : y ∈ xs) := htest y (.tail _ hy)
    rw [splitBy, htest x (.head _)]
    cases hx : answer x with
    | true => simp [ih hrest, hx]
    | false => simp [ih hrest, hx]

theorem split_eq {around : Around α} (hall : ∀ x ∈ around.items, Item x) :
    around.split before = .ok (around.items.filter (key · < key around.pivot),
      around.items.filter fun x => ! decide (key x < key around.pivot)) := by
  have hpivot : around.pivot ∈ around.items := List.mem_append_right _ (.head _)
  have htest (x : α) (hx : x ∈ around.items) :
      before x around.pivot = .ok (decide (key x < key around.pivot)) :=
    h.asks (hall x hx) (hall _ hpivot)
  simp only [Around.split, bind, Except.bind, pure, Except.pure,
    splitBy_eq fun x hx => htest x (List.mem_append_left _ hx),
    splitBy_eq fun x hx => htest x (List.mem_append_right _ (.tail _ hx))]
  simp [Around.items]

theorem splitEqual_eq {around : Around α} (hall : ∀ x ∈ around.items, Item x) :
    around.splitEqual before = .ok (around.items.filter (fun x => ! decide (key around.pivot < key x)),
      around.items.filter fun x => ! ! decide (key around.pivot < key x)) := by
  have hpivot : around.pivot ∈ around.items := List.mem_append_right _ (.head _)
  have htest (x : α) (hx : x ∈ around.items) :
      (before around.pivot x).map not = .ok (! decide (key around.pivot < key x)) := by
    rw [h.asks (hall _ hpivot) (hall x hx)]
    rfl
  simp only [Around.splitEqual, bind, Except.bind, pure, Except.pure,
    splitBy_eq fun x hx => htest x (List.mem_append_left _ hx),
    splitBy_eq fun x hx => htest x (List.mem_append_right _ (.tail _ hx))]
  simp [Around.items]

/-- The law that a sort puts the items in order and keeps those of one key as they stand. -/
def law : Law before where
  Fault _ := False
  Item := Item
  Below b xs := ∀ x ∈ xs, key b ≤ key x
  Gives xs ys := Sorts key xs ys ∧ ∀ x ∈ xs, Item x
  items hgives := hgives.1.all hgives.2
  perm hgives := hgives.1.keeps.perm
  short hxs hlength := ⟨.refl (pairwise_of_short hlength), hxs⟩
  asks ha hb := .of_ok ⟨_, h.asks ha hb, trivial⟩
  insertLast {done sorted x} hdone hx := by
    have hsorted (y : α) (hy : y ∈ sorted) : Item y :=
      hdone.1.all hdone.2 y (List.mem_reverse.2 hy)
    obtain ⟨r, hr, hsorts⟩ := h.insertLast_sorts hx hsorted hdone.1
    exact .of_ok ⟨r, hr, hsorts, List.forall_mem_append.2 ⟨hdone.2, by simpa using hx⟩⟩
  sortFour ha hb hc hd := by
    obtain ⟨r, hr, hsorts⟩ := h.sortFour_sorts ha hb hc hd
    exact .of_ok ⟨r, hr, hsorts, by simp [ha, hb, hc, hd]⟩
  merge {xs ys xs' ys'} hxs hys := by
    obtain ⟨r, hr, hsorts⟩ := h.merge_sorts (hxs.1.all hxs.2) (hys.1.all hys.2) hxs.1.ordered
      hys.1.ordered
    exact .of_ok ⟨r, hr, hsorts.of_keeps (hxs.1.keeps.append hys.1.keeps),
      List.forall_mem_append.2 ⟨hxs.2, hys.2⟩⟩
  mergeEnds {xs ys xs' ys'} hxs hys hle hlonger := by
    have hx := hxs.1.length_eq
    have hy := hys.1.length_eq
    obtain ⟨r, hr, hsorts⟩ := h.mergeEnds_sorts (hxs.1.all hxs.2) (hys.1.all hys.2) hxs.1.ordered
      hys.1.ordered (by omega) (by omega)
    exact .of_ok ⟨r, hr, hsorts.of_keeps (hxs.1.keeps.append hys.1.keeps),
      List.forall_mem_append.2 ⟨hxs.2, hys.2⟩⟩
  orderedFront hxs := by
    obtain ⟨front, hfront, hsorts⟩ := h.orderedFront_sorts hxs
    exact .of_ok ⟨front, hfront, hsorts, fun x hx => hxs x (List.take_subset _ _ hx)⟩
  below_subset hbelow hsubset x hx := hbelow x (hsubset hx)
  least {b p xs} hbelow hp hb hp' := by
    refine .of_ok ⟨_, h.asks hb hp', fun hnot x hx => ?_⟩
    exact (not_lt.1 (of_decide_eq_false hnot)).trans (hbelow x hx)
  split {xs} hxs := by
    refine .of_ok ⟨_, h.split_eq hxs, fun hnil x hx => ?_, List.filter_sublist.subset,
      List.filter_sublist.subset, fun x hx => ?_, fun l r hl hr => ⟨?_, hxs⟩⟩
    · exact not_lt.1 fun hlt => List.filter_eq_nil_iff.1 hnil x hx (decide_eq_true hlt)
    · simpa using (List.mem_filter.1 hx).2
    refine (hl.1.append hr.1 fun x hx y hy => ?_).of_keeps
      (.partition (fun k => decide (k < key xs.pivot)) xs.items)
    simp only [List.mem_filter, decide_eq_true_eq, Bool.not_eq_true', decide_eq_false_iff_not,
      not_lt] at hx hy
    exact hx.2.le.trans hy.2
  splitEqual {xs} hxs hbelow := by
    refine .of_ok ⟨_, h.splitEqual_eq hxs, List.filter_sublist.subset, fun r hr => ⟨?_, hxs⟩⟩
    have hequal : Ordered key (xs.items.filter fun x => ! decide (key xs.pivot < key x)) := by
      refine List.pairwise_of_forall_mem_list fun x hx y hy => ?_
      simp only [List.mem_filter, Bool.not_eq_true', decide_eq_false_iff_not, not_lt] at hx
      exact hx.2.trans (hbelow y (List.mem_filter.1 hy).1)
    refine ((Sorts.refl hequal).append hr.1 fun x hx y hy => ?_).of_keeps
      (.partition (fun k => ! decide (key xs.pivot < k)) xs.items)
    simp only [List.mem_filter, Bool.not_eq_true', decide_eq_false_iff_not, not_lt, Bool.not_not,
      decide_eq_true_eq] at hx hy
    exact hx.2.trans hy.2.le

end Ranks

end Scripting.Sort

namespace Scripting

/-- A sort whose comparisons are told by keys succeeds and sorts by them. -/
theorem sortBy_sorts {α κ ε : Type} [LinearOrder κ] {before : α → α → Except ε Bool}
    {Item : α → Prop} {key : α → κ} (h : Sort.Ranks before Item key) (widest : Sort.Group)
    (room : Nat) {xs : List α} (hxs : ∀ x ∈ xs, Item x) :
    ∃ ys, sortBy widest room before xs = .ok ys ∧ Sort.Sorts key xs ys := by
  have hends := sortBy_law h.law widest room hxs
  cases hsort : sortBy widest room before xs with
  | error e =>
    rw [hsort] at hends
    exact absurd hends id
  | ok ys =>
    rw [hsort] at hends
    exact ⟨ys, rfl, hends.1⟩

end Scripting
