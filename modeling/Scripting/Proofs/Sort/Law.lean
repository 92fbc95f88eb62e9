/-
# Laws of sorting

The sorts are put together from a few steps: inserting an item, sorting four, merging two
sorted lists in one of two ways, finding items in order at the front, and splitting a list at
a pivot. A law says of a list what sorting it may give and what it may fail with, and that the
steps keep to this. Then every sort keeps to it (`sortBy_law`): the way from the steps to the
sorts is the same for all laws, and it is gone here once.
-/
import Mathlib.Data.List.Basic
import Scripting.Sort

namespace Scripting

/-- A computation ends with a result or with an error of which something holds. -/
def Ends {ε α : Type} (E : ε → Prop) (P : α → Prop) : Except ε α → Prop
  | .ok a => P a
  | .error e => E e

namespace Ends

variable {ε α β : Type} {E : ε → Prop} {P : α → Prop} {Q : β → Prop}

theorem pure {a : α} (h : P a) : Ends E P (Pure.pure a : Except ε α) := h

theorem of_ok {x : Except ε α} (h : ∃ a, x = .ok a ∧ P a) : Ends E P x := by
  obtain ⟨a, rfl, ha⟩ := h
  exact ha

/-- What is shown of every end that is allowed holds of a computation with such an end. -/
@[elab_as_elim]
theorem elim {x : Except ε α} {motive : Except ε α → Prop} (hx : Ends E P x)
    (error : ∀ e, E e → motive (.error e)) (ok : ∀ a, P a → motive (.ok a)) : motive x := by
  cases x with
  | error e => exact error e hx
  | ok a => exact ok a hx

theorem bind {x : Except ε α} {next : α → Except ε β} (hx : Ends E P x)
    (hn : ∀ a, P a → Ends E Q (next a)) : Ends E Q (x >>= next) :=
  hx.elim (fun _ he => he) hn

theorem imp {x : Except ε α} {P' : α → Prop} (hx : Ends E P x) (h : ∀ a, P a → P' a) :
    Ends E P' x :=
  hx.elim (fun _ he => he) h

theorem map {x : Except ε α} {f : α → β} (hx : Ends E P x) (h : ∀ a, P a → Q (f a)) :
    Ends E Q (x.map f) :=
  hx.elim (fun _ he => he) h

theorem ite {p : Prop} [Decidable p] {x y : Except ε α} (hx : p → Ends E P x)
    (hy : ¬ p → Ends E P y) : Ends E P (if p then x else y) := by
  split
  next h => exact hx h
  next h => exact hy h

end Ends

end Scripting

namespace Scripting.Sort

variable {α ε : Type} {before : α → α → Except ε Bool}

theorem pairwise_of_short {R : α → α → Prop} {xs : List α} (h : xs.length ≤ 1) :
    xs.Pairwise R := by
  match xs with
  | [] => exact .nil
  | [x] => exact List.pairwise_singleton R x

def Around.items (xs : Around α) : List α := xs.front ++ xs.pivot :: xs.behind

/-- What sorting a list may give and what it may fail with, kept by the steps of the sorts.
Only some items may be compared at all. An item can be below a list, which is what a sort by
pivots knows of its bound. -/
structure Law (before : α → α → Except ε Bool) where
  Fault : ε → Prop
  Item : α → Prop
  Below : α → List α → Prop
  Gives : List α → List α → Prop
  items {xs ys : List α} : Gives xs ys → ∀ y ∈ ys, Item y
  perm {xs ys : List α} : Gives xs ys → ys.Perm xs
  short {xs : List α} : (∀ x ∈ xs, Item x) → xs.length ≤ 1 → Gives xs xs
  asks {a b : α} : Item a → Item b → Ends Fault (fun _ => True) (before a b)
  insertLast {done sorted : List α} {x : α} : Gives done sorted.reverse → Item x →
    Ends Fault (fun r => Gives (done ++ [x]) r.reverse) (insertLast before x sorted)
  sortFour {a b c d : α} : Item a → Item b → Item c → Item d →
    Ends Fault (Gives [a, b, c, d]) (sortFour before a b c d)
  merge {xs ys xs' ys' : List α} : Gives xs xs' → Gives ys ys' →
    Ends Fault (Gives (xs ++ ys)) (merge before xs' ys')
  mergeEnds {xs ys xs' ys' : List α} : Gives xs xs' → Gives ys ys' →
    xs.length ≤ ys.length → ys.length ≤ xs.length + 1 →
    Ends Fault (Gives (xs ++ ys)) (mergeEnds before xs' ys')
  orderedFront {xs : List α} : (∀ x ∈ xs, Item x) →
    Ends Fault (fun front => Gives (xs.take front.length) front) (orderedFront before xs)
  below_subset {b : α} {xs ys : List α} : Below b xs → ys ⊆ xs → Below b ys
  least {b p : α} {xs : List α} : Below b xs → p ∈ xs → Item b → Item p →
    Ends Fault (fun answer => answer = false → Below p xs) (before b p)
  split {xs : Around α} : (∀ x ∈ xs.items, Item x) →
    Ends Fault (fun parts => (parts.1 = [] → Below xs.pivot xs.items) ∧
      parts.1 ⊆ xs.items ∧ parts.2 ⊆ xs.items ∧ Below xs.pivot parts.2 ∧
      ∀ l r, Gives parts.1 l → Gives parts.2 r → Gives xs.items (l ++ r)) (xs.split before)
  splitEqual {xs : Around α} : (∀ x ∈ xs.items, Item x) → Below xs.pivot xs.items →
    Ends Fault (fun parts => parts.2 ⊆ xs.items ∧
      ∀ r, Gives parts.2 r → Gives xs.items (parts.1 ++ r)) (xs.splitEqual before)

variable {L : Law before} {xs ys : List α}

def Law.All (L : Law before) (xs : List α) : Prop := ∀ x ∈ xs, L.Item x

theorem Law.All.right (h : L.All (xs ++ ys)) : L.All ys :=
  fun x hx => h x (List.mem_append_right _ hx)

theorem Law.All.subset (h : L.All ys) (hxs : xs ⊆ ys) : L.All xs := fun x hx => h x (hxs hx)

/-! ### Short lists -/

theorem insertAll_ends {Fault : ε → Prop} {Item : α → Prop} {Gives : List α → List α → Prop}
    (hinsert : ∀ {done sorted x}, Gives done sorted.reverse → Item x →
      Ends Fault (fun r => Gives (done ++ [x]) r.reverse) (insertLast before x sorted))
    {done sorted rest : List α} (h : Gives done sorted.reverse) (hrest : ∀ x ∈ rest, Item x) :
    Ends Fault (Gives (done ++ rest)) (insertAll before sorted rest) := by
  induction rest generalizing done sorted with
  | nil => rwa [List.append_nil]
  | cons x rest ih =>
    rw [insertAll]
    refine (hinsert h (hrest x (.head _))).elim (fun _ he => he) fun _ hinserted => ?_
    have hall := ih hinserted fun y hy => hrest y (.tail _ hy)
    rwa [List.append_assoc, List.singleton_append] at hall

theorem insertAll_law {done sorted rest : List α} (h : L.Gives done sorted.reverse)
    (hrest : L.All rest) :
    Ends L.Fault (L.Gives (done ++ rest)) (insertAll before sorted rest) :=
  insertAll_ends L.insertLast h hrest

theorem sortGroup_law (group : Group) (h : L.All xs) :
    Ends L.Fault (fun parts => ∃ front, L.Gives front parts.1 ∧ xs = front ++ parts.2)
      (sortGroup before group xs) := by
  unfold sortGroup
  split
  next a b c d e f g h' rest =>
    simp only [Law.All, List.mem_cons, forall_eq_or_imp] at h
    obtain ⟨ha, hb, hc, hd, he, hf, hg, hh, -⟩ := h
    refine (L.sortFour ha hb hc hd).bind fun left hleft =>
      (L.sortFour he hf hg hh).bind fun right hright => ?_
    refine (L.mergeEnds hleft hright (by simp) (by simp)).bind fun merged hmerged => ?_
    exact .pure ⟨_, hmerged, rfl⟩
  next a b c d rest =>
    simp only [Law.All, List.mem_cons, forall_eq_or_imp] at h
    obtain ⟨ha, hb, hc, hd, -⟩ := h
    exact (L.sortFour ha hb hc hd).bind fun sorted hsorted => .pure ⟨_, hsorted, rfl⟩
  · have hshort : (xs.take 1).length ≤ 1 := List.length_take_le 1 xs
    exact ⟨xs.take 1, L.short (h.subset (List.take_subset _ _)) hshort,
      (List.take_append_drop 1 xs).symm⟩

theorem sortShort_law (widest : Group) (h : L.All xs) :
    Ends L.Fault (L.Gives xs) (sortShort before widest xs) := by
  have hleft : L.All (xs.take (xs.length / 2)) := h.subset (List.take_subset _ _)
  have hright : L.All (xs.drop (xs.length / 2)) := h.subset (List.drop_subset _ _)
  refine (sortGroup_law _ hleft).bind fun ⟨left, leftRest⟩ ⟨front, hfront, hl⟩ => ?_
  refine (sortGroup_law _ hright).bind fun ⟨right, rightRest⟩ ⟨front', hfront', hr⟩ => ?_
  rw [hl] at hleft
  rw [hr] at hright
  rw [← left.reverse_reverse] at hfront
  rw [← right.reverse_reverse] at hfront'
  refine (insertAll_law hfront hleft.right).bind fun ys hys => ?_
  refine (insertAll_law hfront' hright.right).bind fun zs hzs => ?_
  rw [← hl] at hys
  rw [← hr] at hzs
  have hmerged := L.mergeEnds hys hzs (by simp; omega) (by simp; omega)
  rwa [List.take_append_drop] at hmerged

/-! ### Stretches -/

/-- A stretch holds what sorting some items gives, or the items themselves. -/
def Law.Stands (L : Law before) (items : List α) (s : Stretch α) : Prop :=
  if s.sorted then L.Gives items s.items else s.items = items ∧ L.All items

/-- The waiting stretches hold some items, the nearest one the last of them. -/
inductive Law.Waits (L : Law before) : List α → List (Stretch α × Nat) → Prop
  | nil : Waits L [] []
  | cons {front items : List α} {s : Stretch α} {depth : Nat} {waiting : List (Stretch α × Nat)}
      (hwaits : Waits L front waiting) (hs : L.Stands items s) :
      Waits L (front ++ items) ((s, depth) :: waiting)

/-- What is put off is sorted by the law, too. -/
def Law.Allows (L : Law before) (how : Sorting α ε) : Prop :=
  ∀ room sort, how = .later room sort → ∀ xs, L.All xs → Ends L.Fault (L.Gives xs) (sort xs)

theorem Law.allows_atOnce : L.Allows .atOnce := by
  intro room sort h
  cases h

section Stretches

variable (widest : Group) {how : Sorting α ε} (hhow : L.Allows how)
include hhow

theorem inOrder_law {s : Stretch α} (h : L.Stands xs s) :
    Ends L.Fault (L.Gives xs) (s.inOrder before widest how) := by
  unfold Stretch.inOrder
  unfold Law.Stands at h
  split
  next hs => rwa [if_pos hs] at h
  next hs =>
    rw [if_neg hs] at h
    obtain ⟨rfl, hall⟩ := h
    cases how with
    | atOnce => exact sortShort_law widest hall
    | later room sort => exact hhow room sort rfl s.items hall

theorem join_law {left right : Stretch α} (hleft : L.Stands xs left) (hright : L.Stands ys right) :
    Ends L.Fault (L.Stands (xs ++ ys)) (Stretch.join before widest how left right) := by
  unfold Stretch.join
  refine .ite (fun hputs => ?_) fun _ => ?_
  · have hunsorted : left.sorted = false ∧ right.sorted = false := by
      cases how with
      | atOnce => cases hputs
      | later => simp_all [Sorting.puts]
    rw [Law.Stands, hunsorted.1] at hleft
    rw [Law.Stands, hunsorted.2] at hright
    obtain ⟨rfl, hall⟩ := hleft
    obtain ⟨rfl, hall'⟩ := hright
    refine .pure ⟨rfl, fun x hx => ?_⟩
    rcases List.mem_append.1 hx with hx | hx
    · exact hall x hx
    · exact hall' x hx
  · refine (inOrder_law widest hhow hleft).bind fun xs' hxs => ?_
    refine (inOrder_law widest hhow hright).bind fun ys' hys => ?_
    exact (L.merge hxs hys).bind fun merged hmerged => .pure hmerged

end Stretches

theorem firstStretch_law (widest : Group) (how : Sorting α ε) {wanted : Nat}
    (hwanted : 0 < wanted) (length : Nat) (h : L.All xs) :
    Ends L.Fault (fun s => (xs ≠ [] → s.items ≠ []) ∧ L.Stands (xs.take s.items.length) s)
      (firstStretch before widest how wanted length xs) := by
  have hfirst {piece : Except ε (Stretch α)} (hpiece : Ends L.Fault
      (fun s => (xs ≠ [] → s.items ≠ []) ∧ L.Stands (xs.take s.items.length) s) piece) :
      Ends L.Fault (fun s => (xs ≠ [] → s.items ≠ []) ∧ L.Stands (xs.take s.items.length) s)
        (if wanted ≤ length then do
          let front ← orderedFront before xs
          if wanted ≤ front.length then return ⟨front, true⟩ else piece
        else piece) := by
    refine .ite (fun _ => ?_) fun _ => hpiece
    refine (L.orderedFront h).bind fun front hfront => .ite (fun hlong => ?_) fun _ => hpiece
    exact .pure ⟨fun _ hnil => by simp_all, hfront⟩
  cases how with
  | atOnce =>
    refine hfirst ?_
    refine (sortShort_law widest (h.subset (List.take_subset _ _))).bind fun sorted hsorted => ?_
    have hperm := L.perm hsorted
    refine .pure ⟨fun hxs (hnil : sorted = []) => ?_, ?_⟩
    · rw [hnil, List.nil_perm] at hperm
      simp [shortLength, hxs] at hperm
    · rw [hperm.length_eq, List.length_take, ← List.take_take, List.take_length]
      exact hsorted
  | later room sort =>
    refine hfirst (.pure ⟨fun hxs => by simpa [Nat.ne_of_gt hwanted] using hxs, ?_⟩)
    have htake : xs.take wanted = xs.take (xs.take wanted).length := by
      rw [List.length_take, ← List.take_take, List.take_length]
    exact ⟨htake, h.subset (List.take_subset _ _)⟩

theorem wantedLength_pos {length : Nat} (h : 0 < length) : 0 < wantedLength length := by
  unfold wantedLength
  split
  · omega
  have : 2 ^ 1 ≤ Nat.pow 2 ((1 + length.log2) / 2) := by
    refine Nat.pow_le_pow_right (by decide) ?_
    have : 2 ≤ length.log2 := (Nat.le_log2 (by omega)).2 (by omega)
    omega
  exact Nat.div_pos (Nat.le_trans this (Nat.le_add_right _ _)) (by decide)

theorem joinDeeper_law {join : Stretch α → Stretch α → Except ε (Stretch α)}
    (hjoin : ∀ {xs ys s t}, L.Stands xs s → L.Stands ys t →
      Ends L.Fault (L.Stands (xs ++ ys)) (join s t)) (depth : Nat) {front items : List α}
    {waiting : List (Stretch α × Nat)} {s : Stretch α} (hwaits : L.Waits front waiting)
    (hs : L.Stands items s) :
    Ends L.Fault (fun parts => (depth = 0 → parts.1 = []) ∧ ∃ front' items',
      L.Waits front' parts.1 ∧ L.Stands items' parts.2 ∧ front' ++ items' = front ++ items)
      (joinDeeper join depth waiting s) := by
  induction hwaits generalizing items s with
  | nil => exact ⟨fun _ => rfl, [], items, .nil, hs, rfl⟩
  | @cons front lefts left d waiting hwaits hleft ih =>
    rw [joinDeeper]
    refine .ite (fun _ => ?_) fun hdepth => ?_
    · refine (hjoin hleft hs).elim (fun _ he => he) fun joined hjoined => ?_
      rw [List.append_assoc]
      exact ih hjoined
    · exact ⟨fun h => absurd (Nat.zero_le d) (h ▸ hdepth), _, items, .cons hwaits hleft, hs, rfl⟩

theorem readStretches_law {first : Nat → List α → Except ε (Stretch α)}
    {join : Stretch α → Stretch α → Except ε (Stretch α)}
    (hfirst : ∀ n {xs}, L.All xs → Ends L.Fault
      (fun s => (xs ≠ [] → s.items ≠ []) ∧ L.Stands (xs.take s.items.length) s) (first n xs))
    (hjoin : ∀ {xs ys s t}, L.Stands xs s → L.Stands ys t →
      Ends L.Fault (L.Stands (xs ++ ys)) (join s t)) (length position : Nat)
    {waiting : List (Stretch α × Nat)} {s : Stretch α} {front items rest : List α}
    (hwaits : L.Waits front waiting) (hs : L.Stands items s) (hrest : L.All rest) :
    Ends L.Fault (L.Stands (front ++ items ++ rest))
      (readStretches first join length waiting s position rest) := by
  fun_induction readStretches first join length waiting s position rest generalizing front items with
  | case1 waiting s position e he =>
    have hjoined := joinDeeper_law hjoin 0 hwaits hs
    rw [he] at hjoined
    exact hjoined
  | case2 waiting s position _ joined he =>
    have hjoined := joinDeeper_law hjoin 0 hwaits hs
    rw [he] at hjoined
    obtain ⟨hnil, front', items', hwaits', hs', heq⟩ := hjoined
    cases hnil rfl
    cases hwaits'
    rw [List.append_nil, ← heq]
    exact hs'
  | case3 waiting s position x xs e he =>
    have hnext := hfirst (length - position) hrest
    rw [he] at hnext
    exact hnext
  | case4 waiting s position x xs next _ width depth =>
    rename_i e he
    have hjoined := joinDeeper_law hjoin depth hwaits hs
    rw [he] at hjoined
    exact hjoined
  | case5 waiting s position x xs next hnext width depth waiting' s' =>
    rename_i he ih
    have hfound := hfirst (length - position) hrest
    rw [hnext] at hfound
    obtain ⟨hne, hstands⟩ := hfound
    have hjoined := joinDeeper_law hjoin depth hwaits hs
    rw [he] at hjoined
    obtain ⟨-, front', items', hwaits', hs', heq⟩ := hjoined
    -- a stretch has items, so nothing but these is dropped
    have hwidth : width = next.items.length :=
      Nat.max_eq_right (List.length_pos_iff.2 (hne (List.cons_ne_nil _ _)))
    have hparts : front' ++ items' ++ (x :: xs).take next.items.length ++ (x :: xs).drop width =
        front ++ items ++ x :: xs := by
      rw [hwidth, heq, List.append_assoc (front ++ items), List.take_append_drop]
    rw [← hparts]
    exact ih (.cons hwaits' hs') hstands (hrest.subset (List.drop_subset _ _))

theorem sortStretches_law (widest : Group) {how : Sorting α ε} (hhow : L.Allows how)
    (hne : xs ≠ []) (h : L.All xs) :
    Ends L.Fault (L.Gives xs) (sortStretches before widest how xs) := by
  have hwanted : 0 < wantedLength xs.length := wantedLength_pos (List.length_pos_iff.2 hne)
  refine (firstStretch_law widest how hwanted xs.length h).bind fun start ⟨_, hstart⟩ => ?_
  have hall := readStretches_law (fun n _ => firstStretch_law widest how hwanted n)
    (join_law widest hhow)
    xs.length start.items.length .nil hstart (h.subset (List.drop_subset start.items.length xs))
  rw [List.nil_append, List.take_append_drop] at hall
  exact hall.bind fun all hall => inOrder_law widest hhow hall

/-! ### Pivots -/

theorem medianOfThree_law {item : Nat → α} (hitem : ∀ i, L.Item (item i)) (a b c : Nat) :
    Ends L.Fault (fun _ => True) (medianOfThree before item a b c) :=
  (L.asks (hitem a) (hitem b)).bind fun _ _ => (L.asks (hitem a) (hitem c)).bind fun _ _ =>
    .ite (fun _ => (L.asks (hitem b) (hitem c)).bind fun _ _ => .pure trivial)
      fun _ => .pure trivial

theorem medianAround_law {item : Nat → α} (hitem : ∀ i, L.Item (item i)) (a b c stride : Nat) :
    Ends L.Fault (fun _ => True) (medianAround before item a b c stride) := by
  fun_induction medianAround before item a b c stride with
  | case1 a b c stride _ m iha ihb ihc =>
    exact iha.bind fun a _ => ihb.bind fun b _ => ihc.bind fun c _ =>
      medianOfThree_law hitem a b c
  | case2 a b c stride => exact medianOfThree_law hitem a b c

theorem choosePivot_law {first : α} {rest : List α} (h : L.All (first :: rest)) :
    Ends L.Fault (fun xs => xs.items = first :: rest) (choosePivot before first rest) := by
  have hitem (i : Nat) : L.Item ((first :: rest).toArray.getD i first) := by
    rw [Array.getD_eq_getD_getElem?, List.getElem?_toArray]
    cases hget : (first :: rest)[i]? with
    | none => exact h first (.head _)
    | some x => exact h x (List.mem_of_getElem? hget)
  refine (medianAround_law hitem _ _ _ _).bind fun position _ => .pure ?_
  unfold Around.ofPosition
  split
  next front pivot behind hsplit =>
    rw [List.splitAt_eq, Prod.mk.injEq] at hsplit
    obtain ⟨rfl, hbehind⟩ := hsplit
    rw [Around.items, ← hbehind, List.take_append_drop]
  · rfl

/-- Two parts of a list around a pivot that give, sorted apart, what the list gives. -/
def Law.Divides (L : Law before) (xs : Around α) (left right : List α) : Prop :=
  left ⊆ xs.items ∧ right ⊆ xs.items ∧ L.Below xs.pivot right ∧
    ∀ l r, L.Gives left l → L.Gives right r → L.Gives xs.items (l ++ r)

theorem sortWithin_law (widest : Group) (splits : Nat) {bound : Option α} (h : L.All xs)
    (hbound : ∀ b, bound = some b → L.Item b ∧ L.Below b xs) :
    Ends L.Fault (L.Gives xs) (sortWithin before widest splits bound xs) := by
  induction splits generalizing bound xs with
  | zero =>
    cases xs with
    | nil => exact L.short h (Nat.zero_le _)
    | cons x xs =>
      rw [sortWithin]
      · exact .ite (fun _ => sortShort_law widest h) fun _ =>
          sortStretches_law widest Law.allows_atOnce (List.cons_ne_nil _ _) h
      · simp
  | succ splits ih =>
    cases xs with
    | nil => exact L.short h (Nat.zero_le _)
    | cons x xs =>
      rw [sortWithin]
      refine .ite (fun _ => sortShort_law widest h) fun _ => ?_
      refine (choosePivot_law h).bind fun around haround => ?_
      rw [← haround] at h hbound ⊢
      have hpivot : around.pivot ∈ around.items := List.mem_append_right _ (.head _)
      -- either nothing comes before the pivot, or both parts have to be sorted
      have hparts (left right : List α) (hleast : left = [] → L.Below around.pivot around.items)
          (hdivides : left ≠ [] → L.Divides around left right) :
          Ends L.Fault (L.Gives around.items) (if left.isEmpty then do
            let parts ← around.splitEqual before
            return parts.1 ++ (← sortWithin before widest splits none parts.2)
          else do
            let right ← sortWithin before widest splits (some around.pivot) right
            let left ← sortWithin before widest splits bound left
            return left ++ right) := by
        refine .ite (fun hempty => ?_) fun hempty => ?_
        · refine (L.splitEqual h (hleast (List.isEmpty_iff.1 hempty))).bind fun parts hparts => ?_
          refine (ih (h.subset hparts.1) (by simp)).bind fun sorted hsorted => .pure ?_
          exact hparts.2 sorted hsorted
        obtain ⟨hleft, hright, hbelow, hgives⟩ := hdivides fun hnil => hempty (by simp [hnil])
        refine (ih (h.subset hright) ?_).bind fun r hr => ?_
        · rintro b ⟨⟩
          exact ⟨h _ hpivot, hbelow⟩
        refine (ih (h.subset hleft) fun b hb => ?_).bind fun l hl => .pure (hgives l r hl hr)
        exact ⟨(hbound b hb).1, L.below_subset (hbound b hb).2 hleft⟩
      have hsplit (least : Bool) (hleast : least = true → L.Below around.pivot around.items)
          {next : List α × List α → Except ε (List α)}
          (hnext : ∀ left right, (left = [] → L.Below around.pivot around.items) →
            (left ≠ [] → L.Divides around left right) →
            Ends L.Fault (L.Gives around.items) (next (left, right))) :
          Ends L.Fault (L.Gives around.items) (if least = true then .ok ([], []) >>= next
            else around.split before >>= next) := by
        refine .ite (fun h => ?_) fun _ => ?_
        · exact hnext [] [] (fun _ => hleast h) fun hne => absurd rfl hne
        · exact (L.split h).bind fun ⟨left, right⟩ ⟨hnil, hdivides⟩ =>
            hnext left right hnil fun _ => hdivides
      cases bound with
      | none => exact hsplit false (by simp) hparts
      | some b =>
        obtain ⟨hb, hbelow⟩ := hbound b rfl
        have hasked := L.least hbelow hpivot hb (h _ hpivot)
        refine (hasked.map (Q := fun least => least = true → L.Below around.pivot around.items)
          ?_).bind fun least hleast => hsplit least hleast hparts
        rintro (_ | _) hanswer hnot
        · exact hanswer rfl
        · cases hnot

end Scripting.Sort

namespace Scripting

/-- Every sort of a list of items keeps to a law that the steps keep to. -/
theorem sortBy_law {α ε : Type} {before : α → α → Except ε Bool} (L : Sort.Law before)
    (widest : Sort.Group) (room : Nat) {xs : List α} (h : L.All xs) :
    Ends L.Fault (L.Gives xs) (sortBy widest room before xs) := by
  refine .ite (fun _ => ?_) fun hlong => .ite (fun _ => ?_) fun _ => ?_
  · exact Sort.insertAll_law (L.short (by simp) (Nat.zero_le _)) h
  all_goals
    have hne : xs ≠ [] := by
      rintro rfl
      exact hlong (Nat.zero_le _)
  · exact Sort.sortStretches_law widest Sort.Law.allows_atOnce hne h
  refine Sort.sortStretches_law widest ?_ hne h
  rintro room sort hlater ys hys
  cases hlater
  exact Sort.sortWithin_law widest _ hys (by simp)

end Scripting
