/-
# Sorting connects all items

A sort that comes to an end gives the items of its list, and it has connected any two of them
by comparisons. So where comparing two items is possible just if they are related, by a
relation that is symmetric and transitive, all the items are related. This holds whatever the
comparisons answer, even if the answers fit no order at all.
-/
import Mathlib.Data.List.Pairwise
import Scripting.Proofs.Sort.Law

namespace Scripting.Sort

variable {α ε : Type}

/-- Comparing two items fails with some errors only, and if it does not fail they are
related. -/
structure Links (before : α → α → Except ε Bool) (Item : α → Prop) (Fault : ε → Prop)
    (R : α → α → Prop) : Prop where
  asks {a b : α} : Item a → Item b → Ends Fault (fun _ => R a b) (before a b)
  symm {a b : α} : R a b → R b a
  trans {a b c : α} : R a b → R b c → R a c

/-- Two lists meet in two related items, unless one of them is empty. -/
def Meets (R : α → α → Prop) (xs ys : List α) : Prop :=
  xs ≠ [] → ys ≠ [] → ∃ x ∈ xs, ∃ y ∈ ys, R x y

/-- The items of a list in some order; any two of them are related. -/
structure Joins (Item : α → Prop) (R : α → α → Prop) (xs ys : List α) : Prop where
  perm : ys.Perm xs
  pairwise : xs.Pairwise R
  items : ∀ x ∈ xs, Item x

theorem Joins.all {Item : α → Prop} {R : α → α → Prop} {xs ys : List α} (h : Joins Item R xs ys) :
    ∀ y ∈ ys, Item y :=
  fun y hy => h.items y (h.perm.subset hy)

/-- Two lists that are being merged are parted in what has been taken and what is left. -/
def Merging.Parts (xs ys : List α) (m : Merging α) : Prop :=
  ∃ left right, left ++ m.left = xs ∧ right ++ m.right = ys ∧ m.taken.Perm (left ++ right)

/-- What neither end has taken of a list, if the ends do not overlap, stands between them. -/
theorem between_ends {front rest rest' back : List α} (h : front ++ rest = rest' ++ back)
    (hle : (front ++ rest).length ≤ rest.length + rest'.length) :
    ∃ mid, rest.take (rest.length + rest'.length - (front ++ rest).length) = mid ∧
      rest = mid ++ back ∧ rest' = front ++ mid := by
  rw [List.length_append] at hle
  obtain ⟨mid, rfl⟩ := List.prefix_of_prefix_length_le ⟨rest, h⟩ ⟨back, rfl⟩ (by omega)
  rw [List.append_assoc] at h
  obtain rfl := List.append_cancel_left h
  refine ⟨mid, ?_, rfl, rfl⟩
  simp only [List.length_append]
  rw [List.take_append_of_le_length (by omega), List.take_of_length_le (by omega)]

namespace Links

variable {before : α → α → Except ε Bool} {Item : α → Prop} {Fault : ε → Prop}
  {R : α → α → Prop} (h : Links before Item Fault R)
include h

theorem turned : Links (fun a b => before b a) Item Fault R where
  asks ha hb := (h.asks hb ha).imp fun _ => h.symm
  symm := h.symm
  trans := h.trans

/-! ### Lists of related items -/

variable {xs ys zs xs' ys' : List α}

/-- In a list of related items any item passes its relations on to the others. -/
theorem passes (hxs : xs.Pairwise R) {x y c : α} (hx : x ∈ xs) (hy : y ∈ xs) (hc : R y c) :
    R x c := by
  have : Std.Symm R := ⟨fun _ _ => h.symm⟩
  by_cases hxy : x = y
  · rwa [hxy]
  · exact h.trans (hxs.forall hx hy hxy) hc

theorem pairwise_of_perm (hxs : xs.Pairwise R) (hys : ys.Perm xs) : ys.Pairwise R :=
  (hys.pairwise_iff h.symm).2 hxs

theorem pairwise_append (hxs : xs.Pairwise R) (hys : ys.Pairwise R) (hmeets : Meets R xs ys) :
    (xs ++ ys).Pairwise R := by
  refine List.pairwise_append.2 ⟨hxs, hys, fun x hx y hy => ?_⟩
  obtain ⟨a, ha, b, hb, hab⟩ := hmeets (List.ne_nil_of_mem hx) (List.ne_nil_of_mem hy)
  have hxb : R x b := h.passes hxs hx ha hab
  exact h.symm (h.passes hys hy hb (h.symm hxb))

theorem joins_append (hxs : Joins Item R xs xs') (hys : Joins Item R ys ys')
    (hmeets : Meets R xs' ys') (hzs : zs.Perm (xs' ++ ys')) : Joins Item R (xs ++ ys) zs where
  perm := hzs.trans (hxs.perm.append hys.perm)
  pairwise := by
    have hboth := h.pairwise_append (h.pairwise_of_perm hxs.pairwise hxs.perm)
      (h.pairwise_of_perm hys.pairwise hys.perm) hmeets
    exact h.pairwise_of_perm hboth (hxs.perm.append hys.perm).symm
  items := List.forall_mem_append.2 ⟨hxs.items, hys.items⟩

/-! ### The steps -/

theorem insertLast_links {x : α} (hx : Item x) (hys : ∀ y ∈ ys, Item y) :
    Ends Fault (fun r => r.Perm (x :: ys) ∧ Meets R ys [x]) (insertLast before x ys) := by
  induction ys with
  | nil => exact ⟨.refl _, fun hne => absurd rfl hne⟩
  | cons y ys ih =>
    have hmeets (hxy : R x y) : Meets R (y :: ys) [x] := fun _ _ =>
      ⟨y, .head _, x, .head _, h.symm hxy⟩
    rw [insertLast]
    refine (h.asks hx (hys y (.head _))).elim (fun _ he => he) fun answer hasked => ?_
    cases answer with
    | false => exact ⟨.refl _, hmeets hasked⟩
    | true =>
      dsimp only
      refine (ih fun z hz => hys z (.tail _ hz)).elim (fun _ he => he) fun r hr => ?_
      exact ⟨(hr.1.cons y).trans (.swap x y ys), hmeets hasked⟩

theorem insertLast_joins {done sorted : List α} {x : α} (hdone : Joins Item R done sorted.reverse)
    (hx : Item x) :
    Ends Fault (fun r => Joins Item R (done ++ [x]) r.reverse) (insertLast before x sorted) := by
  have hsorted (y : α) (hy : y ∈ sorted) : Item y := hdone.all y (List.mem_reverse.2 hy)
  have hone : Joins Item R [x] [x] := ⟨.refl _, List.pairwise_singleton R x, by simpa using hx⟩
  refine (h.insertLast_links hx hsorted).imp fun r ⟨hr, hmeets⟩ => ?_
  refine h.joins_append hdone hone (by simpa [Meets] using hmeets) ?_
  rw [← List.reverse_cons]
  exact r.reverse_perm.trans (hr.trans (List.reverse_perm _).symm)

theorem mergeInto_links {merged : List α} (hxs : ∀ x ∈ xs, Item x) (hys : ∀ y ∈ ys, Item y) :
    Ends Fault (fun r => r.Perm (merged ++ (xs ++ ys)) ∧ Meets R xs ys)
      (mergeInto before merged xs ys) := by
  fun_induction mergeInto before merged xs ys with
  | case1 merged ys =>
    exact ⟨merged.reverse_perm.append_right ys, fun hne => absurd rfl hne⟩
  | case2 merged xs =>
    rw [List.append_nil]
    exact ⟨merged.reverse_perm.append_right xs, fun _ hne => absurd rfl hne⟩
  | case3 merged x xs y ys e he =>
    have hasked := h.asks (hys y (.head _)) (hxs x (.head _))
    rw [he] at hasked
    exact hasked
  | case4 merged x xs y ys he ih =>
    have hasked := h.asks (hys y (.head _)) (hxs x (.head _))
    rw [he] at hasked
    refine (ih hxs fun z hz => hys z (.tail _ hz)).imp fun r ⟨hr, _⟩ => ⟨?_, ?_⟩
    · rw [List.cons_append, ← List.append_assoc] at hr
      rw [← List.append_assoc]
      exact hr.trans List.perm_middle.symm
    · exact fun _ _ => ⟨x, .head _, y, .head _, h.symm hasked⟩
  | case5 merged x xs y ys he ih =>
    have hasked := h.asks (hys y (.head _)) (hxs x (.head _))
    rw [he] at hasked
    refine (ih (fun z hz => hxs z (.tail _ hz)) hys).imp fun r ⟨hr, _⟩ => ⟨?_, ?_⟩
    · exact hr.trans List.perm_middle.symm
    · exact fun _ _ => ⟨x, .head _, y, .head _, h.symm hasked⟩

theorem merge_links (hxs : ∀ x ∈ xs, Item x) (hys : ∀ y ∈ ys, Item y) :
    Ends Fault (fun r => r.Perm (xs ++ ys) ∧ Meets R xs ys) (merge before xs ys) := by
  unfold merge
  refine .ite (fun _ => h.mergeInto_links hxs hys) fun _ => ?_
  have hback : Ends Fault
      (fun r => r.Perm ([] ++ (ys.reverse ++ xs.reverse)) ∧ Meets R ys.reverse xs.reverse)
      (mergeInto (fun y x => before x y) [] ys.reverse xs.reverse) :=
    h.turned.mergeInto_links (by simpa using hys) (by simpa using hxs)
  refine hback.elim (fun _ he => he) fun merged ⟨hperm, hmeets⟩ => ⟨?_, fun hxs hys => ?_⟩
  · rw [List.nil_append, ← List.reverse_append] at hperm
    exact merged.reverse_perm.trans (hperm.trans (xs ++ ys).reverse_perm)
  · obtain ⟨y, hy, x, hx, hyx⟩ := hmeets (by simpa using hys) (by simpa using hxs)
    exact ⟨x, List.mem_reverse.1 hx, y, List.mem_reverse.1 hy, h.symm hyx⟩

theorem step_links {m : Merging α} (hm : m.Parts xs ys) (hxs : ∀ x ∈ xs, Item x)
    (hys : ∀ y ∈ ys, Item y) :
    Ends Fault (fun m' => m'.Parts xs ys ∧ Meets R m.left m.right) (m.step before) := by
  obtain ⟨left, right, rfl, rfl, htaken⟩ := hm
  unfold Merging.step
  split
  next x xs y ys hl hr =>
    rw [hl] at hxs ⊢
    rw [hr] at hys ⊢
    refine (h.asks (hys y (by simp)) (hxs x (by simp))).elim (fun _ he => he) fun answer hasked => ?_
    have hmeets : Meets R (x :: xs) (y :: ys) := fun _ _ =>
      ⟨x, .head _, y, .head _, h.symm hasked⟩
    cases answer with
    | true =>
      refine ⟨⟨left, right ++ [y], rfl, by simp, (htaken.cons y).trans ?_⟩, hmeets⟩
      rw [← List.append_assoc]
      exact (List.perm_append_singleton y _).symm
    | false =>
      refine ⟨⟨left ++ [x], right, by simp, rfl, (htaken.cons x).trans ?_⟩, hmeets⟩
      rw [List.append_assoc]
      exact List.perm_middle.symm
  next hnone =>
    refine ⟨⟨left, right, rfl, rfl, htaken⟩, fun hl hr => ?_⟩
    obtain ⟨x, xs, hm⟩ := List.exists_cons_of_ne_nil hl
    obtain ⟨y, ys, hm'⟩ := List.exists_cons_of_ne_nil hr
    exact absurd hm' (hnone x xs y ys hm)

theorem stepBoth_links (n : Nat) {front back : Merging α} (hfront : front.Parts xs ys)
    (hback : back.Parts ys.reverse xs.reverse) (hxs : ∀ x ∈ xs, Item x) (hys : ∀ y ∈ ys, Item y) :
    Ends Fault (fun ends => ends.1.Parts xs ys ∧ ends.2.Parts ys.reverse xs.reverse ∧
      (0 < n → Meets R front.left front.right)) (stepBoth before n front back) := by
  induction n generalizing front back with
  | zero => exact ⟨hfront, hback, fun hn => absurd hn (Nat.lt_irrefl 0)⟩
  | succ n ih =>
    rw [stepBoth]
    refine (h.step_links hfront hxs hys).elim (fun _ he => he) fun front' ⟨hfront', hmeets⟩ => ?_
    refine (h.turned.step_links hback (by simpa using hys) (by simpa using hxs)).elim
      (fun _ he => he) fun back' ⟨hback', _⟩ => ?_
    exact (ih hfront' hback').imp fun ends ⟨hf, hb, _⟩ => ⟨hf, hb, fun _ => hmeets⟩

omit h in
/-- Ends that do not overlap have all items together with those between them. -/
theorem perm_of_ends {front back : Merging α} (hfront : front.Parts xs ys)
    (hback : back.Parts ys.reverse xs.reverse)
    (hx : xs.length ≤ front.left.length + back.right.length)
    (hy : ys.length ≤ front.right.length + back.left.length) :
    (front.taken.reverse ++
      (front.left.take (front.left.length + back.right.length - xs.length) ++
        front.right.take (front.right.length + back.left.length - ys.length)) ++
      back.taken).Perm (xs ++ ys) := by
  obtain ⟨left, right, rfl, rfl, htaken⟩ := hfront
  obtain ⟨right', left', hy', hx', htaken'⟩ := hback
  have hxs : left ++ front.left = back.right.reverse ++ left'.reverse := by
    rw [← List.reverse_append, hx', List.reverse_reverse]
  have hys : right ++ front.right = back.left.reverse ++ right'.reverse := by
    rw [← List.reverse_append, hy', List.reverse_reverse]
  obtain ⟨mid, hmid, hrest, -⟩ := between_ends hxs (by rwa [List.length_reverse])
  obtain ⟨mid', hmid', hrest', -⟩ := between_ends hys (by rwa [List.length_reverse])
  rw [List.length_reverse] at hmid hmid'
  rw [hmid, hmid', hrest, hrest']
  classical
  rw [List.perm_iff_count]
  intro a
  have hcount := htaken.count_eq a
  have hcount' := htaken'.count_eq a
  simp only [List.count_append, List.count_reverse] at hcount hcount' ⊢
  omega

theorem mergeEnds_links (hxs : ∀ x ∈ xs, Item x) (hys : ∀ y ∈ ys, Item y) :
    Ends Fault (fun r => r.Perm (xs ++ ys) ∧ Meets R xs ys) (mergeEnds before xs ys) := by
  have hstart (xs ys : List α) : Merging.Parts xs ys ⟨xs, ys, []⟩ := ⟨[], [], rfl, rfl, .refl _⟩
  unfold mergeEnds
  refine (h.stepBoth_links xs.length (hstart xs ys) (hstart _ _) hxs hys).elim (fun _ he => he) ?_
  rintro ⟨front, back⟩ ⟨hfront, hback, hmeets⟩
  refine .ite (fun _ => ?_) fun hmeet => ?_
  · have hnone : Joins Item R [] [].reverse := ⟨.refl _, .nil, by simp⟩
    refine (insertAll_ends h.insertLast_joins hnone (List.forall_mem_append.2 ⟨hxs, hys⟩)).imp ?_
    rintro r ⟨hperm, hpairwise, -⟩
    rw [List.nil_append] at hperm hpairwise
    refine ⟨hperm, fun hx hy => ?_⟩
    obtain ⟨x, hx⟩ := List.exists_mem_of_ne_nil _ hx
    obtain ⟨y, hy⟩ := List.exists_mem_of_ne_nil _ hy
    exact ⟨x, hx, y, hy, (List.pairwise_append.1 hpairwise).2.2 x hx y hy⟩
  · simp only [Bool.or_eq_true, decide_eq_true_eq, not_or, Nat.not_lt] at hmeet
    exact ⟨perm_of_ends hfront hback hmeet.1 hmeet.2, fun hx =>
      hmeets (List.length_pos_iff.2 hx) hx⟩

theorem orderTwo_links {a b : α} (ha : Item a) (hb : Item b) :
    Ends Fault (fun two => [two.1, two.2].Perm [a, b] ∧ R a b) (orderTwo before a b) := by
  unfold orderTwo
  refine (h.asks hb ha).elim (fun _ he => he) fun answer hasked => ?_
  cases answer with
  | true => exact ⟨.swap a b [], h.symm hasked⟩
  | false => exact ⟨.refl _, h.symm hasked⟩

theorem sortFour_links {a b c d : α} (ha : Item a) (hb : Item b) (hc : Item c) (hd : Item d) :
    Ends Fault (fun r => r.Perm [a, b, c, d] ∧ [a, b, c, d].Pairwise R)
      (sortFour before a b c d) := by
  have hitems {a b : α} {two : α × α} (ha : Item a) (hb : Item b)
      (htwo : [two.1, two.2].Perm [a, b]) : Item two.1 ∧ Item two.2 := by
    have hall : ∀ x ∈ [a, b], Item x := by simp [ha, hb]
    exact ⟨hall _ (htwo.subset (by simp)), hall _ (htwo.subset (by simp))⟩
  refine (h.orderTwo_links ha hb).bind fun ⟨a', b'⟩ ⟨hab, hrel⟩ => ?_
  refine (h.orderTwo_links hc hd).bind fun ⟨c', d'⟩ ⟨hcd, hrel'⟩ => ?_
  obtain ⟨ha', hb'⟩ := hitems ha hb hab
  obtain ⟨hc', hd'⟩ := hitems hc hd hcd
  refine (h.asks hc' ha').bind fun firstRight hca => ?_
  refine (h.asks hd' hb').bind fun lastLeft hdb => ?_
  have hfour : [a, b, c, d].Pairwise R :=
    h.pairwise_append (List.pairwise_pair.2 hrel) (List.pairwise_pair.2 hrel') fun _ _ =>
      ⟨a', hab.subset (.head _), c', hcd.subset (.head _), h.symm hca⟩
  -- the two that are still open go between a first and a last item
  have hopen {first low high last : α} (hlow : Item low) (hhigh : Item high)
      (hperm : [first, low, high, last].Perm [a', b', c', d']) :
      Ends Fault (fun r => r.Perm [a, b, c, d] ∧ [a, b, c, d].Pairwise R)
        (orderTwo before low high >>= fun two => pure [first, two.1, two.2, last]) := by
    refine (h.orderTwo_links hlow hhigh).bind fun two ⟨htwo, _⟩ => .pure ⟨?_, hfour⟩
    exact ((htwo.append_right [last]).cons first).trans (hperm.trans (hab.append hcd))
  have hlast : [c', d', b'].Perm [b', c', d'] :=
    @List.perm_append_comm _ [c', d'] [b']
  cases firstRight <;> cases lastLeft
  · exact hopen hb' hc' (.refl _)
  · exact hopen hc' hd' (hlast.cons a')
  · exact hopen ha' hb' (@List.perm_middle _ c' [a', b'] [d']).symm
  · exact hopen ha' hd' ((List.Perm.swap a' c' _).trans (hlast.cons a'))

/-- The items of a stretch at the front are connected from neighbour to neighbour. -/
theorem extend_links (down : Bool) {last : α} {taken rest : List α} (hlast : Item last)
    (hrest : ∀ x ∈ rest, Item x) (htaken : (last :: taken).Pairwise R) :
    Ends Fault (fun r => r.reverse <+: (last :: taken).reverse ++ rest ∧ r.Pairwise R)
      (extend before down last taken rest) := by
  induction rest generalizing last taken with
  | nil => exact ⟨List.prefix_append _ _, htaken⟩
  | cons x rest ih =>
    have hx := hrest x (.head _)
    rw [extend]
    refine (h.asks hx hlast).elim (fun _ he => he) fun answer hasked => ?_
    refine .ite (fun _ => ?_) fun _ => ⟨List.prefix_append _ _, htaken⟩
    have hlonger : (x :: last :: taken).Pairwise R := by
      refine List.pairwise_cons.2 ⟨fun y hy => ?_, htaken⟩
      exact h.symm (h.passes htaken hy (.head _) (h.symm hasked))
    have hgoes := ih hx (fun y hy => hrest y (.tail _ hy)) hlonger
    rwa [List.reverse_cons, List.append_assoc] at hgoes

theorem orderedFront_links (hxs : ∀ x ∈ xs, Item x) :
    Ends Fault (fun r => r.Perm (xs.take r.length) ∧ r.Pairwise R) (orderedFront before xs) := by
  unfold orderedFront
  split
  next x y rest =>
    simp only [List.mem_cons, forall_eq_or_imp] at hxs
    obtain ⟨hx, hy, hrest⟩ := hxs
    refine (h.asks hy hx).elim (fun _ he => he) fun down hasked => ?_
    dsimp only
    refine (h.extend_links down hy hrest (List.pairwise_pair.2 hasked)).elim (fun _ he => he) ?_
    rintro taken ⟨hfront, hpairwise⟩
    have hperm : taken.Perm ((x :: y :: rest).take taken.length) := by
      have htake := List.prefix_iff_eq_take.1 hfront
      rw [List.length_reverse] at htake
      exact htake ▸ taken.reverse_perm.symm
    have hturned (front : List α) (hfront : front.Perm taken) :
        front.Perm ((x :: y :: rest).take front.length) ∧ front.Pairwise R :=
      ⟨hfront.length_eq ▸ hfront.trans hperm, h.pairwise_of_perm hpairwise hfront⟩
    cases down
    · exact hturned _ taken.reverse_perm
    · exact hturned _ (.refl _)
  next hshort =>
    refine ⟨by rw [List.take_length], pairwise_of_short ?_⟩
    match xs with
    | [] | [x] => simp
    | x :: y :: rest => exact absurd rfl (hshort x y rest)

omit h in
theorem splitBy_links {test : α → Except ε Bool} {pivot : α}
    (htest : ∀ x, Item x → Ends Fault (fun _ => R x pivot) (test x)) {left right : List α}
    (hxs : ∀ x ∈ xs, Item x) :
    Ends Fault (fun parts => (parts.1 ++ parts.2).Perm (left ++ right ++ xs) ∧ ∀ x ∈ xs, R x pivot)
      (splitBy test left right xs) := by
  induction xs generalizing left right with
  | nil => exact ⟨by rw [List.append_nil], by simp⟩
  | cons x xs ih =>
    have hrest (y : α) (hy : y ∈ xs) : Item y := hxs y (.tail _ hy)
    rw [splitBy]
    refine (htest x (hxs x (.head _))).elim (fun _ he => he) fun answer hasked => ?_
    cases answer with
    | true =>
      refine (ih hrest).imp fun parts ⟨hparts, hall⟩ => ⟨?_, List.forall_mem_cons.2 ⟨hasked, hall⟩⟩
      exact hparts.trans List.perm_middle.symm
    | false =>
      refine (ih hrest).imp fun parts ⟨hparts, hall⟩ => ⟨?_, List.forall_mem_cons.2 ⟨hasked, hall⟩⟩
      refine hparts.trans ((List.perm_middle.append_right xs).trans ?_)
      exact List.perm_middle.symm

/-- A split compares the pivot with every other item, so any two are connected through it. -/
theorem around_links {around : Around α} {test : α → Except ε Bool}
    (put : List α × List α → List α × List α)
    (htest : ∀ x, Item x → Ends Fault (fun _ => R x around.pivot) (test x))
    (hput : ∀ parts, ((put parts).1 ++ (put parts).2).Perm (around.pivot :: (parts.1 ++ parts.2)))
    (hall : ∀ x ∈ around.items, Item x) :
    Ends Fault (fun parts => (parts.1 ++ parts.2).Perm around.items ∧ around.items.Pairwise R)
      (splitBy test [] [] around.front >>= fun parts =>
        splitBy test (put parts).1 (put parts).2 around.behind >>= fun parts =>
          pure (parts.1.reverse, parts.2.reverse)) := by
  have hfront (x : α) (hx : x ∈ around.front) : Item x := hall x (List.mem_append_left _ hx)
  have hbehind (x : α) (hx : x ∈ around.behind) : Item x :=
    hall x (List.mem_append_right _ (.tail _ hx))
  refine (splitBy_links htest hfront).bind fun parts ⟨hparts, hrel⟩ => ?_
  refine (splitBy_links htest hbehind).bind fun parts' ⟨hparts', hrel'⟩ => .pure ⟨?_, ?_⟩
  · have hboth : (parts'.1 ++ parts'.2).Perm (around.pivot :: around.front ++ around.behind) :=
      hparts'.trans (((hput parts).trans (hparts.cons _)).append_right around.behind)
    refine ((parts'.1.reverse_perm.append parts'.2.reverse_perm).trans hboth).trans ?_
    exact List.perm_middle.symm
  have hpivot (x : α) (hx : x ∈ around.front ++ around.behind) : R x around.pivot := by
    rcases List.mem_append.1 hx with hx | hx
    · exact hrel x hx
    · exact hrel' x hx
  have hothers : (around.pivot :: (around.front ++ around.behind)).Pairwise R :=
    List.pairwise_cons.2 ⟨fun x hx => h.symm (hpivot x hx), List.pairwise_of_forall_mem_list
      fun x hx y hy => h.trans (hpivot x hx) (h.symm (hpivot y hy))⟩
  exact h.pairwise_of_perm hothers List.perm_middle

/-- The law that a sort gives the items of a list and that any two of them are related. -/
def law : Law before where
  Fault := Fault
  Item := Item
  Below _ _ := True
  Gives := Joins Item R
  items hgives := hgives.all
  perm hgives := hgives.perm
  short hxs hlength := ⟨.refl _, pairwise_of_short hlength, hxs⟩
  asks ha hb := (h.asks ha hb).imp fun _ _ => trivial
  insertLast := h.insertLast_joins
  sortFour ha hb hc hd :=
    (h.sortFour_links ha hb hc hd).imp fun r ⟨hr, hfour⟩ => ⟨hr, hfour, by simp [ha, hb, hc, hd]⟩
  merge hxs hys :=
    (h.merge_links hxs.all hys.all).imp fun r ⟨hr, hmeets⟩ => h.joins_append hxs hys hmeets hr
  mergeEnds hxs hys _ _ :=
    (h.mergeEnds_links hxs.all hys.all).imp fun r ⟨hr, hmeets⟩ => h.joins_append hxs hys hmeets hr
  orderedFront hxs := by
    refine (h.orderedFront_links hxs).imp fun front ⟨hfront, hpairwise⟩ => ⟨hfront, ?_, ?_⟩
    · exact h.pairwise_of_perm hpairwise hfront.symm
    · exact fun x hx => hxs x (List.take_subset _ _ hx)
  below_subset _ _ := trivial
  least _ _ hb hp := (h.asks hb hp).imp fun _ _ _ => trivial
  split {xs} hxs := by
    have hpivot : Item xs.pivot := hxs _ (List.mem_append_right _ (.head _))
    have hparts := h.around_links (fun parts => (parts.1, xs.pivot :: parts.2))
      (fun x hx => h.asks hx hpivot) (fun _ => List.perm_middle) hxs
    refine Ends.imp hparts fun parts ⟨hperm, hpairwise⟩ => ⟨fun _ => trivial,
      fun x hx => hperm.subset (List.mem_append_left _ hx),
      fun x hx => hperm.subset (List.mem_append_right _ hx), trivial, fun l r hl hr => ?_⟩
    exact ⟨(hl.perm.append hr.perm).trans hperm, hpairwise, hxs⟩
  splitEqual {xs} hxs _ := by
    have hpivot : Item xs.pivot := hxs _ (List.mem_append_right _ (.head _))
    have htest (x : α) (hx : Item x) :
        Ends Fault (fun _ => R x xs.pivot) ((before xs.pivot x).map not) :=
      (h.asks hpivot hx).map fun _ => h.symm
    have hparts := h.around_links (fun parts => (xs.pivot :: parts.1, parts.2)) htest
      (fun _ => .refl _) hxs
    refine Ends.imp hparts fun parts ⟨hperm, hpairwise⟩ =>
      ⟨fun x hx => hperm.subset (List.mem_append_right _ hx), fun r hr => ?_⟩
    exact ⟨(hr.perm.append_left _).trans hperm, hpairwise, hxs⟩

end Links

end Scripting.Sort

namespace Scripting

/-- A sort fails as comparing fails, or it gives the items of its list and all of them are
related. -/
theorem sortBy_links {α ε : Type} {before : α → α → Except ε Bool} {Item : α → Prop}
    {Fault : ε → Prop} {R : α → α → Prop} (h : Sort.Links before Item Fault R)
    (widest : Sort.Group) (room : Nat) {xs : List α} (hxs : ∀ x ∈ xs, Item x) :
    Ends Fault (fun ys => ys.Perm xs ∧ xs.Pairwise R) (sortBy widest room before xs) :=
  (sortBy_law h.law widest room hxs).imp fun _ hgives => ⟨hgives.perm, hgives.pairwise⟩

end Scripting
