/-
# The least and the greatest item

`min` and `max` go through the items once and change their choice only for an item that beats it.
What they choose is the foremost item: it comes before all items that stand in front of it, and
none behind it comes before it (`extremeItem_foremost`). A list has only one such item, and a
stable sort puts it first (`StableSort.foremost`), so `min` and `max` agree with `sorted` also
where several items are level.

They also fail together. One pass compares every item with an item that is comparable with the
first one, so it succeeds just if all items are comparable (`extremeItem_succeeds_iff`), and a sort
does the same by other comparisons.
-/
import Scripting.Proofs.Sorting

namespace Scripting

open Value

/-! ### The foremost item -/

/-- An item that comes before those in front of it, and none behind it comes before it. -/
def Foremost (reverse : Bool) (xs : List Value) (m : Value) : Prop :=
  ∃ before after, xs = before ++ m :: after ∧ (∀ x ∈ before, precedes reverse m x = true) ∧
    ∀ x ∈ after, precedes reverse x m = false

variable {reverse : Bool} {xs : List Value} {m : Value}

theorem Foremost.mem (h : Foremost reverse xs m) : m ∈ xs := by
  obtain ⟨before, after, rfl, -, -⟩ := h
  exact List.mem_append_right _ (.head _)

theorem Foremost.unique {m' : Value} (h : Foremost reverse xs m) (h' : Foremost reverse xs m') :
    m = m' := by
  obtain ⟨before, after, rfl, hbefore, hafter⟩ := h
  obtain ⟨before', after', heq, hbefore', hafter'⟩ := h'
  rcases List.append_eq_append_iff.1 heq with ⟨between, rfl, htail⟩ | ⟨between, rfl, htail⟩
  · cases between with
    | nil => exact (List.cons.inj htail).1
    | cons x between =>
      obtain ⟨rfl, rfl⟩ := List.cons.inj htail
      have hwins := hbefore' m (List.mem_append_right _ (.head _))
      rw [hafter m' (List.mem_append_right _ (.head _))] at hwins
      cases hwins
  cases between with
  | nil => exact (List.cons.inj htail).1.symm
  | cons x between =>
    obtain ⟨rfl, rfl⟩ := List.cons.inj htail
    have hwins := hbefore m' (List.mem_append_right _ (.head _))
    rw [hafter' m (List.mem_append_right _ (.head _))] at hwins
    cases hwins

theorem StableSort.foremost {ys : List Value} (h : StableSort reverse id xs (m :: ys))
    (hsortable : Sortable xs) : Foremost reverse xs m := by
  by_cases hlength : 2 ≤ xs.length
  · have hm : m ∈ xs := h.perm.subset (.head _)
    have hcomparable {x : Value} (hx : x ∈ xs) : m.Comparable x :=
      comparable_of_mem hsortable.comparable hlength hm hx
    have hlevel : levelWith m m = true := by rw [levelWith, compare_self (hcomparable hm)]
    have hlast {x : Value} (hx : x ∈ xs) : precedes reverse x m = false := by
      rcases List.mem_cons.1 (h.perm.symm.subset hx) with rfl | hys
      · exact ((hcomparable hm).levelWith_iff.1 hlevel).1
      · exact (hcomparable hx).inOrder_iff.1 ((List.pairwise_cons.1 h.ordered).1 x hys)
    -- the items level with the first one are in the order of the list, so it is their first one
    have hstable := h.stable m hm
    rw [List.filter_cons_of_pos (by exact hlevel)] at hstable
    obtain ⟨before, after, hxs, hbefore, -, -⟩ := List.filter_eq_cons_iff.1 hstable.symm
    have hmem {x : Value} (hx : x ∈ before ++ m :: after) : x ∈ xs := hxs ▸ hx
    refine ⟨before, after, hxs, fun x hx => ?_, fun x hx => ?_⟩
    · have hx' := hmem (List.mem_append_left _ hx)
      by_contra hnot
      refine hbefore x hx ((hcomparable hx').levelWith_iff.2 ⟨?_, hlast hx'⟩)
      exact Bool.eq_false_of_not_eq_true hnot
    · exact hlast (hmem (List.mem_append_right _ (List.mem_cons_of_mem m hx)))
  obtain ⟨x, rfl⟩ : ∃ x, xs = [x] := by
    refine List.length_eq_one_iff.1 (Nat.le_antisymm (by omega) ?_)
    rw [← h.perm.length_eq]
    exact Nat.succ_pos _
  obtain ⟨rfl, -⟩ := List.cons.inj (List.perm_singleton.1 h.perm)
  exact ⟨[], [], rfl, List.forall_mem_nil _, List.forall_mem_nil _⟩

/-! ### One pass -/

/-- What an item has to compare as to beat another one. -/
def winning (reverse : Bool) : Ordering := if reverse then .gt else .lt

theorem extremeItem_cons (reverse : Bool) (best v : Value) (rest : List Value) :
    extremeItem (winning reverse) best (v :: rest) =
      match comesBefore reverse v best with
      | .error f => .error f
      | .ok wins => extremeItem (winning reverse) (if wins then v else best) rest := by
  rw [extremeItem, comesBefore]
  cases v.compare best <;> rfl

theorem extremeItem_foremost (h : Sortable xs) : ∀ {rest seen : List Value} {best : Value},
    xs = seen ++ rest → Foremost reverse seen best →
    ∃ m, extremeItem (winning reverse) best rest = .ok m ∧ Foremost reverse xs m
  | [], seen, best, hxs, hbest => by
    rw [List.append_nil] at hxs
    exact ⟨best, rfl, hxs ▸ hbest⟩
  | v :: rest, seen, best, hxs, hbest => by
    have hseen {x : Value} (hx : x ∈ seen) : x ∈ xs := hxs ▸ List.mem_append_left _ hx
    have hv : v ∈ xs := hxs ▸ List.mem_append_right _ (.head _)
    have hlength : 2 ≤ xs.length := by
      have := List.length_pos_of_mem hbest.mem
      rw [hxs, List.length_append, List.length_cons]
      omega
    have hcomparable {x y : Value} (hx : x ∈ xs) (hy : y ∈ xs) :=
      comparable_of_mem h.comparable hlength hx hy
    have hbest' := hseen hbest.mem
    rw [extremeItem_cons, (hcomparable hv hbest').comesBefore_eq]
    dsimp only
    refine extremeItem_foremost h (hxs.trans (List.append_cons _ _ _)) ?_
    obtain ⟨before, after, rfl, hbefore, hafter⟩ := hbest
    cases hwins : precedes reverse v best with
    | false =>
      refine ⟨before, after ++ [v], by simp, hbefore, fun x hx => ?_⟩
      rcases List.mem_append.1 hx with hx | hx
      · exact hafter x hx
      · rwa [List.mem_singleton.1 hx]
    | true =>
      refine ⟨before ++ best :: after, [], rfl, fun x hx => ?_, List.forall_mem_nil _⟩
      refine h.precedes_of_inOrder hlength hbest' (hseen hx) ?_ hv hwins
      have hx' := hcomparable hbest' (hseen hx)
      rcases List.mem_append.1 hx with hx | hx
      · exact hx'.inOrder_of_precedes (hbefore x hx)
      · rcases List.mem_cons.1 hx with rfl | hx
        · exact hx'.inOrder_iff.2 (hx'.levelWith_iff.1 (by rw [levelWith, compare_self hx'])).1
        · exact hx'.inOrder_iff.2 (hafter x hx)

theorem pairwise_comparable_cons {x : Value} :
    (x :: xs).Pairwise Comparable ↔ ∀ y ∈ xs, x.Comparable y := by
  rw [List.pairwise_cons, and_iff_left_iff_imp]
  exact fun h => List.pairwise_of_forall_mem_list fun a ha b hb => (h a ha).symm.trans (h b hb)

theorem extremeItem_succeeds_iff (beats : Ordering) : ∀ {rest : List Value} {best : Value},
    (∃ m, extremeItem beats best rest = .ok m) ↔ (best :: rest).Pairwise Comparable
  | [], best => ⟨fun _ => List.pairwise_singleton _ _, fun _ => ⟨best, rfl⟩⟩
  | v :: rest, best => by
    rw [pairwise_comparable_cons, List.forall_mem_cons, extremeItem]
    cases horder : v.compare best with
    | error f =>
      constructor
      · rintro ⟨m, hm⟩
        cases hm
      · rintro ⟨hv, -⟩
        obtain ⟨order, hv⟩ := hv.symm
        cases horder.symm.trans hv
    | ok order =>
      have hv : best.Comparable v := Comparable.symm ⟨order, horder⟩
      dsimp only
      rw [extremeItem_succeeds_iff beats, pairwise_comparable_cons, and_iff_right hv]
      split
      · exact forall₂_congr fun x _ => ⟨hv.trans, hv.symm.trans⟩
      · rfl

theorem sortValues_succeeds_iff :
    (∃ ys, sortValues reverse xs = .ok ys) ↔ xs.Pairwise Comparable := by
  have hsorts := sortValues_sortsTo reverse xs
  refine ⟨fun ⟨ys, hys⟩ => ?_, fun h => ?_⟩
  swap
  · exact @sortBy_comparable Value reverse id xs .four 333333 (by rwa [List.map_id])
  by_contra hnot
  obtain ⟨f, hf, -⟩ := hsorts.fails (by rwa [List.map_id])
  cases hys.symm.trans hf

/-! ### The built-in functions -/

def Builtin.extreme (reverse : Bool) : Builtin := if reverse then .max else .min

theorem run_extreme {w : World} {v best : Value} {rest : List Value}
    (hv : w.heap.iterate v = .ok (best :: rest)) (quiet : Bool) (call : Caller) (reverse : Bool) :
    (Builtin.extreme reverse).run quiet call [v] .empty w =
      Run.ofExcept (extremeItem (winning reverse) best rest) w := by
  have hextreme (function : String) : Run.inspect (fun h => extremeOf h function (winning reverse)
      [v]) w = Run.ofExcept (extremeItem (winning reverse) best rest) w := by
    simp only [Run.inspect, extremeOf, hv]
    rfl
  cases reverse
  · exact hextreme "min"
  · exact hextreme "max"

theorem getItem_first (w : World) (items : List Value) :
    (w.withList (m :: items).toArray).heap.getItem (.list w.nextList) (.int 0) = .ok m := by
  rw [Heap.getItem]
  simp only [World.list_withList, if_true, positionOf?]
  simp

/-- `min` and `max` give the very item that a sort in their direction puts first, and they fail on
the same items as a sort in any direction does. -/
theorem extremes_lead_sorted {w : World} {v : Value} {xs : List Value}
    (hv : w.heap.iterate v = .ok xs) (hne : xs ≠ []) (quiet : Bool) (call : Caller)
    (reverse : Bool) (keywords : Keywords)
    (hdirects : Keywords.Directs keywords ["key", "reverse"] reverse)
    (hkey : (keywords.get? "key").getD .none = .none) :
    (Sortable xs → ∃ m s w', (Builtin.extreme reverse).run quiet call [v] .empty w = .ok m w ∧
      Builtin.sorted.run quiet call [v] keywords w = .ok (.list s) w' ∧
      w'.heap.getItem (.list s) (.int 0) = .ok m ∧ Foremost reverse xs m) ∧
    ∀ extreme ∈ [Builtin.min, Builtin.max],
      ((∃ f, extreme.run quiet call [v] .empty w = .fault f w) ↔
        ∃ f, Builtin.sorted.run quiet call [v] keywords w = .fault f w) := by
  obtain ⟨best, rest, rfl⟩ := List.exists_cons_of_ne_nil hne
  have hsorted := run_sorted hdirects hv quiet call hkey
  refine ⟨fun hsortable => ?_, ?_⟩
  · have hsorts := sortValues_sortsTo reverse (best :: rest)
    obtain ⟨ys, hys, hstable⟩ := hsorts.stable (by rwa [List.map_id])
    have hpos : 0 < ys.length := hstable.perm.length_eq ▸ Nat.succ_pos rest.length
    obtain ⟨m, ys, rfl⟩ := List.exists_cons_of_length_pos hpos
    have hm := hstable.foremost hsortable
    have hbest : Foremost reverse [best] best :=
      ⟨[], [], rfl, List.forall_mem_nil _, List.forall_mem_nil _⟩
    obtain ⟨m', hm', hforemost⟩ := extremeItem_foremost hsortable rfl hbest
    obtain rfl := hforemost.unique hm
    rw [run_extreme hv, hm', hsorted, hys]
    exact ⟨m', w.nextList, _, rfl, rfl, getItem_first w ys, hm⟩
  have hfails (direction : Bool) :
      (∃ f, (Builtin.extreme direction).run quiet call [v] .empty w = .fault f w) ↔
        ∃ f, Builtin.sorted.run quiet call [v] keywords w = .fault f w := by
    have hagree : (∃ m, extremeItem (winning direction) best rest = .ok m) ↔
        ∃ ys, sortValues reverse (best :: rest) = .ok ys :=
      (extremeItem_succeeds_iff _).trans sortValues_succeeds_iff.symm
    rw [run_extreme hv, hsorted]
    cases hitem : extremeItem (winning direction) best rest <;>
      cases hvalues : sortValues reverse (best :: rest) <;>
      simp_all [Run.ofExcept, sortedOutcome]
  intro extreme hextreme
  rcases List.mem_pair.1 hextreme with rfl | rfl
  · exact hfails false
  · exact hfails true

/-- Of 2, 1.0, 1 and 2.0 the least is 1.0 and the greatest 2. A number and a text are not sorted, as
they have no least item. -/
theorem extremes_lead_sorted_mixed :
    let one : Value := .float (Float.ofBits 0x3FF0000000000000)
    let mixed : List Value := [.int 2, one, .int 1, .float (Float.ofBits 0x4000000000000000)]
    let down : Keywords := Table.empty.insert "reverse" (.bool true)
    let w := World.ofItems mixed
    let w' := World.ofItems [.int 1, .str "1"]
    (∃ s w', Builtin.min.run true callIdentity [.list ⟨0⟩] .empty w = .ok one w ∧
      Builtin.sorted.run true callIdentity [.list ⟨0⟩] .empty w = .ok (.list s) w' ∧
      w'.heap.getItem (.list s) (.int 0) = .ok one) ∧
    (∃ s w', Builtin.max.run true callIdentity [.list ⟨0⟩] .empty w = .ok (.int 2) w ∧
      Builtin.sorted.run true callIdentity [.list ⟨0⟩] down w = .ok (.list s) w' ∧
      w'.heap.getItem (.list s) (.int 0) = .ok (.int 2)) ∧
    ∃ f, Builtin.sorted.run true callIdentity [.list ⟨0⟩] .empty w' = .fault f w' := by
  intro one mixed down w w'
  have hnumber : ∀ a ∈ mixed, ∃ p, a.number? = some p := by
    intro a ha
    simp only [mixed, one, List.mem_cons, List.not_mem_nil, or_false] at ha
    rcases ha with rfl | rfl | rfl | rfl <;> exact ⟨_, rfl⟩
  have hsmall (n : Int64) (hn : .int n ∈ mixed) : n.toInt.natAbs ≤ 2 ^ 53 := by
    simp only [mixed, one, List.mem_cons, List.not_mem_nil, or_false, Value.int.injEq, reduceCtorEq,
      false_or] at hn
    rcases hn with rfl | rfl <;> decide
  have hsortable : Sortable mixed := sortable_of_small hnumber hsmall
  have hplain : Keywords.Directs .empty ["key", "reverse"] false := ⟨by decide, rfl⟩
  have hdown : Keywords.Directs down ["key", "reverse"] true := ⟨by decide, rfl⟩
  have hleast : Foremost false mixed one :=
    ⟨[.int 2], [.int 1, .float (Float.ofBits 0x4000000000000000)], rfl, by decide +kernel,
      by decide +kernel⟩
  have hgreatest : Foremost true mixed (.int 2) :=
    ⟨[], mixed.tail, rfl, List.forall_mem_nil _, by decide +kernel⟩
  have hitems : w.heap.iterate (.list ⟨0⟩) = .ok mixed := rfl
  refine ⟨?_, ?_, ?_⟩
  · obtain ⟨m, s, w', hmin, hsorted, hitem, hm⟩ := (extremes_lead_sorted hitems
      (List.cons_ne_nil _ _) true callIdentity false .empty hplain rfl).1 hsortable
    obtain rfl := hm.unique hleast
    exact ⟨s, w', hmin, hsorted, hitem⟩
  · obtain ⟨m, s, w', hmax, hsorted, hitem, hm⟩ := (extremes_lead_sorted hitems
      (List.cons_ne_nil _ _) true callIdentity true down hdown rfl).1 hsortable
    obtain rfl := hm.unique hgreatest
    exact ⟨s, w', hmax, hsorted, hitem⟩
  have hitems' : w'.heap.iterate (.list ⟨0⟩) = .ok [.int 1, .str "1"] := rfl
  have hmin := run_extreme hitems' true callIdentity false
  obtain ⟨-, hfails⟩ := extremes_lead_sorted hitems' (List.cons_ne_nil _ _) true callIdentity
    false .empty hplain rfl
  exact (hfails .min (.head _)).1 ⟨_, hmin⟩

end Scripting
