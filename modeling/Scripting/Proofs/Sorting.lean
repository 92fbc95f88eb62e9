/-
# Sorting lists

The method `sort` of a list and the built-in `sorted` sort values, upwards or downwards. If all
comparisons succeed and are transitive, what comes out is the stable sort: the same items, in
order, level ones as they stood. If two items cannot be compared, there is a fault of type, and
the list stays as it is. A function for keys is called on all items first, and then the items
are sorted by the keys. If it gives the items themselves, the result is the same as without it,
provided that the comparisons are transitive.
-/
import Scripting.Builtin
import Scripting.Method
import Scripting.Proofs.Sort.Values

namespace Scripting

open Value (Comparable)

/-! ### Sorting values and keys -/

/-- What a sort does with a list: it is a stable sort if all keys are comparable and the
comparisons are transitive, and it fails with a fault of type if two keys are not comparable.
Whatever the comparisons are, it never loses or doubles an item. -/
structure SortsTo {α : Type} (reverse : Bool) (key : α → Value) (xs : List α)
    (result : Except Fault (List α)) : Prop where
  stable : Sortable (xs.map key) → ∃ ys, result = .ok ys ∧ StableSort reverse key xs ys
  perm : ∀ ys, result = .ok ys → ys.Perm xs
  fails : ¬ (xs.map key).Pairwise Comparable → ∃ f, result = .error f ∧ f.kind = .type

theorem sortBy_sortsTo {α : Type} (reverse : Bool) (key : α → Value) (xs : List α)
    (widest : Sort.Group) (room : Nat) :
    SortsTo reverse key xs
      (sortBy widest room (fun a b => comesBefore reverse (key a) (key b)) xs) where
  stable h := sortBy_stable h widest room
  perm ys h := by
    have hends := @sortBy_ends α reverse key xs widest room
    rw [h] at hends
    exact hends.1
  fails h := sortBy_incomparable widest room h

theorem sortValues_sortsTo (reverse : Bool) (xs : List Value) :
    SortsTo reverse id xs (sortValues reverse xs) :=
  sortBy_sortsTo reverse id xs .four 333333

/-- Keywords that are known and ask for a direction. -/
structure Keywords.Directs (keywords : Keywords) (known : List String) (reverse : Bool) :
    Prop where
  known : ∀ name ∈ keywords.keys, name ∈ known
  direction : keywords.bool "reverse" false = .ok reverse

theorem Keywords.Directs.only {keywords : Keywords} {known : List String} {reverse : Bool}
    (h : keywords.Directs known reverse) (function : String) :
    keywords.only function known = .ok () := by
  have hnone : keywords.keys.find? (fun name => !known.contains name) = none := by
    rw [List.find?_eq_none]
    intro name hname
    simpa using h.known name hname
  rw [Keywords.only, hnone]

/-- The outcome of a sort that makes a new list. -/
def sortedOutcome (w : World) : Except Fault (List Value) → Outcome Value
  | .ok ys => .ok (.list w.nextList) (w.withList ys.toArray)
  | .error f => .fault f w

section

variable {keywords : Keywords} {reverse : Bool} (h : keywords.Directs ["key", "reverse"] reverse)
  {w : World} {v : Value} {xs : List Value} (hv : w.heap.iterate v = .ok xs) (quiet : Bool)
  (call : Caller)
include h

theorem checkCall_sorted : Builtin.sorted.checkCall [v] keywords = .ok () := by
  simp only [Builtin.checkCall, Builtin.keywords, h.only, bind, Except.bind]
  rfl

include hv

theorem run_sorted (hkey : (keywords.get? "key").getD .none = .none) :
    Builtin.sorted.run quiet call [v] keywords w = sortedOutcome w (sortValues reverse xs) := by
  simp only [Builtin.run, Builtin.body, Builtin.sortedItems, bind, Run.bind, Run.ofExcept,
    checkCall_sorted h, h.direction, Run.inspect, List.headD_cons, hv]
  cases hget : keywords.get? "key" with
  | none => cases sortValues reverse xs <;> rfl
  | some key =>
    obtain rfl : key = .none := by rwa [hget] at hkey
    cases sortValues reverse xs <;> rfl

end

/-- A world with one list, and a caller for the function that gives back its argument. -/
def World.ofItems (items : List Value) : World :=
  { World.fresh .live .capture with heap := ⟨#[items.toArray], #[], #[], #[]⟩ }

def callIdentity : Caller := fun _ args => Run.pure (args.headD .none)

end Scripting
