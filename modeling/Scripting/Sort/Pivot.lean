/-
# Sorting by a pivot

The items that come before a chosen item go to its left, the others stay on its right,
and both parts are sorted alike. Where nothing comes before the pivot the items equal to
it are set apart instead. The parts may become unbalanced; the number of splits on a way
down is limited, and a part that is still long then is sorted by stretches.
-/
import Scripting.Sort.Stretch

namespace Scripting.Sort

variable {α ε : Type}

/-- Of three positions the one whose item is between the others. -/
def medianOfThree (before : α → α → Except ε Bool) (item : Nat → α) (a b c : Nat) :
    Except ε Nat := do
  let beforeB ← before (item a) (item b)
  let beforeC ← before (item a) (item c)
  if beforeB = beforeC then
    return if (← before (item b) (item c)) = beforeB then b else c
  else return a

/-- The median of three positions, each of which is first moved to the median around it
if there is a stride of eight or more between them. -/
def medianAround (before : α → α → Except ε Bool) (item : Nat → α) (a b c stride : Nat) :
    Except ε Nat :=
  if 8 ≤ stride then do
    let m := stride / 8
    let a ← medianAround before item a (a + m * 4) (a + m * 7) m
    let b ← medianAround before item b (b + m * 4) (b + m * 7) m
    let c ← medianAround before item c (c + m * 4) (c + m * 7) m
    medianOfThree before item a b c
  else medianOfThree before item a b c
termination_by stride
decreasing_by all_goals omega

/-- The position of the pivot among so many items, taken from their first, fifth and
eighth eighth. -/
def pivotPosition (before : α → α → Except ε Bool) (item : Nat → α) (length : Nat) :
    Except ε Nat :=
  let eighth := length / 8
  medianAround before item 0 (eighth * 4) (eighth * 7) eighth

/-- A list around one of its items. -/
structure Around (α : Type) where
  front : List α
  pivot : α
  behind : List α

/-- The list with its item at a position as the pivot; without such an item the first
one is the pivot. -/
def Around.ofPosition (first : α) (rest : List α) (position : Nat) : Around α :=
  match (first :: rest).splitAt position with
  | (front, pivot :: behind) => ⟨front, pivot, behind⟩
  | (_, []) => ⟨[], first, rest⟩

def choosePivot (before : α → α → Except ε Bool) (first : α) (rest : List α) :
    Except ε (Around α) := do
  let items := (first :: rest).toArray
  let position ← pivotPosition before (fun i => items.getD i first) items.size
  return .ofPosition first rest position

/-- Splits items by a test, behind those on both sides so far; all are held with the last
one first. -/
def splitBy (test : α → Except ε Bool) (left right : List α) :
    List α → Except ε (List α × List α)
  | [] => .ok (left, right)
  | x :: rest =>
    match test x with
    | .error e => .error e
    | .ok true => splitBy test (x :: left) right rest
    | .ok false => splitBy test left (x :: right) rest

/-- The items that come before the pivot, and the others with the pivot. -/
def Around.split (before : α → α → Except ε Bool) (xs : Around α) :
    Except ε (List α × List α) := do
  let test := fun x => before x xs.pivot
  let (left, right) ← splitBy test [] [] xs.front
  let (left, right) ← splitBy test left (xs.pivot :: right) xs.behind
  return (left.reverse, right.reverse)

/-- The pivot with the items that it does not come before, and the others. -/
def Around.splitEqual (before : α → α → Except ε Bool) (xs : Around α) :
    Except ε (List α × List α) := do
  let test := fun x => (before xs.pivot x).map not
  let (left, right) ← splitBy test [] [] xs.front
  let (left, right) ← splitBy test (xs.pivot :: left) right xs.behind
  return (left.reverse, right.reverse)

/-- Sorts by pivots with a limited number of splits. No item comes before the bound, if
there is one: it is the pivot of the split that these items were on the right of. A
pivot that the bound does not come before is therefore a least item, and no item is asked
whether it comes before it. -/
def sortWithin (before : α → α → Except ε Bool) (widest : Group) :
    Nat → Option α → List α → Except ε (List α)
  | _, _, [] => .ok []
  | 0, _, xs =>
    if xs.length ≤ shortLength then sortShort before widest xs
    else sortStretches before widest .atOnce xs
  | splits + 1, bound, x :: xs =>
    if xs.length < shortLength then sortShort before widest (x :: xs)
    else do
      let around ← choosePivot before x xs
      let least ←
        match bound with
        | none => .ok false
        | some bound => (before bound around.pivot).map not
      let (left, right) ← if least then .ok ([], []) else around.split before
      if left.isEmpty then
        let (equal, right) ← around.splitEqual before
        return equal ++ (← sortWithin before widest splits none right)
      else
        let right ← sortWithin before widest splits (some around.pivot) right
        let left ← sortWithin before widest splits bound left
        return left ++ right

def sortByPivot (before : α → α → Except ε Bool) (widest : Group) (xs : List α) :
    Except ε (List α) :=
  sortWithin before widest (2 * xs.length.log2) none xs

end Scripting.Sort
