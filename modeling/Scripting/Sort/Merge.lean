/-
# Inserting and merging

The steps that every sort here is made of: putting an item into sorted items, and
merging two sorted lists from the front, from the back or from both ends at once. The
comparison can fail, and the first failure ends the step. It is always asked whether
the later of two items comes before the earlier one, so that items of which neither
comes before the other keep their order.
-/

namespace Scripting.Sort

variable {α ε : Type}

/-- Puts an item into sorted items. They are given with the last one first, and the
item goes behind those that it does not come before. -/
def insertLast (before : α → α → Except ε Bool) (x : α) : List α → Except ε (List α)
  | [] => .ok [x]
  | y :: rest =>
    match before x y with
    | .error e => .error e
    | .ok false => .ok (x :: y :: rest)
    | .ok true =>
      match insertLast before x rest with
      | .error e => .error e
      | .ok sorted => .ok (y :: sorted)

/-- Sorts by insertion into items that are sorted, with the last one first. -/
def insertAll (before : α → α → Except ε Bool) (sorted : List α) : List α → Except ε (List α)
  | [] => .ok sorted.reverse
  | x :: rest =>
    match insertLast before x sorted with
    | .error e => .error e
    | .ok sorted => insertAll before sorted rest

/-- Merges two sorted lists behind what has been merged, which is held in reverse.
Of two equal items the left one goes first. -/
def mergeInto (before : α → α → Except ε Bool) (merged xs ys : List α) : Except ε (List α) :=
  match xs, ys with
  | [], ys => .ok (merged.reverse ++ ys)
  | xs, [] => .ok (merged.reverse ++ xs)
  | x :: xs, y :: ys =>
    match before y x with
    | .error e => .error e
    | .ok true => mergeInto before (y :: merged) (x :: xs) ys
    | .ok false => mergeInto before (x :: merged) xs (y :: ys)
termination_by xs.length + ys.length

/-- Merges two sorted lists, from the front if the left one is no longer than the
right one, else from the back. Seen from the back the lists change sides, and so do the
two items of a question. -/
def merge (before : α → α → Except ε Bool) (xs ys : List α) : Except ε (List α) :=
  if xs.length ≤ ys.length then mergeInto before [] xs ys
  else
    match mergeInto (fun y x => before x y) [] ys.reverse xs.reverse with
    | .error e => .error e
    | .ok merged => .ok merged.reverse

/-- Two lists that are being merged: what is left of them, and what has been taken from
them, the last one first. -/
structure Merging (α : Type) where
  left : List α
  right : List α
  taken : List α := []

/-- Takes the next item: the right one if it comes before the left one. With one list
used up there is nothing to choose, and nothing is taken. -/
def Merging.step (before : α → α → Except ε Bool) (m : Merging α) : Except ε (Merging α) :=
  match m.left, m.right with
  | x :: xs, y :: ys =>
    match before y x with
    | .error e => .error e
    | .ok true => .ok ⟨x :: xs, ys, y :: m.taken⟩
    | .ok false => .ok ⟨xs, y :: ys, x :: m.taken⟩
  | _, _ => .ok m

/-- Takes so many items from the front and as many from the back, in turn. -/
def stepBoth (before : α → α → Except ε Bool) :
    Nat → Merging α → Merging α → Except ε (Merging α × Merging α)
  | 0, front, back => .ok (front, back)
  | n + 1, front, back =>
    match front.step before with
    | .error e => .error e
    | .ok front =>
      match back.step fun y x => before x y with
      | .error e => .error e
      | .ok back => stepBoth before n front back

/-- Merges two sorted lists from both ends at once, half of all items from each end. The
right one is as long as the left one or longer by one item, so that one item at most is left
between the ends. If the ends overlap in a list, then the comparisons contradict each other
and what has been taken is no answer. A sort may give up then; here the items are sorted by
insertion. -/
def mergeEnds (before : α → α → Except ε Bool) (xs ys : List α) : Except ε (List α) :=
  match stepBoth before xs.length ⟨xs, ys, []⟩ ⟨ys.reverse, xs.reverse, []⟩ with
  | .error e => .error e
  | .ok (front, back) =>
    let left := front.left.length + back.right.length
    let right := front.right.length + back.left.length
    if left < xs.length || right < ys.length then insertAll before [] (xs ++ ys)
    else
      let middle := front.left.take (left - xs.length) ++ front.right.take (right - ys.length)
      .ok (front.taken.reverse ++ middle ++ back.taken)

end Scripting.Sort
