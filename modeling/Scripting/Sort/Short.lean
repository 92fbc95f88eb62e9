/-
# Sorting a few items

Each half of the list starts with a group that is sorted by a fixed scheme of
comparisons; the other items of the half are inserted, and the halves are merged from
both ends. This takes few comparisons for the lengths it is used for, and it is right
for any length.
-/
import Scripting.Sort.Merge

namespace Scripting.Sort

variable {α ε : Type}

/-- How many items are sorted by a fixed scheme. -/
inductive Group where
  | one
  | four
  | eight

def orderTwo (before : α → α → Except ε Bool) (a b : α) : Except ε (α × α) :=
  match before b a with
  | .error e => .error e
  | .ok true => .ok (b, a)
  | .ok false => .ok (a, b)

/-- Sorts four items with five comparisons: within two pairs, between the first and
between the last items of these, and between the two that are then still open. -/
def sortFour (before : α → α → Except ε Bool) (a b c d : α) : Except ε (List α) := do
  let (a, b) ← orderTwo before a b
  let (c, d) ← orderTwo before c d
  let firstRight ← before c a
  let lastLeft ← before d b
  let (low, high) ←
    match firstRight, lastLeft with
    | false, false => orderTwo before b c
    | false, true => orderTwo before c d
    | true, false => orderTwo before a b
    | true, true => orderTwo before a d
  return [if firstRight then c else a, low, high, if lastLeft then b else d]

/-- Sorts a group at the front, as large as the list allows; gives the group and the
items behind it. -/
def sortGroup (before : α → α → Except ε Bool) : Group → List α → Except ε (List α × List α)
  | .eight, a :: b :: c :: d :: e :: f :: g :: h :: rest => do
    let left ← sortFour before a b c d
    let right ← sortFour before e f g h
    return (← mergeEnds before left right, rest)
  | .four, a :: b :: c :: d :: rest => do
    return (← sortFour before a b c d, rest)
  | _, xs => .ok (xs.take 1, xs.drop 1)

/-- The group that the halves of so many items start with. -/
def groupFor (widest : Group) (length : Nat) : Group :=
  match widest with
  | .eight => if 16 ≤ length then .eight else if 8 ≤ length then .four else .one
  | .four => if 8 ≤ length then .four else .one
  | .one => .one

/-- Sorts a few items. Both groups are sorted before an item is inserted. -/
def sortShort (before : α → α → Except ε Bool) (widest : Group) (xs : List α) :
    Except ε (List α) := do
  let group := groupFor widest xs.length
  let (left, leftRest) ← sortGroup before group (xs.take (xs.length / 2))
  let (right, rightRest) ← sortGroup before group (xs.drop (xs.length / 2))
  let left ← insertAll before left.reverse leftRest
  let right ← insertAll before right.reverse rightRest
  mergeEnds before left right

end Scripting.Sort
