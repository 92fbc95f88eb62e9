/-
# Sorting

A stable sort whose comparison can fail; the first failure ends it. A few items are
sorted by insertion from the left, up to 64 by stretches and short pieces, and more by
stretches that are in order and by pivots between these. Which two items a failure is
about depends on the order of the comparisons, so that order is part of the result.
-/
import Scripting.Sort.Pivot

namespace Scripting

variable {α ε : Type}

/-- Lists up to this length are sorted by insertion. -/
def insertionLength : Nat := 20

/-- Lists up to this length are sorted piece by piece, without a pivot. -/
def piecewiseLength : Nat := 64

/-- Sorts a list; items of which neither comes before the other keep their order. Items
that are not in order are sorted together up to `room` of them, or half of the list if
that is more. -/
def sortBy (widest : Sort.Group) (room : Nat) (before : α → α → Except ε Bool)
    (xs : List α) : Except ε (List α) :=
  let length := xs.length
  if length ≤ insertionLength then Sort.insertAll before [] xs
  else if length ≤ piecewiseLength then Sort.sortStretches before widest .atOnce xs
  else
    Sort.sortStretches before widest
      (.later (max (length - length / 2) room) (Sort.sortByPivot before widest)) xs

end Scripting
