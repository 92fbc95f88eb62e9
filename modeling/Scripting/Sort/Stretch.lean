/-
# Sorting by stretches

A list is cut into stretches: long ones that are in order already, up or strictly down,
and what stands between them. Neighbours are merged in the order of a nearly balanced
tree over their middles, while the list is read only once from left to right. Items that
are not in order are sorted at once in short pieces, or they are collected and sorted
when a neighbour in order has to be merged with them.
-/
import Scripting.Sort.Short

namespace Scripting.Sort

variable {α ε : Type}

/-- Items that stand side by side, and whether they are in order. -/
structure Stretch (α : Type) where
  items : List α
  sorted : Bool

/-- How items are sorted that are not in order. -/
inductive Sorting (α ε : Type) where
  /-- At once, in short pieces. -/
  | atOnce
  /-- By a sort that is given, when a neighbour asks for it or when together they would
  be more than a number of items. -/
  | later (room : Nat) (sort : List α → Except ε (List α))

def Stretch.inOrder (before : α → α → Except ε Bool) (widest : Group) (how : Sorting α ε)
    (s : Stretch α) : Except ε (List α) :=
  if s.sorted then .ok s.items
  else
    match how with
    | .atOnce => sortShort before widest s.items
    | .later _ sort => sort s.items

/-- Whether two neighbours that are both not in order are left like that. -/
def Sorting.puts (how : Sorting α ε) (left right : Stretch α) : Bool :=
  match how with
  | .atOnce => false
  | .later room _ =>
    !left.sorted && !right.sorted && left.items.length + right.items.length ≤ room

def Stretch.join (before : α → α → Except ε Bool) (widest : Group) (how : Sorting α ε)
    (left right : Stretch α) : Except ε (Stretch α) := do
  if how.puts left right then return ⟨left.items ++ right.items, false⟩
  let xs ← left.inOrder before widest how
  let ys ← right.inOrder before widest how
  return ⟨← merge before xs ys, true⟩

/-- Goes on while each item comes before the one in front of it, or while none does. The
items so far are held with the last one first. -/
def extend (before : α → α → Except ε Bool) (down : Bool) (last : α) (taken : List α) :
    List α → Except ε (List α)
  | [] => .ok (last :: taken)
  | x :: rest =>
    match before x last with
    | .error e => .error e
    | .ok answer =>
      if answer = down then extend before down x (last :: taken) rest
      else .ok (last :: taken)

/-- The items at the front that are in order, turned round if they go strictly down. -/
def orderedFront (before : α → α → Except ε Bool) : List α → Except ε (List α)
  | x :: y :: rest =>
    match before y x with
    | .error e => .error e
    | .ok down =>
      match extend before down y [x] rest with
      | .error e => .error e
      | .ok taken => .ok (if down then taken else taken.reverse)
  | xs => .ok xs

/-- Items up to this number are sorted in one short piece. -/
def shortLength : Nat := 32

/-- The first stretch of a list of a known length: the items in order at the front, if
they are as many as asked for, else a piece that is sorted at once or left as it is. -/
def firstStretch (before : α → α → Except ε Bool) (widest : Group) (how : Sorting α ε)
    (wanted length : Nat) (xs : List α) : Except ε (Stretch α) := do
  if wanted ≤ length then
    let front ← orderedFront before xs
    if wanted ≤ front.length then return ⟨front, true⟩
  match how with
  | .atOnce => return ⟨← sortShort before widest (xs.take shortLength), true⟩
  | .later .. => return ⟨xs.take wanted, false⟩

/-- The least length of a stretch that counts as in order, for a list of some length:
half of a short list, 64 items, or about the square root of a long list's length. -/
def wantedLength (length : Nat) : Nat :=
  if length ≤ 4096 then min (length - length / 2) 64
  else
    let half := (1 + length.log2) / 2
    (Nat.pow 2 half + length / Nat.pow 2 half) / 2

/-- How deep in a balanced tree over a list of some length two neighbours are joined. They
go from `first` to `middle` and from there to `last`, and their middles, as parts of the
whole, are told apart by the first of 64 binary places in which they differ. -/
def joinDepth (length first middle last : Nat) : Nat :=
  let scale := (Nat.pow 2 62 + length - 1) / length
  63 - ((scale * (first + middle)) ^^^ (scale * (middle + last))).log2

/-- Joins the waiting stretches on the left that are to be joined at some depth or
deeper. Each waits with the depth at which it meets its right neighbour. -/
def joinDeeper (join : Stretch α → Stretch α → Except ε (Stretch α)) (depth : Nat) :
    List (Stretch α × Nat) → Stretch α → Except ε (List (Stretch α × Nat) × Stretch α)
  | [], s => .ok ([], s)
  | (left, d) :: waiting, s =>
    if depth ≤ d then
      match join left s with
      | .error e => .error e
      | .ok s => joinDeeper join depth waiting s
    else .ok ((left, d) :: waiting, s)

/-- Reads the rest of a list behind the last stretch that was read. A stretch is never
empty, so the rest gets shorter. -/
def readStretches (first : Nat → List α → Except ε (Stretch α))
    (join : Stretch α → Stretch α → Except ε (Stretch α)) (length : Nat)
    (waiting : List (Stretch α × Nat)) (s : Stretch α) (position : Nat) (rest : List α) :
    Except ε (Stretch α) :=
  match rest with
  | [] =>
    match joinDeeper join 0 waiting s with
    | .error e => .error e
    | .ok (_, s) => .ok s
  | x :: xs =>
    match first (length - position) (x :: xs) with
    | .error e => .error e
    | .ok next =>
      let width := max 1 next.items.length
      let depth := joinDepth length (position - s.items.length) position (position + width)
      match joinDeeper join depth waiting s with
      | .error e => .error e
      | .ok (waiting, s) =>
        readStretches first join length ((s, depth) :: waiting) next (position + width)
          ((x :: xs).drop width)
termination_by rest.length
decreasing_by
  have := Nat.le_max_left 1 next.items.length
  simp only [List.length_drop, List.length_cons]
  omega

def sortStretches (before : α → α → Except ε Bool) (widest : Group) (how : Sorting α ε)
    (xs : List α) : Except ε (List α) := do
  let length := xs.length
  let first := firstStretch before widest how (wantedLength length)
  let start ← first length xs
  let width := start.items.length
  let all ← readStretches first (Stretch.join before widest how) length [] start width
    (xs.drop width)
  all.inOrder before widest how

end Scripting.Sort
