/-
# The methods of lists
-/
import Scripting.Method.Signature
import Scripting.Subscript
import Scripting.Value.Equality
import Scripting.Value.Order

namespace Scripting

inductive ListMethod where
  | append | extend | pop | insert | index | count | remove | clear | copy | reverse | sort
  deriving DecidableEq, Repr

namespace ListMethod

def ofText? : String → Option ListMethod
  | "append" => some .append
  | "extend" => some .extend
  | "pop" => some .pop
  | "insert" => some .insert
  | "index" => some .index
  | "count" => some .count
  | "remove" => some .remove
  | "clear" => some .clear
  | "copy" => some .copy
  | "reverse" => some .reverse
  | "sort" => some .sort
  | _ => none

def signature : ListMethod → Signature
  | .append | .extend | .index | .count | .remove => .exactly 1
  | .pop => .between 0 1
  | .insert => .exactly 2
  | .clear | .copy | .reverse => .exactly 0
  | .sort => ⟨0, some 0, some ["reverse"]⟩

def appendAll (r : ListRef) (items : List Value) : Run Value := do
  Run.changeHeap fun h => h.modifyList r fun old => old ++ items
  return .none

/-- Takes an item out of a list; the last one if no place is given. -/
def popItem (r : ListRef) (place : Option Value) : Run Value := do
  let i ← match place with
    | some v => Run.ofExcept v.asInt
    | none => Run.pure (-1)
  let found ← Run.inspect fun h =>
    let items := h.list r
    match (positionOf? i items.size).bind fun place => items[place]?.map fun v => (place, v) with
    | some pair => .ok pair
    | none =>
      .error (indexFault (if items.isEmpty then "pop from empty list" else "pop index out of range"))
  Run.changeHeap fun h => h.modifyList r fun items => items.eraseIdxIfInBounds found.1
  return found.2

/-- The place before which an item is inserted: places beyond the ends are the
ends. -/
def insertionPlace (i : Int64) (size : Nat) : Nat :=
  if i < 0 then (i.toInt + size).toNat else min i.toInt.toNat size

def insertItem (r : ListRef) (place item : Value) : Run Value := do
  let i ← Run.ofExcept place.asInt
  Run.changeHeap fun h => h.modifyList r fun items =>
    items.insertIdxIfInBounds (insertionPlace i items.size) item
  return .none

def place (h : Heap) (r : ListRef) (item : Value) : Except Fault Nat :=
  match h.findItem item (h.list r).toList with
  | .error f => .error f
  | .ok (some place) => .ok place
  | .ok none => .error (indexFault s!"{h.repr item} is not in list")

def countItems (h : Heap) (needle : Value) (found : Nat) : List Value → Except Fault Nat
  | [] => .ok found
  | item :: rest =>
    match h.equals item needle with
    | .error f => .error f
    | .ok same => countItems h needle (if same then found + 1 else found) rest

def sortItems (r : ListRef) (keywords : Keywords) : Run Value := do
  let sorted ← Run.inspect fun h => do
    let reverse ← keywords.bool "reverse" false
    sortValues reverse (h.list r).toList
  Run.changeHeap fun h => h.modifyList r fun _ => sorted.toArray
  return .none

def run (method : ListMethod) (r : ListRef) (args : List Value) (keywords : Keywords) :
    Run Value :=
  let first := args.headD .none
  match method with
  | .append => appendAll r [first]
  | .extend => do
    let items ← Run.inspect fun h => h.iterate first
    appendAll r items
  | .pop => popItem r args.head?
  | .insert => insertItem r first (args.getD 1 .none)
  | .index => Run.inspect fun h => (place h r first).map Value.ofNat
  | .count => Run.inspect fun h => (countItems h first 0 (h.list r).toList).map Value.ofNat
  | .remove => do
    let found ← Run.inspect fun h => place h r first
    Run.changeHeap fun h => h.modifyList r fun items => items.eraseIdxIfInBounds found
    return .none
  | .clear => do
    Run.changeHeap fun h => h.modifyList r fun _ => #[]
    return .none
  | .copy => do
    let items ← Run.view fun w => w.heap.list r
    Run.newList items
  | .reverse => do
    Run.changeHeap fun h => h.modifyList r Array.reverse
    return .none
  | .sort => sortItems r keywords

end ListMethod

end Scripting
