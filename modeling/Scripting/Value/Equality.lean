/-
# Equality

Two values are equal if they have the same kind and the same content; whole numbers
and floats are compared as floats. A container equals itself without a look inside.
Otherwise containers are equal if they have the same size and equal items; the items
of dicts are matched by key. Functions are equal if they are the same function.
Containers inside each other beyond `comparisonDepth` are not compared: that is a
fault.
-/
import Scripting.Text.Search
import Scripting.Value.Access

namespace Scripting

/-- How deep containers may nest for a comparison. -/
def comparisonDepth : Nat := 1000

def comparisonFault : Fault :=
  .of .stackOverflow "maximum recursion depth exceeded in comparison"

/-- Whether a test holds of all pairs, up to the first that fails. -/
def allPairs {α β : Type} (test : α → β → Except Fault Bool) : List (α × β) → Except Fault Bool
  | [] => .ok true
  | (a, b) :: rest =>
    match test a b with
    | .ok true => allPairs test rest
    | other => other

/-- Whether a test holds of all entries of one table and what the other has under
the same names, up to the first name that fails. -/
def allEntries {α β : Type} (test : α → β → Except Fault Bool) (other : Table β) :
    List (String × α) → Except Fault Bool
  | [] => .ok true
  | (name, a) :: rest =>
    match other.get? name with
    | none => .ok false
    | some b =>
      match test a b with
      | .ok true => allEntries test other rest
      | result => result

namespace Heap

/-- Equality of values whose containers may nest some levels more. -/
def equalsWithin (h : Heap) (levels : Nat) (a b : Value) : Except Fault Bool :=
  match a, b with
  | .none, .none => .ok true
  | .bool a, .bool b => .ok (a == b)
  | .int a, .int b => .ok (a == b)
  | .float a, .float b => .ok (a == b)
  | .int a, .float b => .ok (Value.floatOfWord a == b)
  | .float a, .int b => .ok (Value.floatOfWord b == a)
  | .str a, .str b => .ok (a == b)
  | .list r, .list s =>
    if r = s then .ok true
    else if (h.list r).size ≠ (h.list s).size then .ok false
    else
      match levels with
      | 0 => .error comparisonFault
      | levels + 1 => allPairs (h.equalsWithin levels) ((h.list r).toList.zip (h.list s).toList)
  | .dict r, .dict s =>
    if r = s then .ok true
    else if (h.dict r).size ≠ (h.dict s).size then .ok false
    else
      match levels with
      | 0 => .error comparisonFault
      | levels + 1 => allEntries (h.equalsWithin levels) (h.dict s) (h.dict r).entries
  | .function r, .function s => .ok (r == s)
  | .error a, .error b => .ok (a == b)
  | _, _ => .ok false
termination_by structural levels

def equals (h : Heap) (a b : Value) : Except Fault Bool := h.equalsWithin comparisonDepth a b

/-- The place of the first item that equals a value, counted from a start. -/
def findItemFrom (h : Heap) (needle : Value) (place : Nat) : List Value → Except Fault (Option Nat)
  | [] => .ok none
  | item :: rest =>
    match h.equals item needle with
    | .error f => .error f
    | .ok true => .ok (some place)
    | .ok false => findItemFrom h needle (place + 1) rest

def findItem (h : Heap) (needle : Value) (items : List Value) : Except Fault (Option Nat) :=
  h.findItemFrom needle 0 items

/-- Whether a value is in a container: an item of a list, a key of a dict, a part
of a text. -/
def contains (h : Heap) (container needle : Value) : Except Fault Bool :=
  match container with
  | .list r =>
    match h.findItem needle (h.list r).toList with
    | .ok place => .ok place.isSome
    | .error f => .error f
  | .dict r =>
    match needle with
    | .str key => .ok ((h.dict r).contains key)
    | _ => .ok false
  | .str s =>
    match needle with
    | .str part => .ok (Text.contains s part)
    | _ => .error (typeFault s!"'in <str>' requires str as left operand, not {needle.typeName}")
  | _ => .error (typeFault s!"argument of type '{container.typeName}' is not iterable")

end Heap

end Scripting
