/-
# Order

Numbers are ordered by size and texts by code point. Two whole numbers are compared
exactly; a mix with floats is compared as floats. Nothing else has an order, and a
float that is not a number has none either. Values are sorted up or down, by
themselves or by keys; items under the same key, or equal items, keep their order in both
directions.
-/
import Scripting.Sort
import Scripting.Value.Access

namespace Scripting

namespace Value

def compareFloats (a b : Float) : Except Fault Ordering :=
  if a < b then .ok .lt
  else if a == b then .ok .eq
  else if a > b then .ok .gt
  else .error (typeFault "cannot order NaN")

def compareTexts (a b : String) : Ordering :=
  if a < b then .lt else if a = b then .eq else .gt

def compare (a b : Value) : Except Fault Ordering :=
  match a, b with
  | .int a, .int b => .ok (Ord.compare a.toInt b.toInt)
  | .int a, .float b => compareFloats (floatOfWord a) b
  | .float a, .int b => compareFloats a (floatOfWord b)
  | .float a, .float b => compareFloats a b
  | .str a, .str b => .ok (compareTexts a b)
  | a, b => .error (typeFault s!"cannot compare {a.typeName} with {b.typeName}")

end Value

def comesBefore (reverse : Bool) (a b : Value) : Except Fault Bool :=
  match a.compare b with
  | .error f => .error f
  | .ok order => .ok (order == if reverse then .gt else .lt)

/-- Sorts values, in groups of four and at most 333333 together. -/
def sortValues (reverse : Bool) (xs : List Value) : Except Fault (List Value) :=
  sortBy .four 333333 (comesBefore reverse) xs

/-- Sorts items by their keys, in groups of eight and at most 1000000 together. -/
def sortKeyed {α : Type} (reverse : Bool) (keyed : List (Value × α)) : Except Fault (List α) :=
  match sortBy .eight 1000000 (fun a b => comesBefore reverse a.1 b.1) keyed with
  | .error f => .error f
  | .ok sorted => .ok (sorted.map Prod.snd)

end Scripting
