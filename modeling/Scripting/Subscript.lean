/-
# Parts of values

Items, slices and members of containers, and spreading a value over several
targets.
-/
import Scripting.Value.Render
import Scripting.Value.Slice
import Scripting.World

namespace Scripting

def indexFault (message : String) : Fault := .of .index message

def dictKey : Value → Except Fault String
  | .str s => .ok s
  | v => .error (typeFault s!"dict keys must be str, not {v.typeName}")

def notSubscriptable (v : Value) : Fault := typeFault s!"'{v.typeName}' object is not subscriptable"

namespace Heap

def getItem (h : Heap) (container key : Value) : Except Fault Value :=
  match container with
  | .list r =>
    match key with
    | .int i =>
      match (positionOf? i (h.list r).size).bind fun place => (h.list r)[place]? with
      | some v => .ok v
      | none => .error (indexFault "list index out of range")
    | _ => .error (typeFault s!"list indices must be integers, not {key.typeName}")
  | .dict r =>
    match dictKey key with
    | .error f => .error f
    | .ok name =>
      match (h.dict r).get? name with
      | some v => .ok v
      | none => .error (.of .key (quoted name))
  | .str s =>
    match key with
    | .int i =>
      match (positionOf? i s.length).bind fun place => s.toList[place]? with
      | some c => .ok (.str (String.singleton c))
      | none => .error (indexFault "string index out of range")
    | _ => .error (typeFault s!"string indices must be integers, not {key.typeName}")
  | _ => .error (notSubscriptable container)

def member (h : Heap) (object : Value) (name : String) : Except Fault Value :=
  match object with
  | .dict r =>
    match (h.dict r).get? name with
    | some v => .ok v
    | none => .error (.of .name s!"'dict' object has no attribute '{name}'")
  | _ => .error (typeFault s!"'{object.typeName}' object has no attribute '{name}'")

/-- The items of a value, if they are as many as expected. -/
def unpack (h : Heap) (v : Value) (expected : Nat) : Except Fault (List Value) :=
  match h.iterate v with
  | .error _ => .error (typeFault s!"cannot unpack non-iterable {v.typeName} object")
  | .ok items =>
    if items.length < expected then
      .error (argumentFault
        s!"not enough values to unpack (expected {expected}, got {items.length})")
    else if expected < items.length then
      .error (argumentFault s!"too many values to unpack (expected {expected})")
    else .ok items

end Heap

def setItem (container key value : Value) : Run Unit :=
  match container with
  | .list r =>
    match key with
    | .int i => do
      let size ← Run.view fun w => (w.heap.list r).size
      match positionOf? i size with
      | some place => Run.changeHeap fun h => h.modifyList r fun items => items.setIfInBounds place value
      | none => Run.fail (indexFault "list assignment index out of range")
    | _ => Run.fail (typeFault s!"list indices must be integers, not {key.typeName}")
  | .dict r => do
    let name ← Run.ofExcept (dictKey key)
    Run.changeHeap fun h => h.modifyDict r fun entries => entries.insert name value
  | _ => Run.fail (typeFault s!"'{container.typeName}' object does not support item assignment")

def slice (target : Value) (bounds : SliceBounds) : Run Value :=
  match target with
  | .list r => do
    let items ← Run.view fun w => w.heap.list r
    let places ← Run.ofExcept (slicePositions items.size bounds)
    Run.newList (places.filterMap fun place => items[place]?).toArray
  | .str s => do
    let text := s.toList.toArray
    let places ← Run.ofExcept (slicePositions text.size bounds)
    return .ofChars (places.filterMap fun place => text[place]?)
  | _ => Run.fail (notSubscriptable target)

end Scripting
