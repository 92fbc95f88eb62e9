/-
# Built-ins on collections
-/
import Scripting.Builtin.Signature
import Scripting.Number.Word
import Scripting.World

namespace Scripting

/-- How many characters, items or entries a value has. -/
def lengthOf (h : Heap) : Value → Except Fault Value
  | .str s => .ok (.ofNat s.length)
  | .list r => .ok (.ofNat (h.list r).size)
  | .dict r => .ok (.ofNat (h.dict r).size)
  | v => .error (typeFault s!"object of type '{v.typeName}' has no len()")

def characterOf (v : Value) : Except Fault Value := do
  let code ← v.asInt
  let n := code.toInt.toNat
  if 0 ≤ code ∧ n.isValidChar then return .str (String.singleton (Char.ofNat n))
  else .error (argumentFault s!"chr() arg {Word64.text code} not in range")

def codePointOf (v : Value) : Except Fault Value := do
  let s ← v.asStr
  match s.toList with
  | [c] => return .ofNat c.toNat
  | cs =>
    .error (typeFault s!"ord() expected a character, but string of length {cs.length} found")

/-- The entries that a list of pairs stands for, behind those of a table. -/
def pairEntries (h : Heap) (entries : Table Value) : List Value → Except Fault (Table Value)
  | [] => .ok entries
  | pair :: rest =>
    match h.iterate pair with
    | .error f => .error f
    | .ok [key, value] =>
      match key.asStr with
      | .error f => .error f
      | .ok name => pairEntries h (entries.insert name value) rest
    | .ok _ => .error (typeFault "dict() sequence elements must be pairs")

/-- The entries that `dict` makes of its argument. -/
def entriesOf (h : Heap) : Option Value → Except Fault (Table Value)
  | none => .ok .empty
  | some (.dict r) => .ok (h.dict r)
  | some v =>
    match h.iterate v with
    | .error f => .error f
    | .ok pairs => pairEntries h .empty pairs

/-- The items with their numbers, counted from a start. -/
def numbered (start : Int64) (items : List Value) : Except Fault (List (List Value)) :=
  if items.isEmpty || Word64.fits (start.toInt + items.length - 1) then
    .ok (items.zipIdx.map fun (v, i) => [.int (Int64.ofInt (start.toInt + i)), v])
  else .error (overflowFault "enumerate() index overflow")

/-- The items of several columns row by row, as many rows as the shortest column
has. -/
def rowsOf (columns : List (List Value)) : List (List Value) :=
  let arrays := columns.map List.toArray
  let count := ((arrays.map Array.size).min?).getD 0
  (List.range count).map fun i => arrays.map fun column => column.getD i .none

/-- The results of calls with rows of arguments, behind those that are there. -/
def callRows (call : List Value → Run Value) (done : Array Value) :
    List (List Value) → Run (Array Value)
  | [] => pure done
  | row :: rest => do
    let v ← call row
    callRows call (done.push v) rest

/-- The items that a test holds of, behind those that are there. -/
def keepItems (test : Value → Run Bool) (kept : Array Value) : List Value → Run (Array Value)
  | [] => pure kept
  | item :: rest => do
    let keep ← test item
    keepItems test (if keep then kept.push item else kept) rest

end Scripting
