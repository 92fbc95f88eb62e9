/-
# The methods of dicts
-/
import Scripting.Method.Signature
import Scripting.Subscript

namespace Scripting

inductive DictMethod where
  | keys | values | items | get | pop | setdefault | update | clear | copy
  deriving DecidableEq, Repr

namespace DictMethod

def ofText? : String → Option DictMethod
  | "keys" => some .keys
  | "values" => some .values
  | "items" => some .items
  | "get" => some .get
  | "pop" => some .pop
  | "setdefault" => some .setdefault
  | "update" => some .update
  | "clear" => some .clear
  | "copy" => some .copy
  | _ => none

def signature : DictMethod → Signature
  | .keys | .values | .items | .clear | .copy => .exactly 0
  | .get | .pop | .setdefault => .between 1 2
  | .update => ⟨0, some 1, none⟩

def putAll (entries : List (String × Value)) (table : Table Value) : Table Value :=
  entries.foldl (fun t e => t.insert e.1 e.2) table

def popEntry (r : DictRef) (key : String) (default : Option Value) : Run Value := do
  let found ← Run.inspect fun h =>
    match (h.dict r).get? key, default with
    | some v, _ => .ok v
    | none, some v => .ok v
    | none, none => .error (.of .key s!"key {quoted key} not found")
  Run.changeHeap fun h => h.modifyDict r fun entries => entries.erase key
  return found

/-- The value under a key, which is put there first if the key is new. -/
def getOrPut (r : DictRef) (key : String) (default : Value) : Run Value := do
  let found ← Run.view fun w => (w.heap.dict r).get? key
  match found with
  | some v => return v
  | none =>
    Run.changeHeap fun h => h.modifyDict r fun entries => entries.insert key default
    return default

/-- Puts the entries of another dict and the keywords into a dict. -/
def updateEntries (r : DictRef) (other : Option Value) (keywords : Keywords) : Run Value := do
  let incoming ← match other with
    | some v => Run.inspect fun h => v.asDict.map fun s => (h.dict s).entries
    | none => Run.pure []
  Run.changeHeap fun h => h.modifyDict r fun entries =>
    putAll keywords.sorted (putAll incoming entries)
  return .none

def run (method : DictMethod) (r : DictRef) (args : List Value) (keywords : Keywords) :
    Run Value := do
  let key := dictKey (args.headD .none)
  let entries ← Run.view fun w => w.heap.dict r
  match method with
  | .keys => Run.newList (entries.keys.map Value.str).toArray
  | .values => Run.newList entries.values.toArray
  | .items => Run.newTable (entries.entries.map fun e => [.str e.1, e.2])
  | .get => do
    let key ← Run.ofExcept key
    return (entries.get? key).getD (args.getD 1 .none)
  | .pop => do
    let key ← Run.ofExcept key
    popEntry r key args[1]?
  | .setdefault => do
    let key ← Run.ofExcept key
    getOrPut r key (args.getD 1 .none)
  | .update => updateEntries r args.head? keywords
  | .clear => do
    Run.changeHeap fun h => h.modifyDict r fun _ => .empty
    return .none
  | .copy => Run.newDict entries

end DictMethod

end Scripting
