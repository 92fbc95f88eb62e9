/-
# The built-in functions

A call is checked first and then run. Built-ins that take a function call it through
the caller that they are given.
-/
import Scripting.Builtin.Collection
import Scripting.Builtin.Number
import Scripting.Method.Dict
import Scripting.Method.List
import Scripting.Value.Order

namespace Scripting

/-- How a host function calls a function that it was given. -/
abbrev Caller := Value → List Value → Run Value

namespace Builtin

def printValues (quiet : Bool) (args : List Value) (keywords : Keywords) : Run Value := do
  let separator ← Run.ofExcept (keywords.str "sep" " ")
  let ending ← Run.ofExcept (keywords.str "end" "\n")
  let texts ← Run.view fun w => args.map w.heap.display
  if !quiet then Run.write (String.intercalate separator texts ++ ending)
  return .none

/-- Sorts the items of a value, by themselves or by what a function makes of
them. -/
def sortedItems (call : Caller) (v : Value) (keywords : Keywords) : Run Value := do
  let reverse ← Run.ofExcept (keywords.bool "reverse" false)
  let items ← Run.inspect fun h => h.iterate v
  match keywords.get? "key" with
  | none | some .none =>
    let sorted ← Run.ofExcept (sortValues reverse items)
    Run.newList sorted.toArray
  | some key =>
    let keys ← callRows (call key) #[] (items.map fun item => [item])
    let sorted ← Run.ofExcept (sortKeyed reverse (keys.toList.zip items))
    Run.newList sorted.toArray

/-- The items that pass a test; without a test, those that are true. -/
def filteredItems (call : Caller) (test v : Value) : Run Value := do
  let items ← Run.inspect fun h => h.iterate v
  let truthy (v : Value) : Run Bool := Run.view fun w => w.heap.isTruthy v
  let kept ← match test with
    | .none => keepItems truthy #[] items
    | f => keepItems (fun item => do truthy (← call f [item])) #[] items
  Run.newList kept

def columnsOf (h : Heap) (args : List Value) : Except Fault (List (List Value)) :=
  args.mapM h.iterate

def mappedRows (call : Caller) (args : List Value) : Run Value := do
  match args with
  | f :: first :: rest =>
    let columns ← Run.inspect fun h => columnsOf h (first :: rest)
    let results ← callRows (call f) #[] (rowsOf columns)
    Run.newList results
  | _ => Run.fail (argumentFault "map() must have at least two arguments")

def body (b : Builtin) (quiet : Bool) (call : Caller) (args : List Value) (keywords : Keywords) :
    Run Value :=
  let first := args.headD .none
  match b with
  | .print => printValues quiet args keywords
  | .len => Run.inspect fun h => lengthOf h first
  | .str => Run.view fun w => .str ((args.head?.map w.heap.display).getD "")
  | .repr => Run.view fun w => .str (w.heap.repr first)
  | .int => Run.ofExcept (if args.isEmpty then .ok (.int 0) else intOf first)
  | .float => Run.ofExcept (if args.isEmpty then .ok (.float 0.0) else floatOf first)
  | .bool => Run.view fun w => .bool (w.heap.isTruthy first)
  | .type => return .str first.typeName
  | .chr => Run.ofExcept (characterOf first)
  | .ord => Run.ofExcept (codePointOf first)
  | .range => do
    let items ← Run.ofExcept (rangeOf args)
    Run.newList items.toArray
  | .sum => Run.inspect fun h => do
    let start := (args[1]?.or (keywords.get? "start")).getD (.int 0)
    sumItems start (← h.iterate first)
  | .min => Run.inspect fun h => extremeOf h "min" .lt args
  | .max => Run.inspect fun h => extremeOf h "max" .gt args
  | .abs => Run.ofExcept (absoluteNumber first)
  | .round => Run.ofExcept do
    match args[1]? with
    | none | some .none => roundedNumber first none
    | some places => roundedNumber first (some (← places.asInt))
  | .sorted => sortedItems call first keywords
  | .reversed => do
    let items ← Run.inspect fun h => h.iterate first
    Run.newList items.reverse.toArray
  | .list => do
    let items ← Run.inspect fun h => if args.isEmpty then .ok [] else h.iterate first
    Run.newList items.toArray
  | .dict => do
    let entries ← Run.inspect fun h => entriesOf h args.head?
    Run.newDict (DictMethod.putAll keywords.sorted entries)
  | .enumerate => do
    let rows ← Run.inspect fun h => do
      let start ← keywords.int "start" 0
      numbered start (← h.iterate first)
    Run.newTable rows
  | .zip => do
    let columns ← Run.inspect fun h => columnsOf h args
    Run.newTable (rowsOf columns)
  | .map => mappedRows call args
  | .filter => filteredItems call first (args.getD 1 .none)
  | .exception => Run.view fun w => .error ((args.head?.map w.heap.display).getD "")
  | .any => Run.inspect fun h => return .bool ((← h.iterate first).any h.isTruthy)
  | .all => Run.inspect fun h => return .bool ((← h.iterate first).all h.isTruthy)
  | .append => do
    let r ← Run.ofExcept first.asList
    ListMethod.appendAll r [args.getD 1 .none]
  | .extend => do
    let items ← Run.inspect fun h => h.iterate (args.getD 1 .none)
    let r ← Run.ofExcept first.asList
    ListMethod.appendAll r items

def run (b : Builtin) (quiet : Bool) (call : Caller) (args : List Value) (keywords : Keywords) :
    Run Value := do
  Run.ofExcept (b.checkCall args keywords)
  b.body quiet call args keywords

end Builtin

end Scripting
