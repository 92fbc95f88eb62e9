/-
# Values as text

A value has a display form and a quoted form; they differ for texts and errors.
Items of containers are always quoted. Beyond `displayDepth` levels a value is
written as three dots, so a container that holds itself has a finite text.
-/
import Scripting.Value.Access

namespace Scripting

/-- How deep a value may stand inside containers to be written out. -/
def displayDepth : Nat := 64

def quotedChar (quote c : Char) : List Char :=
  match c with
  | '\\' => ['\\', '\\']
  | '\n' => ['\\', 'n']
  | '\t' => ['\\', 't']
  | '\r' => ['\\', 'r']
  | c => if c = quote then ['\\', c] else [c]

/-- The quote for a text: double if it has single quotes and no double ones. -/
def quoteFor (text : List Char) : Char :=
  if text.contains '\'' && !text.contains '"' then '"' else '\''

def quoted (s : String) : String :=
  let quote := quoteFor s.toList
  String.ofList (quote :: s.toList.flatMap (quotedChar quote) ++ [quote])

def Callable.describe : Callable → String
  | .script closure => s!"<function {closure.name}>"
  | .host f => s!"<built-in function {f.name}>"

namespace Heap

def render (h : Heap) (levels : Nat) (quote : Bool) (v : Value) : String :=
  match levels with
  | 0 => "..."
  | levels + 1 =>
    match v with
    | .none => "None"
    | .bool b => if b then "True" else "False"
    | .int n => Word64.text n
    | .float x => floatText x
    | .str s => if quote then quoted s else s
    | .list r =>
      "[" ++ String.intercalate ", " ((h.list r).toList.map (h.render levels true)) ++ "]"
    | .dict r =>
      let entry (e : String × Value) := quoted e.1 ++ ": " ++ h.render levels true e.2
      "\x7b" ++ String.intercalate ", " ((h.dict r).entries.map entry) ++ "\x7d"
    | .function r => ((h.function? r).map Callable.describe).getD ""
    | .error message => if quote then "Error(" ++ quoted message ++ ")" else message

def display (h : Heap) (v : Value) : String := h.render (displayDepth + 1) false v

def repr (h : Heap) (v : Value) : String := h.render (displayDepth + 1) true v

end Heap

end Scripting
