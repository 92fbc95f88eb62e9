/-
# The methods of texts
-/
import Scripting.Format
import Scripting.Method.Signature
import Scripting.Text.Case
import Scripting.Text.Search
import Scripting.Text.Space
import Scripting.World

namespace Scripting

inductive TextMethod where
  | upper | lower | capitalize | title | strip | lstrip | rstrip | split | join | replace
  | startswith | endswith | find | count | isdigit | isalpha | format
  deriving DecidableEq, Repr

namespace TextMethod

def ofText? : String → Option TextMethod
  | "upper" => some .upper
  | "lower" => some .lower
  | "capitalize" => some .capitalize
  | "title" => some .title
  | "strip" => some .strip
  | "lstrip" => some .lstrip
  | "rstrip" => some .rstrip
  | "split" => some .split
  | "join" => some .join
  | "replace" => some .replace
  | "startswith" => some .startswith
  | "endswith" => some .endswith
  | "find" => some .find
  | "count" => some .count
  | "isdigit" => some .isdigit
  | "isalpha" => some .isalpha
  | "format" => some .format
  | _ => none

def signature : TextMethod → Signature
  | .upper | .lower | .capitalize | .title | .isdigit | .isalpha => .exactly 0
  | .strip | .lstrip | .rstrip | .split => .between 0 1
  | .join | .startswith | .endswith | .find | .count => .exactly 1
  | .replace => .between 2 3
  | .format => ⟨0, none, none⟩

/-- The characters to strip: those of the argument, or white space. -/
def stripped (arg : Option Value) : Except Fault (Char → Bool) :=
  match arg with
  | none | some .none => .ok Text.isSpace
  | some v =>
    match v.asStr with
    | .error f => .error f
    | .ok set => .ok set.toList.contains

/-- The pieces of a text between separators, or between white space. -/
def splitPieces (s : String) (separator : Option Value) : Except Fault (List String) :=
  match separator with
  | none | some .none => .ok ((Text.spacedWords [] s.toList).map String.ofList)
  | some v =>
    match v.asStr with
    | .error f => .error f
    | .ok separator =>
      if separator.isEmpty then .error (argumentFault "empty separator")
      else .ok (Text.pieces s separator)

def textItems (place : Nat) : List Value → Except Fault (List String)
  | [] => .ok []
  | .str s :: rest => (textItems (place + 1) rest).map (s :: ·)
  | v :: _ => .error (typeFault s!"sequence item {place}: expected str, {v.typeName} found")

/-- Replaces occurrences in a text, as many as a count says if it is not negative. -/
def replaced (s : String) (old new : Value) (count : Option Value) : Except Fault String := do
  let old ← old.asStr
  let new ← new.asStr
  match count with
  | none => return Text.replace s old new
  | some v =>
    let n ← v.asInt
    if n < 0 then return Text.replace s old new
    else return Text.replaceUpTo n.toInt.toNat s old new

/-- Calls a method of a text. Only `split` makes something new. -/
def run (method : TextMethod) (s : String) (args : List Value) (keywords : Keywords) :
    Run Value :=
  let first := args.headD .none
  match method with
  | .upper => return .str (Text.upper s)
  | .lower => return .str (Text.lower s)
  | .capitalize => return .str (Text.capitalize s)
  | .title => return .str (Text.title s)
  | .strip => do return .ofChars (Text.trim (← Run.ofExcept (stripped args.head?)) s.toList)
  | .lstrip => do return .ofChars (Text.trimStart (← Run.ofExcept (stripped args.head?)) s.toList)
  | .rstrip => do return .ofChars (Text.trimEnd (← Run.ofExcept (stripped args.head?)) s.toList)
  | .split => do
    let pieces ← Run.ofExcept (splitPieces s args.head?)
    Run.newList (pieces.map Value.str).toArray
  | .join => Run.inspect fun h => do
    return .str (String.intercalate s (← textItems 0 (← h.iterate first)))
  | .replace => do return .str (← Run.ofExcept (replaced s first (args.getD 1 .none) args[2]?))
  | .startswith => do
    return .bool ((← Run.ofExcept first.asStr).toList.isPrefixOf s.toList)
  | .endswith => do
    return .bool ((← Run.ofExcept first.asStr).toList.isSuffixOf s.toList)
  | .find => do
    match Text.position? s (← Run.ofExcept first.asStr) with
    | some place => return .ofNat place
    | none => return .int (-1)
  | .count => do return .ofNat (Text.occurrences s (← Run.ofExcept first.asStr))
  | .isdigit => return .bool (!s.isEmpty && s.toList.all Char.isDigit)
  | .isalpha => return .bool (!s.isEmpty && s.toList.all Text.isLetter)
  | .format => Run.inspect fun h => (h.fillTemplate s args keywords).map Value.str

end TextMethod

end Scripting
