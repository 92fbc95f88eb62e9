/-
# Methods

Texts, lists and dicts have methods. A call is checked against the signature of the
method before the method runs.
-/
import Scripting.Method.Dict
import Scripting.Method.List
import Scripting.Method.Text

namespace Scripting

def checkedCall (signature : Signature) (method : String) (args : List Value)
    (keywords : Keywords) (act : Run Value) : Run Value := do
  Run.ofExcept (signature.check method args keywords)
  act

/-- Calls a method of a value, if its type has one of that name. -/
def callMethod? (receiver : Value) (name : String) (args : List Value) (keywords : Keywords) :
    Option (Run Value) :=
  let qualified := s!"{receiver.typeName}.{name}"
  match receiver with
  | .str s => (TextMethod.ofText? name).map fun m =>
    checkedCall m.signature qualified args keywords (m.run s args keywords)
  | .list r => (ListMethod.ofText? name).map fun m =>
    checkedCall m.signature qualified args keywords (m.run r args keywords)
  | .dict r => (DictMethod.ofText? name).map fun m =>
    checkedCall m.signature qualified args keywords (m.run r args keywords)
  | _ => none

end Scripting
