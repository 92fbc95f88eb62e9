/-
# JSON documents

A document is what a JSON text says. Objects keep the order of their keys, and
their keys are distinct.
-/
import Scripting.Table

namespace Scripting

/-- What a JSON text says. -/
inductive Document where
  | null
  | bool (b : Bool)
  | int (n : Int64)
  | float (x : Float)
  | text (s : String)
  | array (items : List Document)
  | object (entries : List (String × Document))
  deriving Inhabited

end Scripting
