/-
# What a method takes

How many arguments a method takes and which keywords.
-/
import Scripting.Arguments

namespace Scripting

/-- The numbers of arguments and the keywords that a method takes. Without a largest
number there is no bound, and without a list of keywords every keyword is taken. -/
structure Signature where
  least : Nat
  most : Option Nat
  keywords : Option (List String)
  deriving DecidableEq, Repr

namespace Signature

/-- A method with a fixed number of arguments and without keywords. -/
def exactly (count : Nat) : Signature := ⟨count, some count, some []⟩

/-- A method with some arguments that may be left out, and without keywords. -/
def between (least most : Nat) : Signature := ⟨least, some most, some []⟩

def fault (s : Signature) (method : String) (count : Nat) : Fault :=
  let expected := match s.most with
    | some most => if s.least = most then s!"{most}" else s!"{s.least} to {most}"
    | none => s!"{s.least}"
  argumentFault s!"{method}() takes {expected} argument(s), got {count}"

def check (s : Signature) (method : String) (args : List Value) (keywords : Keywords) :
    Except Fault Unit :=
  if args.length < s.least ∨ (s.most.any fun most => most < args.length) then
    .error (s.fault method args.length)
  else
    match s.keywords with
    | some allowed => keywords.only method allowed
    | none => .ok ()

end Signature

end Scripting
