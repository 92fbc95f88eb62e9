/-
# Reading tokens

A `Parse` reads tokens from the front of a list. It ends with a value and the
tokens it left, with a diagnostic and the tokens it had come to, or it is
exhausted: it was given too small a bound on its recursion. The last token, the
end of the input, is never passed over.
-/
import Scripting.Diagnostic

namespace Scripting

inductive Parsed (α : Type) where
  | ok (value : α) (rest : List Token)
  | error (diagnostic : Diagnostic) (rest : List Token)
  | exhausted

def Parse (α : Type) := List Token → Parsed α

/-- Whether two kinds of token without a value of their own are the same. -/
def Token.Kind.same : Token.Kind → Token.Kind → Bool
  | .word a, .word b => a == b
  | .symbol a, .symbol b => a == b
  | .newline, .newline | .indent, .indent | .dedent, .dedent | .eof, .eof => true
  | _, _ => false

def Token.front : List Token → Token
  | [] => ⟨.eof, .start⟩
  | t :: _ => t

/-- The tokens behind the front one; the last token stays. -/
def Token.behind : List Token → List Token
  | [] => []
  | [t] => [t]
  | _ :: u :: rest => u :: rest

namespace Parse

@[inline] protected def pure {α : Type} (a : α) : Parse α := fun ts => .ok a ts

@[inline] protected def bind {α β : Type} (p : Parse α) (f : α → Parse β) : Parse β := fun ts =>
  match p ts with
  | .ok a rest => f a rest
  | .error d rest => .error d rest
  | .exhausted => .exhausted

@[always_inline] instance : Monad Parse where
  pure := Parse.pure
  bind := Parse.bind

def exhausted {α : Type} : Parse α := fun _ => .exhausted

@[inline] def peek : Parse Token := fun ts => .ok (Token.front ts) ts

@[inline] def here : Parse Position := fun ts => .ok (Token.front ts).pos ts

@[inline] def advance : Parse Unit := fun ts => .ok () (Token.behind ts)

@[inline] def check (kind : Token.Kind) : Parse Bool := fun ts =>
  .ok ((Token.front ts).kind.same kind) ts

/-- Takes the next token if it is of a kind, and says whether it was. -/
def accept (kind : Token.Kind) : Parse Bool := fun ts =>
  if (Token.front ts).kind.same kind then .ok true (Token.behind ts) else .ok false ts

@[inline] def failAt {α : Type} (pos : Position) (complaint : Complaint) : Parse α := fun ts =>
  .error ⟨complaint, pos⟩ ts

def failHere {α : Type} (complaint : Complaint) : Parse α := fun ts =>
  .error ⟨complaint, (Token.front ts).pos⟩ ts

def unexpected {α : Type} (wanted : Expectation) : Parse α := fun ts =>
  let found := Token.front ts
  .error ⟨.unexpectedToken wanted found.kind, found.pos⟩ ts

def expect (kind : Token.Kind) : Parse Unit := fun ts =>
  let found := Token.front ts
  if found.kind.same kind then .ok () (Token.behind ts)
  else .error ⟨.missingToken kind found.kind, found.pos⟩ ts

def expectName : Parse String := fun ts =>
  match (Token.front ts).kind with
  | .name text => .ok text (Token.behind ts)
  | _ => unexpected .identifier ts

/-- Takes a keyword argument's name and the sign behind it, if they come next. -/
def keywordName : Parse (Option String) := fun ts =>
  match ts with
  | ⟨.name name, _⟩ :: ⟨.symbol .assign, p⟩ :: rest =>
    .ok (some name) (Token.behind (⟨.symbol .assign, p⟩ :: rest))
  | ts => .ok none ts

def atEnd : Parse Bool := check .eof

def isLineEnd : Token.Kind → Bool
  | .newline | .dedent | .eof => true
  | _ => false

def atLineEnd : Parse Bool := fun ts => .ok (isLineEnd (Token.front ts).kind) ts

/-- Takes the end of a line. The end of a block or of the input ends its line too,
and stays. -/
def expectLineEnd : Parse Unit := fun ts =>
  match (Token.front ts).kind with
  | .newline => .ok () (Token.behind ts)
  | .dedent | .eof => .ok () ts
  | _ => unexpected .lineEnd ts

def within {α : Type} (inner : List Token) (p : Parse α) : Parse α := fun ts =>
  match p inner with
  | .ok a _ => .ok a ts
  | .error d _ => .error d ts
  | .exhausted => .exhausted

def dottedRest : Nat → String → Parse String
  | 0, _ => exhausted
  | bound + 1, name => do
    if ← accept (.symbol .dot) then
      let next ← expectName
      dottedRest bound (name ++ "." ++ next)
    else pure name

end Parse

end Scripting
