/-
# Positions in a source text

A position is a line and a column, both counted from one. Columns count the
bytes of the text's UTF-8 form, so a character moves the column by its encoded
size, and a newline starts the next line.
-/

namespace Scripting

structure Position where
  line : Nat
  column : Nat
  deriving DecidableEq, Repr, Inhabited

namespace Position

def start : Position := ⟨1, 1⟩

def after (p : Position) (c : Char) : Position :=
  if c = '\n' then ⟨p.line + 1, 1⟩ else ⟨p.line, p.column + c.utf8Size⟩

def advance (p : Position) (text : List Char) : Position :=
  text.foldl after p

@[simp] theorem advance_nil (p : Position) : p.advance [] = p := rfl

@[simp] theorem advance_cons (p : Position) (c : Char) (text : List Char) :
    p.advance (c :: text) = (p.after c).advance text := rfl

@[simp] theorem advance_append (p : Position) (s t : List Char) :
    p.advance (s ++ t) = (p.advance s).advance t := by
  simp [advance]

def render (p : Position) : String := s!"{p.line}:{p.column}"

end Position

end Scripting
