/-
# Finding texts in texts

Occurrences are found from the left and do not overlap. The empty text occurs
before every character and at the end.
-/

namespace Scripting.Text

def positionIn? (part : List Char) : List Char → Option Nat
  | [] => if part.isEmpty then some 0 else none
  | c :: rest =>
    if part.isPrefixOf (c :: rest) then some 0 else (positionIn? part rest).map (· + 1)

def position? (text part : String) : Option Nat := positionIn? part.toList text.toList

def contains (text part : String) : Bool := (position? text part).isSome

/-- Cuts a text at the occurrences of a separator. What has been read of the current piece is
held in reverse; `skip` characters of an occurrence are still to be passed over. -/
def cut (separator : List Char) : (skip : Nat) → (piece : List Char) → List Char →
    List (List Char)
  | _, piece, [] => [piece.reverse]
  | skip + 1, piece, _ :: rest => cut separator skip piece rest
  | 0, piece, c :: rest =>
    if separator.isPrefixOf (c :: rest) then
      piece.reverse :: cut separator (separator.length - 1) [] rest
    else cut separator 0 (c :: piece) rest

/-- The pieces between the occurrences of a separator that is not empty. -/
def pieces (text separator : String) : List String :=
  (cut separator.toList 0 [] text.toList).map String.ofList

/-- Puts a text before each of the first characters, and at the end if the limit
goes beyond them. -/
def interleave (new : List Char) : (limit : Nat) → List Char → List Char
  | 0, text => text
  | _ + 1, [] => new
  | limit + 1, c :: rest => new ++ c :: interleave new limit rest

/-- Puts a text in the place of the first `limit` occurrences of a part that is not empty. What
has been written is held in reverse. -/
def substitute (old new : List Char) : (skip limit : Nat) → (written : List Char) → List Char →
    List Char
  | _, _, written, [] => written.reverse
  | skip + 1, limit, written, _ :: rest => substitute old new skip limit written rest
  | 0, 0, written, c :: rest => written.reverse ++ c :: rest
  | 0, limit + 1, written, c :: rest =>
    if old.isPrefixOf (c :: rest) then
      substitute old new (old.length - 1) limit (new.reverse ++ written) rest
    else substitute old new 0 (limit + 1) (c :: written) rest

def replaceUpTo (limit : Nat) (text old new : String) : String :=
  String.ofList <|
    if old.isEmpty then interleave new.toList limit text.toList
    else substitute old.toList new.toList 0 limit [] text.toList

def replace (text old new : String) : String := replaceUpTo (text.length + 1) text old new

/-- How many occurrences of a part that is not empty there are beyond those found. -/
def countFrom (part : List Char) : (skip found : Nat) → List Char → Nat
  | _, found, [] => found
  | skip + 1, found, _ :: rest => countFrom part skip found rest
  | 0, found, c :: rest =>
    if part.isPrefixOf (c :: rest) then countFrom part (part.length - 1) (found + 1) rest
    else countFrom part 0 found rest

def occurrences (text part : String) : Nat :=
  if part.isEmpty then text.length + 1 else countFrom part.toList 0 0 text.toList

end Scripting.Text
