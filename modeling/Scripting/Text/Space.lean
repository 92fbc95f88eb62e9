/-
# White space

The characters with the White_Space property, and trimming and splitting by them.
-/

namespace Scripting.Text

/-- The characters with the White_Space property. -/
def isSpace (c : Char) : Bool :=
  let n := c.toNat
  (0x09 ≤ n && n ≤ 0x0D) || n == 0x20 || n == 0x85 || n == 0xA0 || n == 0x1680
    || (0x2000 ≤ n && n ≤ 0x200A) || n == 0x2028 || n == 0x2029 || n == 0x202F
    || n == 0x205F || n == 0x3000

def trimStart (drop : Char → Bool) (text : List Char) : List Char := text.dropWhile drop

def trimEnd (drop : Char → Bool) (text : List Char) : List Char :=
  (text.reverse.dropWhile drop).reverse

def trim (drop : Char → Bool) (text : List Char) : List Char := trimEnd drop (trimStart drop text)

/-- The stretches of a text between white space. `word` is the stretch being read,
its last character first. -/
def spacedWords (word : List Char) : List Char → List (List Char)
  | [] => if word.isEmpty then [] else [word.reverse]
  | c :: rest =>
    if isSpace c then
      if word.isEmpty then spacedWords [] rest else word.reverse :: spacedWords [] rest
    else spacedWords (c :: word) rest

end Scripting.Text
