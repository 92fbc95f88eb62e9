/-
# Upper and lower case

The case mappings of the Unicode character database, the special ones to several
characters included. A capital sigma at the end of a word has a lower case form of
its own.
-/
import Scripting.Text.Letter

namespace Scripting.Text

/-- Whether a number lies in a run of `size` numbers after `gap` of them, at steps of `step`. -/
def inRun (gap size step n : Int) : Bool := gap ≤ n && n < gap + size && (n - gap) % step == 0

/-- How far away the other case of a character is, if it has one. A list of runs has by turns
how many characters are passed over, how many the next run reaches across, the distance
between the characters of the run, and the distance to their other case. -/
def shiftIn : List Int → Int → Option Int
  | gap :: size :: step :: shift :: rest, n =>
    if inRun gap size step n then some shift else shiftIn rest (n - (gap + size))
  | _, _ => none

/-- How far away the first character is that the runs move to a given one. -/
def shiftBack : List Int → Int → Option Int
  | gap :: size :: step :: shift :: rest, n =>
    if inRun gap size step (n - shift) then some (-shift) else shiftBack rest (n - (gap + size))
  | _, _ => none

def shifted (c : Char) (shift : Option Int) : Char := Char.ofNat (c.toNat + shift.getD 0).toNat

/-- The characters beyond ASCII with one upper case character. -/
def upperRuns : List Int := [
  181,1,1,743,42,23,1,-32,1,7,1,-32,0,1,1,121,1,47,2,-1,1,1,1,-232,1,5,2,-1,2,15,2,-1,2,45,2,-1,2,5,
  2,-1,0,1,1,-300,0,1,1,195,2,3,2,-1,2,1,1,-1,3,1,1,-1,5,1,1,-1,2,1,1,97,3,1,1,-1,0,1,1,163,0,1,1,
  42561,2,1,1,130,2,5,2,-1,2,1,1,-1,4,1,1,-1,2,1,1,-1,3,3,2,-1,2,1,1,-1,3,1,1,-1,1,1,1,56,5,1,1,-1,
  0,1,1,-2,1,1,1,-1,0,1,1,-2,1,1,1,-1,0,1,1,-2,1,15,2,-1,0,1,1,-79,1,17,2,-1,2,1,1,-1,0,1,1,-2,1,1,
  1,-1,3,39,2,-1,3,17,2,-1,8,1,1,-1,2,2,1,10815,1,1,1,-1,4,9,2,-1,0,1,1,10783,0,1,1,10780,0,1,1,
  10782,0,1,1,-210,0,1,1,-206,1,2,1,-205,1,1,1,-202,1,1,1,-203,0,1,1,42319,3,1,1,-205,0,1,1,42315,1,
  1,1,-207,0,1,1,42343,0,1,1,42280,0,1,1,42308,1,1,1,-209,0,1,1,-211,0,1,1,42308,0,1,1,10743,0,1,1,
  42305,2,1,1,-211,1,1,1,10749,0,1,1,-213,2,1,1,-214,7,1,1,10727,2,1,1,-218,1,1,1,42307,0,1,1,-218,
  3,1,1,42282,0,1,1,-218,0,1,1,-69,0,2,1,-217,0,1,1,-71,5,1,1,-219,10,1,1,42261,0,1,1,42258,166,1,1,
  84,43,3,2,-1,3,1,1,-1,3,3,1,130,46,1,1,-38,0,3,1,-37,1,17,1,-32,0,1,1,-31,0,9,1,-32,0,1,1,-64,0,2,
  1,-63,1,1,1,-62,0,1,1,-57,3,1,1,-47,0,1,1,-54,0,1,1,-8,1,23,2,-1,0,1,1,-86,0,1,1,-80,0,1,1,7,0,1,
  1,-116,1,1,1,-96,2,1,1,-1,2,1,1,-1,52,32,1,-32,0,16,1,-80,1,33,2,-1,9,53,2,-1,2,13,2,-1,0,1,1,-15,
  1,95,2,-1,49,38,1,-48,2889,43,1,3008,2,3,1,3008,760,6,1,-8,2178,1,1,-6254,0,1,1,-6253,0,1,1,-6244,
  0,2,1,-6242,0,1,1,-6243,0,1,1,-6236,0,1,1,-6181,0,1,1,35266,1,1,1,-1,238,1,1,35332,3,1,1,3814,16,
  1,1,35384,114,149,2,-1,5,1,1,-59,5,95,2,-1,0,8,1,8,8,6,1,8,10,8,1,8,8,8,1,8,8,6,1,8,11,7,2,8,8,8,
  1,8,8,2,1,74,0,4,1,86,0,2,1,100,0,2,1,128,0,2,1,112,0,2,1,126,50,2,1,8,12,1,1,-7205,17,2,1,8,14,2,
  1,8,3,1,1,7,360,1,1,-28,33,16,1,-16,4,1,1,-1,843,26,1,-26,1862,48,1,-48,1,1,1,-1,3,1,1,-10795,0,1,
  1,-10792,1,5,2,-1,6,1,1,-1,2,1,1,-1,10,99,2,-1,8,3,2,-1,4,1,1,-1,12,38,1,-7264,1,1,1,-7264,5,1,1,
  -7264,30995,45,2,-1,19,27,2,-1,135,13,2,-1,3,61,2,-1,10,3,2,-1,2,9,2,-1,4,1,1,-1,4,3,2,-1,0,1,1,
  48,2,19,2,-1,11,15,2,-1,4,3,2,-1,2,15,2,-1,26,1,1,-1,860,1,1,-928,28,80,1,-38864,21377,26,1,-32,
  1229,40,1,-40,136,36,1,-40,155,11,1,-39,1,15,1,-39,1,7,1,-39,1,2,1,-39,1795,51,1,-64,125,22,1,-32,
  2874,32,1,-32,21888,32,1,-32,59,25,1,-27,31310,34,1,-34]

/-- The characters whose upper case has several characters. -/
def upperExpansions : List (Nat × List Nat) := [
  (223,[83,83]),(329,[700,78]),(496,[74,780]),(912,[921,776,769]),(944,[933,776,769]),
  (1415,[1333,1362]),(7830,[72,817]),(7831,[84,776]),(7832,[87,778]),(7833,[89,778]),
  (7834,[65,702]),(8016,[933,787]),(8018,[933,787,768]),(8020,[933,787,769]),(8022,[933,787,834]),
  (8118,[913,834]),(8119,[913,834,921]),(8134,[919,834]),(8135,[919,834,921]),(8146,[921,776,768]),
  (8147,[921,776,769]),(8150,[921,834]),(8151,[921,776,834]),(8162,[933,776,768]),
  (8163,[933,776,769]),(8164,[929,787]),(8166,[933,834]),(8167,[933,776,834]),(8182,[937,834]),
  (8183,[937,834,921]),(64256,[70,70]),(64257,[70,73]),(64258,[70,76]),(64259,[70,70,73]),
  (64260,[70,70,76]),(64261,[83,84]),(64262,[83,84]),(64275,[1348,1350]),(64276,[1348,1333]),
  (64277,[1348,1339]),(64278,[1358,1350]),(64279,[1348,1341])]

/-- The Greek letters with an iota below, whose upper case is a capital letter with an iota
after it. -/
def iotaRuns : List Int := [
  8064,8,1,-120,0,8,1,-128,0,8,1,-104,0,8,1,-112,0,8,1,-56,0,8,1,-64,2,1,1,8,0,1,1,-7202,0,1,1,
  -7214,7,1,1,-7211,5,1,1,8,0,1,1,-7212,0,1,1,-7227,7,1,1,-7221,37,1,1,8,0,1,1,-7242,0,1,1,-7269,7,
  1,1,-7251]

/-- The characters beyond ASCII whose lower case is not the first one they are the upper case of. -/
def lowerRuns : List Int := [
  452,1,1,2,0,1,1,1,1,1,1,2,0,1,1,1,1,1,1,2,0,1,1,1,37,1,1,2,0,1,1,1,422,1,1,32,2,1,1,32,6,1,1,32,
  80,1,1,-60,6825,1,1,-7615,233,8,1,-8,8,8,1,-8,8,8,1,-8,12,1,1,-9,15,1,1,-9,47,1,1,-9,297,1,1,
  -7517,3,1,1,-8383,0,1,1,-8262,34078,1,1,1]

def casedStretches : List Nat := [
  65,26,6,26,47,1,10,1,4,1,5,23,1,31,1,195,1,4,4,208,2,35,7,2,30,5,96,1,42,4,2,2,2,4,1,1,6,1,1,3,1,
  1,1,20,1,83,1,139,8,166,1,38,9,41,2839,38,1,1,5,1,2,43,1,4,672,86,2,6,2178,11,5,43,2,3,64,192,64,
  278,2,6,2,38,2,6,2,8,1,1,1,1,1,1,1,31,2,53,1,7,1,1,3,3,1,7,3,4,2,6,4,13,5,3,1,7,116,1,13,1,16,13,
  101,1,4,1,2,10,1,1,3,5,6,1,1,1,1,1,1,4,1,6,4,1,2,4,5,5,4,1,17,32,3,2,817,52,1814,229,6,4,3,2,12,
  38,1,1,5,1,30994,46,18,30,132,102,3,4,1,77,20,6,1,3,821,43,1,14,6,80,20288,7,12,5,1033,26,6,26,
  1189,80,96,36,4,36,116,11,1,15,1,7,1,2,1,11,1,15,1,7,1,2,451,1,2,3,1,42,1,9,1221,51,13,51,93,22,
  10,22,2842,64,21856,64,32,25,2,25,25900,85,1,71,1,2,2,1,2,2,2,4,1,12,1,1,1,7,1,65,1,4,2,8,1,7,1,
  28,1,4,1,5,1,1,3,7,1,340,2,25,1,25,1,31,1,25,1,31,1,25,1,31,1,25,1,31,1,25,1,8,1844,10,1,20,6,6,
  261,62,2194,68,2028,26,6,26,6,26]

/-- The characters that do not end a word for the purpose of case. -/
def caseIgnorableStretches : List Nat := [
  39,1,6,1,11,1,35,1,1,1,71,1,4,1,1,1,4,1,2,2,503,192,4,2,4,1,9,2,1,1,251,7,207,1,5,1,49,45,1,1,1,2,
  1,2,1,1,44,1,11,6,10,11,1,1,35,1,10,21,16,1,101,8,1,10,1,4,33,1,1,1,30,27,91,11,58,11,4,1,2,1,24,
  24,43,3,44,1,7,2,5,9,41,58,55,1,1,1,4,8,4,1,3,7,10,2,13,1,15,1,58,1,4,4,8,1,20,2,26,1,2,2,57,1,4,
  2,4,2,2,3,3,1,30,2,3,1,11,2,57,1,4,5,1,2,4,1,20,2,22,6,1,1,58,1,2,1,1,4,8,1,7,2,11,2,30,1,61,1,12,
  1,50,1,3,1,55,1,1,3,5,3,1,4,7,2,11,2,29,1,58,1,2,1,6,1,5,2,20,2,28,2,57,2,4,4,8,1,20,2,29,1,72,1,
  7,3,1,1,90,1,2,7,11,9,98,1,2,9,9,1,1,7,73,2,27,1,1,1,1,1,55,14,1,5,1,2,5,11,1,36,9,1,102,4,1,6,1,
  2,2,2,25,2,4,3,16,4,13,1,2,2,6,1,15,1,94,1,608,3,946,3,29,2,30,2,30,2,64,2,1,7,8,1,2,11,3,1,5,1,
  45,5,51,1,65,2,34,1,118,3,4,2,9,1,6,3,219,2,2,1,58,1,1,7,1,1,1,1,2,8,6,10,2,1,39,1,8,46,2,12,20,4,
  48,1,1,5,1,1,5,1,40,9,12,2,32,4,2,2,1,3,56,1,1,2,3,1,1,3,58,8,2,2,64,6,82,3,1,13,1,7,4,1,6,1,3,2,
  50,63,13,1,34,101,445,1,1,3,11,3,13,3,13,3,13,2,12,5,8,2,10,1,2,1,2,5,49,5,1,10,1,1,13,1,16,13,51,
  33,2955,2,113,3,125,1,15,1,96,32,47,1,469,1,36,4,3,5,5,1,93,6,93,3,28438,1,1250,6,270,1,98,4,1,10,
  1,1,28,4,80,2,14,34,78,1,23,3,102,4,3,2,8,1,3,1,4,1,25,2,5,1,151,2,26,18,13,1,38,8,25,11,46,3,48,
  1,2,4,2,2,17,1,21,2,66,6,2,2,2,2,12,1,8,1,35,1,11,1,51,1,1,3,2,2,5,2,1,1,27,1,14,2,5,2,1,1,100,5,
  9,3,121,1,2,1,4,1,20272,1,147,17,573,16,3,1,12,16,34,1,2,1,169,1,7,1,6,1,11,1,35,1,1,1,47,1,45,2,
  67,1,21,3,513,1,226,1,149,5,1029,6,1,42,1,9,582,3,1,2,5,4,40,3,4,1,165,2,573,4,38,1,26,5,1,1,315,
  2,24,1,52,6,70,11,49,4,123,1,54,15,41,1,2,2,10,3,49,4,2,2,2,1,4,1,10,1,50,3,36,5,1,8,62,1,12,2,52,
  9,10,4,2,1,95,3,2,1,1,2,6,1,2,1,157,1,3,8,21,2,57,2,3,1,37,7,3,5,70,6,13,1,1,1,1,1,14,2,85,8,2,3,
  1,1,23,1,84,6,1,1,4,2,1,2,238,4,6,2,1,2,27,2,85,8,2,1,1,2,106,1,1,1,2,6,1,1,101,1,1,1,2,4,1,5,259,
  9,1,2,256,2,1,1,4,1,144,4,2,2,4,1,32,10,40,6,2,4,8,1,9,6,2,3,46,13,1,2,198,1,1,3,1,1,201,7,1,6,1,
  1,82,22,2,7,1,2,1,2,122,6,3,1,1,2,1,7,1,1,72,2,3,1,1,1,65,1,281,2,11,2,52,5,5,1,1,1,23,1,5333,17,
  6,15,11464,12,3,3,2496,5,59,7,9,4,508,3,40,2,482,1,63,17,64,2,1,2,13,2,16380,4,1,7,1,2,3230,2,1,4,
  4700,46,2,23,544,3,9,16,2,7,30,4,148,3,1979,55,4,50,8,1,14,1,22,5,1,15,1360,7,1,17,2,7,1,2,1,5,5,
  62,33,1,160,14,368,1,61,4,507,5,254,2,243,1,2,1,7,2,5,1,9,1,464,7,109,8,2735,5,789505,1,30,96,128,
  240]

def upperChar (c : Char) : List Char :=
  if c.toNat < 128 then [c.toUpper]
  else
    match upperExpansions.find? fun e => e.1 == c.toNat, shiftIn iotaRuns c.toNat with
    | some e, _ => e.2.map Char.ofNat
    | none, some shift => [shifted c shift, 'Ι']
    | none, none => [shifted c (shiftIn upperRuns c.toNat)]

/-- A character in lower case. The capital I with a dot keeps its dot as a
character of its own. -/
def lowerChar (c : Char) : List Char :=
  if c.toNat < 128 then [c.toLower]
  else if c.toNat = 0x130 then ['i', '\u0307']
  else [shifted c (shiftIn lowerRuns c.toNat <|> shiftBack upperRuns c.toNat)]

/-- Whether the first character that is not ignored has a case. -/
def meetsCased (cs : List Char) : Bool :=
  match cs.dropWhile fun c => inStretches caseIgnorableStretches c.toNat with
  | c :: _ => inStretches casedStretches c.toNat
  | [] => false

/-- The lower case of a text whose characters before it are given in reverse. -/
def lowerFrom (before : List Char) : List Char → List Char
  | [] => []
  | c :: rest =>
    let lowered :=
      if c = 'Σ' then [if meetsCased before && !meetsCased rest then 'ς' else 'σ']
      else lowerChar c
    lowered ++ lowerFrom (c :: before) rest

def upper (s : String) : String := String.ofList (s.toList.flatMap upperChar)

def lower (s : String) : String := String.ofList (lowerFrom [] s.toList)

/-- A text with its first character in upper case and the others in lower case. -/
def capitalize (s : String) : String :=
  match s.toList with
  | [] => ""
  | c :: rest => String.ofList (upperChar c ++ rest.flatMap lowerChar)

/-- Words with their first letter in upper case and the others in lower case; a
word is a run of letters. -/
def titleFrom (inWord : Bool) : List Char → List Char
  | [] => []
  | c :: rest =>
    if isLetter c then (if inWord then lowerChar c else upperChar c) ++ titleFrom true rest
    else c :: titleFrom false rest

def title (s : String) : String := String.ofList (titleFrom false s.toList)

end Scripting.Text
