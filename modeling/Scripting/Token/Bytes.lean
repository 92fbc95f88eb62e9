/-
# Reading a source text by its bytes

The text is read once more, byte by byte and with offsets. A byte is fetched by its offset, which
may lie behind the last byte; a stretch of text is cut out by two offsets, which may lie inside a
character. Both are overruns, and so is a string whose bytes are no text and a loop that does not
end. Every loop takes single bytes: a character of several bytes is met byte by byte, in a string,
in a comment, behind a backslash and behind an error.

What a margin, a symbol, a word or the text of a number means is the same as for characters, so
these functions are those of `LayoutState` and `scanToken`.
-/
import Scripting.Token.Layout

namespace Scripting

/-- What must not happen in reading. -/
inductive Overrun where
  | fetch (offset : Nat)
  | slice (start stop : Nat)
  | garbled (bytes : List UInt8)
  | endless

def byteChar (b : UInt8) : Char := Char.ofNat b.toNat

def Position.afterByte (p : Position) (b : UInt8) : Position :=
  if b = 10 then ⟨p.line + 1, 1⟩ else ⟨p.line, p.column + 1⟩

/-- The bytes of a text and the offset of the next one, with its position. -/
structure ByteCursor where
  bytes : List UInt8
  offset : Nat
  pos : Position

variable (c : ByteCursor)

namespace ByteCursor

def atEnd : Bool := c.bytes.length ≤ c.offset

def left : List UInt8 := c.bytes.drop c.offset

/-- The byte some places ahead; zero behind the end, though it may stand in the text as well. -/
def ahead (places : Nat) : Char :=
  byteChar (c.bytes[c.offset + places]?.getD 0)

def peek : Char := c.ahead 0

def advance : Except Overrun (UInt8 × ByteCursor) :=
  match c.bytes[c.offset]? with
  | some b => .ok (b, { c with offset := c.offset + 1, pos := c.pos.afterByte b })
  | none => .error (.fetch c.offset)

theorem left_of_advance {c c' : ByteCursor} {b : UInt8} (h : c.advance = .ok (b, c')) :
    c'.left.length < c.left.length := by
  unfold advance at h
  split at h
  next hb =>
    cases h
    have hlt := (List.getElem?_eq_some_iff.1 hb).1
    simp only [left, List.length_drop]
    omega
  · cases h

def skipWhile (test : ByteCursor → Bool) (c : ByteCursor) : Except Overrun ByteCursor :=
  if test c then
    match _h : c.advance with
    | .ok (_, c') => skipWhile test c'
    | .error o => .error o
  else .ok c
termination_by c.left.length
decreasing_by exact left_of_advance _h

def skipBlank : Except Overrun ByteCursor :=
  c.skipWhile fun c => isBlank c.peek && !c.atEnd

def skipLine : Except Overrun ByteCursor :=
  c.skipWhile fun c => !c.atEnd && c.peek != '\n'

def skipDigits : Except Overrun ByteCursor :=
  c.skipWhile fun c => c.peek.isDigit

def skip : (count : Nat) → ByteCursor → Except Overrun ByteCursor
  | 0, c => .ok c
  | count + 1, c => do
    let (_, c) ← c.advance
    skip count c

/-- Whether an offset lies at the edge of a character: at either end of the text, or in front of a
byte that does not continue a character. -/
def isEdge (offset : Nat) : Bool :=
  match c.bytes[offset]? with
  | some b => offset == 0 || b < 128 || 192 ≤ b
  | none => offset == c.bytes.length

def decode? (bytes : List UInt8) : Option (List Char) :=
  bytes.toByteArray.utf8Decode?.map Array.toList

def slice (start stop : Nat) : Except Overrun (List Char) :=
  if start ≤ stop && c.isEdge start && c.isEdge stop then
    match decode? ((c.bytes.take stop).drop start) with
    | some text => .ok text
    | none => .error (.slice start stop)
  else .error (.slice start stop)

/-- Reads a string up to its closing quote. An escape takes one byte, whatever it belongs to. -/
def readString (quote : Char) (start : Position) (read : List UInt8) (wrong : Option Diagnostic)
    (c : ByteCursor) : Except Overrun (Except Diagnostic String × ByteCursor) :=
  if c.atEnd || c.peek == '\n' then .ok (.error ⟨.unterminatedString, start⟩, c)
  else
    match _h : c.advance with
    | .error o => .error o
    | .ok (b, c') =>
      if byteChar b == quote then
        match wrong, decode? read with
        | some d, _ => .ok (.error d, c')
        | none, some text => .ok (.ok (String.ofList text), c')
        | none, none => .error (.garbled read)
      else if byteChar b == '\\' then
        if c'.atEnd then readString quote start read wrong c'
        else
          match _h' : c'.advance with
          | .error o => .error o
          | .ok (e, c'') =>
            match escaped? (byteChar e) with
            | some r => readString quote start (read ++ [r.toUInt8]) wrong c''
            | none => readString quote start read
                (wrong.orElse fun _ => some ⟨.unknownEscape (byteChar e), c'.pos⟩) c''
      else readString quote start (read ++ [b]) wrong c'
termination_by c.left.length
decreasing_by
  · exact left_of_advance _h
  · exact Nat.lt_trans (left_of_advance _h') (left_of_advance _h)
  · exact Nat.lt_trans (left_of_advance _h') (left_of_advance _h)
  · exact left_of_advance _h

/-- Passes over a point and the digits behind it. A number that begins with its point is at the
digits already. -/
def skipFraction (first : Char) (c : ByteCursor) : Except Overrun ByteCursor :=
  if first != '.' && c.peek == '.' && (c.ahead 1).isDigit then do
    let (_, c) ← c.advance
    c.skipDigits
  else if first == '.' then c.skipDigits
  else .ok c

/-- Passes over an exponent, which a digit behind its letter or its sign makes one. -/
def skipExponent : Except Overrun ByteCursor :=
  if (c.peek == 'e' || c.peek == 'E') && ((c.ahead 1).isDigit ||
      ((c.ahead 1 == '+' || c.ahead 1 == '-') && (c.ahead 2).isDigit)) then do
    let (_, c) ← c.advance
    let c ← (if c.peek == '+' || c.peek == '-' then c.skip 1 else .ok c)
    c.skipDigits
  else .ok c

def skipNumber (first : Char) (c : ByteCursor) : Except Overrun ByteCursor := do
  let c ← c.skipWhile fun c => c.peek.isDigit || c.peek == '_'
  let c ← c.skipFraction first
  c.skipExponent

def readNumber (first : Char) (start : Position) (c : ByteCursor) :
    Except Overrun (Except Diagnostic Token.Kind × ByteCursor) := do
  let offset := c.offset - 1
  let c ← c.skipNumber first
  match scanNumber (← c.slice offset c.offset) with
  | .token kind _ => return (.ok kind, c)
  | .error complaint _ _ => return (.error ⟨complaint, start⟩, c)

def readWord : Except Overrun (Except Diagnostic Token.Kind × ByteCursor) := do
  let offset := c.offset - 1
  let c ← c.skipWhile fun c => isNameContinue c.peek
  let text ← c.slice offset c.offset
  return (.ok (.ofWord (String.ofList text)), c)

/-- Passes over a character that begins no token and whose first byte is taken. -/
def refuse (start : Position) (c : ByteCursor) :
    Except Overrun (Except Diagnostic Token.Kind × ByteCursor) := do
  let text ← c.slice (c.offset - 1) c.bytes.length
  let found := text.headD '?'
  let c ← c.skip (found.utf8Size - 1)
  return (.error ⟨.unexpectedCharacter found, start⟩, c)

def nextToken :
    Except Overrun (Except Diagnostic Token.Kind × ByteCursor) := do
  let start := c.pos
  let (b, c) ← c.advance
  let first := byteChar b
  if first == '.' && c.peek.isDigit then c.readNumber first start
  else match longSymbol? first c.peek with
  | some s => do
    let c ← c.skip 1
    return (.ok (.symbol s), c)
  | none =>
    match shortSymbol? first with
    | some s => return (.ok (.symbol s), c)
    | none =>
      if first == '!' then return (.error ⟨.loneBang, start⟩, c)
      else if isQuote first then do
        let (text, c) ← c.readString first start [] none
        return (text.map .str, c)
      else if (first == 'f' || first == 'F') && isQuote c.peek then do
        let (quote, c) ← c.advance
        let (text, c) ← c.readString (byteChar quote) start [] none
        return (text.map .fstr, c)
      else if first.isDigit then c.readNumber first start
      else if isNameStart first then c.readWord
      else c.refuse start

end ByteCursor

/-- How far the reading of a text has come. -/
structure ByteState where
  cursor : ByteCursor
  blocks : List Nat
  depth : Nat
  lineStart : Bool

/-- What one step of reading found. -/
inductive ByteStep where
  | done (final : ByteState)
  | next (tokens : List Token) (complaint : Option Diagnostic) (state : ByteState)

namespace ByteState

/-- The blocks and the position, without the text. -/
def layout (s : ByteState) : LayoutState := ⟨[], s.cursor.pos, s.blocks, s.depth, s.lineStart⟩

def enterLine (s : ByteState) (width : Nat) : ByteStep :=
  match s.layout.enterLine width with
  | .done _ => .done s
  | .next tokens complaint layout =>
    .next tokens complaint { s with blocks := layout.blocks, lineStart := layout.lineStart }

/-- The step at the start of a line outside brackets, behind a margin. -/
def marginStep (s : ByteState) (margin : List Char) : Except Overrun ByteStep :=
  if s.cursor.atEnd then .ok (.next [] none { s with lineStart := false })
  else if s.cursor.peek == '\n' then do
    let c ← s.cursor.skip 1
    return .next [] none { s with cursor := c }
  else if s.cursor.peek == '#' then do
    let c ← s.cursor.skipLine
    let c ← (if c.atEnd then .ok c else c.skip 1)
    return .next [] none { s with cursor := c }
  else .ok (s.enterLine (marginWidth margin))

def lineStep (s : ByteState) : Except Overrun ByteStep := do
  let c ← s.cursor.skipBlank
  let margin := (s.cursor.left.take (c.offset - s.cursor.offset)).map byteChar
  { s with cursor := c }.marginStep margin

def tokenStep (s : ByteState) : Except Overrun ByteStep := do
  let start := s.cursor.pos
  match ← s.cursor.nextToken with
  | (.ok kind, c) =>
    let depth := match kind with
      | .symbol symbol => symbol.depthAfter s.depth
      | _ => s.depth
    return .next [⟨kind, start⟩] none { s with cursor := c, depth := depth }
  | (.error d, c) => do
    let c ← c.skipLine
    return .next [] (some d) { s with cursor := c }

/-- The step within a line, or anywhere inside brackets, behind blank space. -/
def solidStep (s : ByteState) : Except Overrun ByteStep :=
  if s.cursor.atEnd then .ok (.done s)
  else if s.cursor.peek == '\n' then do
    let c ← s.cursor.skip 1
    if s.depth = 0 then
      return .next [⟨.newline, s.cursor.pos⟩] none { s with cursor := c, lineStart := true }
    else return .next [] none { s with cursor := c }
  else if s.cursor.peek == '#' then do
    let c ← s.cursor.skipLine
    return .next [] none { s with cursor := c }
  else if s.cursor.peek == '\\' && s.cursor.ahead 1 == '\n' then do
    let c ← s.cursor.skip 2
    return .next [] none { s with cursor := c }
  else s.tokenStep

def inlineStep (s : ByteState) : Except Overrun ByteStep := do
  let c ← s.cursor.skipBlank
  { s with cursor := c }.solidStep

def step (s : ByteState) : Except Overrun ByteStep :=
  if s.lineStart then s.lineStep else s.inlineStep

/-- Reads on to the end of the text, in so many steps at most. -/
def run : (budget : Nat) → ByteState → Array Token → Array Diagnostic →
    Except Overrun (ByteState × Array Token × Array Diagnostic)
  | 0, _, _, _ => .error .endless
  | budget + 1, s, tokens, diagnostics => do
    match ← s.step with
    | .done final => return (final, tokens, diagnostics)
    | .next found complaint s' =>
      run budget s' (found.foldl Array.push tokens) (complaint.elim diagnostics diagnostics.push)

end ByteState

/-- The tokens of the bytes of a source text, or everything wrong with it. -/
def tokenizeBytes (bytes : List UInt8) :
    Except Overrun (Except (List Diagnostic) (List Token)) := do
  let (final, tokens, diagnostics) ←
    ByteState.run (2 * bytes.length + 2) ⟨⟨bytes, 0, .start⟩, [], 0, true⟩ #[] #[]
  if diagnostics.isEmpty then return .ok (tokens.toList ++ final.layout.closing tokens.back?)
  else return .error diagnostics.toList

end Scripting
