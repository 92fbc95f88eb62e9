/-
# The grammar of expressions

One reader per level of the grammar, from the loosest binding to the tightest:
lambda, conditional, `or`, `and`, `not`, comparison, sum, product, sign, power,
then calls, subscripts and attributes, then literals, names and brackets. The
levels with operators between operands share one reader, `chain`.

Every reader takes a bound on its recursion. A token accounts for a fixed amount
of it (`Token.weight`), an f-string for more, since its fields are read in turn.
-/
import Scripting.Expr
import Scripting.Grammar.FString
import Scripting.Grammar.Parse
import Scripting.Text.Space
import Scripting.Token.Layout

namespace Scripting

/-- The levels of the grammar with operators between operands. -/
inductive Level where
  | or | and | comparison | sum | product
  deriving DecidableEq, Repr

/-- What joins two operands. -/
inductive Connective where
  | logic (op : LogicOp)
  | binary (op : BinaryOp)
  deriving DecidableEq, Repr

/-- Two operands joined; the whole begins where the left one does. -/
def Connective.join (left : Expr) (c : Connective) (right : Expr) : Expr :=
  match c with
  | .logic op => .logic left.pos op left right
  | .binary op => .binary left.pos op left right

def Level.connective? : Level → Token.Kind → Option Connective
  | .or, .word .or_ => some (.logic .or)
  | .and, .word .and_ => some (.logic .and)
  | .comparison, .symbol .equal => some (.binary .eq)
  | .comparison, .symbol .notEqual => some (.binary .ne)
  | .comparison, .symbol .less => some (.binary .lt)
  | .comparison, .symbol .lessEqual => some (.binary .le)
  | .comparison, .symbol .greater => some (.binary .gt)
  | .comparison, .symbol .greaterEqual => some (.binary .ge)
  | .comparison, .word .in_ => some (.binary .isIn)
  | .sum, .symbol .plus => some (.binary .add)
  | .sum, .symbol .minus => some (.binary .sub)
  | .product, .symbol .star => some (.binary .mul)
  | .product, .symbol .slash => some (.binary .div)
  | .product, .symbol .slashSlash => some (.binary .floorDiv)
  | .product, .symbol .percent => some (.binary .mod)
  | _, _ => none

/-- Takes the operator of a level that comes next, if one does. Only `not in` has
two tokens. -/
def Level.operator (level : Level) : Parse (Option Connective) := fun ts =>
  match level, ts with
  | .comparison, ⟨.word .not_, _⟩ :: ⟨.word .in_, p⟩ :: rest =>
    .ok (some (.binary .notIn)) (Token.behind (⟨.word .in_, p⟩ :: rest))
  | level, ts =>
    match level.connective? (Token.front ts).kind with
    | some c => .ok (some c) (Token.behind ts)
    | none => .ok none ts

/-- The bound on recursion that a token accounts for. -/
def Token.weight (t : Token) : Nat :=
  match t.kind with
  | .fstr text => 64 * (text.length + 4)
  | _ => 64

/-- A bound on recursion that suffices for reading some tokens. -/
def Grammar.bound (ts : List Token) : Nat := ts.foldl (fun n t => n + t.weight) 64

namespace Grammar

open Parse

/-- The loop variables of a `for`: a name, a group in brackets, or several of these
separated by commas. With one comma it is a group. -/
def loopTargets (atom : Parse Target) : Nat → Parse (List Target)
  | 0 => exhausted
  | bound + 1 => do
    if ← accept (.symbol .comma) then
      if ← check (.word .in_) then pure []
      else
        let next ← atom
        let rest ← loopTargets atom bound
        pure (next :: rest)
    else pure []

mutual

def loopTarget : Nat → Parse Target
  | 0 => exhausted
  | bound + 1 => do
    let first ← targetAtom bound
    if ← check (.symbol .comma) then
      let rest ← loopTargets (targetAtom bound) bound
      pure (.group (first :: rest))
    else pure first

def targetAtom : Nat → Parse Target
  | 0 => exhausted
  | bound + 1 => do
    if ← accept (.symbol .leftParen) then
      let inner ← loopTarget bound
      expect (.symbol .rightParen)
      pure inner
    else
      let name ← expectName
      pure (.name name)

end

/-- The text of string literals that follow one another. -/
def adjacentStrings : Nat → String → Parse String
  | 0, _ => exhausted
  | bound + 1, text => do
    match (← peek).kind with
    | .str next =>
      advance
      adjacentStrings bound (text ++ next)
    | _ => pure text

/-- The conversion of a field: `r` asks for the value's quoted form, `s` and none
for its text. -/
def conversion (pos : Position) : Option (List Char) → Parse Bool
  | none => pure false
  | some text =>
    if text = ['s'] then pure false
    else if text = ['r'] then pure true
    else failAt pos (.unknownConversion (String.ofList text))

/-- The tokens of a field's expression. They are placed where the literal is. -/
def fieldTokens (pos : Position) (source : List Char) : Parse (List Token) :=
  match tokenizeAt pos source with
  | .ok inner => pure inner
  | .error (first :: _) => fun ts => .error first ts
  | .error [] => exhausted

mutual

def expr : Nat → Parse Expr
  | 0 => exhausted
  | bound + 1 => do
    if ← check (.word .lambda_) then lambda bound else conditional bound

/-- `lambda x, y=1: body` -/
def lambda : Nat → Parse Expr
  | 0 => exhausted
  | bound + 1 => do
    let pos ← here
    expect (.word .lambda_)
    let params ← params bound (.symbol .colon) []
    expect (.symbol .colon)
    let body ← expr bound
    pure (.lambda pos params body)

/-- Parameters up to the closing token. The ones so far are needed to tell that a
name is new and that no default came before. -/
def params : Nat → Token.Kind → List Param → Parse (List Param)
  | 0, _, _ => exhausted
  | bound + 1, close, seen => do
    if (← check close) || (← atEnd) then pure seen
    else
      let pos ← here
      let name ← expectName
      if seen.any fun p => p.name == name then failAt pos (.duplicateParameter name)
      else
        let default ← defaultValue bound
        if default.isNone && seen.any (fun p => p.default.isSome) then
          failAt pos (.requiredAfterDefault name)
        else
          let seen := seen ++ [⟨name, pos, default⟩]
          if ← accept (.symbol .comma) then params bound close seen else pure seen

def defaultValue : Nat → Parse (Option Expr)
  | 0 => exhausted
  | bound + 1 => do
    if ← accept (.symbol .assign) then
      let value ← expr bound
      pure (some value)
    else pure none

/-- `value if condition else value` -/
def conditional : Nat → Parse Expr
  | 0 => exhausted
  | bound + 1 => do
    let thenValue ← chain bound .or
    if ← accept (.word .if_) then
      let condition ← chain bound .or
      expect (.word .else_)
      let elseValue ← expr bound
      pure (.conditional thenValue.pos condition thenValue elseValue)
    else pure thenValue

/-- Operands of a level with its operators between them, grouped from the left. -/
def chain : Nat → Level → Parse Expr
  | 0, _ => exhausted
  | bound + 1, level => do
    let left ← operand bound level
    chainRest bound level left

/-- The operators and operands behind the first operand. -/
def chainRest : Nat → Level → Expr → Parse Expr
  | 0, _, _ => exhausted
  | bound + 1, level, left => do
    match ← level.operator with
    | none => pure left
    | some c =>
      let right ← operand bound level
      chainRest bound level (c.join left right)

/-- An operand of a level: the next level down. -/
def operand : Nat → Level → Parse Expr
  | 0, _ => exhausted
  | bound + 1, .or => chain bound .and
  | bound + 1, .and => negation bound
  | bound + 1, .comparison => chain bound .sum
  | bound + 1, .sum => chain bound .product
  | bound + 1, .product => signed bound

def negation : Nat → Parse Expr
  | 0 => exhausted
  | bound + 1 => do
    let pos ← here
    if ← accept (.word .not_) then
      let operand ← negation bound
      pure (.unary pos .not operand)
    else chain bound .comparison

def signed : Nat → Parse Expr
  | 0 => exhausted
  | bound + 1 => do
    let pos ← here
    if ← accept (.symbol .minus) then
      let operand ← signed bound
      pure (.unary pos .neg operand)
    else if ← accept (.symbol .plus) then
      let operand ← signed bound
      pure (.unary pos .pos operand)
    else power bound

/-- `base ** exponent`, which binds tighter than a sign on its left and groups from
the right. -/
def power : Nat → Parse Expr
  | 0 => exhausted
  | bound + 1 => do
    let base ← applied bound
    if ← accept (.symbol .starStar) then
      let exponent ← signed bound
      pure (.binary base.pos .pow base exponent)
    else pure base

/-- A primary expression with the calls, subscripts and attributes behind it. -/
def applied : Nat → Parse Expr
  | 0 => exhausted
  | bound + 1 => do
    let head ← primary bound
    trailers bound head

def trailers : Nat → Expr → Parse Expr
  | 0, _ => exhausted
  | bound + 1, head => do
    match (← peek).kind with
    | .symbol .leftParen =>
      advance
      let (args, keywords) ← arguments bound [] []
      expect (.symbol .rightParen)
      trailers bound (.call head.pos head args keywords)
    | .symbol .leftBracket =>
      advance
      let subscripted ← subscript bound head
      trailers bound subscripted
    | .symbol .dot =>
      advance
      let reached ← member bound head
      trailers bound reached
    | _ => pure head

/-- Behind a point: an attribute, or the call of a method. -/
def member : Nat → Expr → Parse Expr
  | 0, _ => exhausted
  | bound + 1, object => do
    let name ← expectName
    if ← accept (.symbol .leftParen) then
      let (args, keywords) ← arguments bound [] []
      expect (.symbol .rightParen)
      pure (.method object.pos object name args keywords)
    else pure (.member object.pos object name)

/-- Behind an opening bracket: an index, or a slice with any part left out. -/
def subscript : Nat → Expr → Parse Expr
  | 0, _ => exhausted
  | bound + 1, container => do
    if ← check (.symbol .colon) then sliceRest bound container none
    else
      let index ← expr bound
      if ← check (.symbol .colon) then sliceRest bound container (some index)
      else
        expect (.symbol .rightBracket)
        pure (.index container.pos container index)

/-- The rest of a slice, from the colon behind its start. -/
def sliceRest : Nat → Expr → Option Expr → Parse Expr
  | 0, _, _ => exhausted
  | bound + 1, container, start => do
    expect (.symbol .colon)
    let stop ← slicePart bound
    let step ← (do if ← accept (.symbol .colon) then slicePart bound else pure none)
    expect (.symbol .rightBracket)
    pure (.slice container.pos container start stop step)

def slicePart : Nat → Parse (Option Expr)
  | 0 => exhausted
  | bound + 1 => do
    if (← check (.symbol .colon)) || (← check (.symbol .rightBracket)) then pure none
    else
      let part ← expr bound
      pure (some part)

/-- Arguments up to the closing bracket: positional ones, then keywords. -/
def arguments : Nat → List Expr → List Keyword → Parse (List Expr × List Keyword)
  | 0, _, _ => exhausted
  | bound + 1, args, keywords => do
    if (← check (.symbol .rightParen)) || (← atEnd) then pure (args, keywords)
    else
      let pos ← here
      match ← keywordName with
      | some name =>
        if keywords.any fun k => k.name == name then failAt pos (.repeatedKeyword name)
        else
          let value ← expr bound
          let keywords := keywords ++ [⟨name, value⟩]
          if ← accept (.symbol .comma) then arguments bound args keywords
          else pure (args, keywords)
      | none =>
        if keywords.isEmpty then
          let arg ← expr bound
          let args := args ++ [arg]
          if ← accept (.symbol .comma) then arguments bound args keywords
          else pure (args, keywords)
        else failAt pos .positionalAfterKeyword

/-- A literal, a name, or something in brackets. -/
def primary : Nat → Parse Expr
  | 0 => exhausted
  | bound + 1 => do
    let token ← peek
    let pos := token.pos
    match token.kind with
    | .int n => advance; pure (.int pos n)
    | .float x => advance; pure (.float pos x)
    | .str text =>
      advance
      let text ← adjacentStrings bound text
      pure (.str pos text)
    | .fstr text =>
      advance
      let (pieces, wrong) := Piece.split text.toList
      let parts ← fstringParts bound pos pieces
      match wrong with
      | some complaint => failAt pos complaint
      | none => pure (.fstring pos parts)
    | .word .true_ => advance; pure (.bool pos true)
    | .word .false_ => advance; pure (.bool pos false)
    | .word .none_ => advance; pure (.none pos)
    | .name name => advance; pure (.name pos name)
    | .symbol .leftParen => advance; parenthesized bound pos
    | .symbol .leftBracket => advance; listLiteral bound pos
    | .symbol .leftBrace => advance; dictLiteral bound pos
    | _ => unexpected .expression

/-- Behind an opening bracket: one expression alone is grouped, otherwise the
expressions are the items of a list. -/
def parenthesized : Nat → Position → Parse Expr
  | 0, _ => exhausted
  | bound + 1, pos => do
    if ← accept (.symbol .rightParen) then pure (.list pos [])
    else
      let first ← expr bound
      if ← check (.symbol .comma) then
        let rest ← moreItems bound (fun k => k.same (.symbol .rightParen))
        expect (.symbol .rightParen)
        pure (.list pos (first :: rest))
      else
        expect (.symbol .rightParen)
        pure first

/-- The items behind the first, each behind its comma. A comma may stand at the end. -/
def moreItems : Nat → (Token.Kind → Bool) → Parse (List Expr)
  | 0, _ => exhausted
  | bound + 1, isClosing => do
    if ← accept (.symbol .comma) then
      if isClosing (← peek).kind then pure []
      else
        let item ← expr bound
        let rest ← moreItems bound isClosing
        pure (item :: rest)
    else pure []

/-- Behind an opening bracket: the items of a list, or a comprehension. -/
def listLiteral : Nat → Position → Parse Expr
  | 0, _ => exhausted
  | bound + 1, pos => do
    if ← accept (.symbol .rightBracket) then pure (.list pos [])
    else
      let first ← expr bound
      if ← check (.word .for_) then
        let clause ← clause bound
        expect (.symbol .rightBracket)
        pure (.listOf pos first clause)
      else
        let rest ← moreItems bound (fun k => k.same (.symbol .rightBracket))
        expect (.symbol .rightBracket)
        pure (.list pos (first :: rest))

/-- Behind an opening brace: the entries of a dict, or a comprehension. -/
def dictLiteral : Nat → Position → Parse Expr
  | 0, _ => exhausted
  | bound + 1, pos => do
    if ← accept (.symbol .rightBrace) then pure (.dict pos [])
    else
      let first ← dictEntry bound
      if ← check (.word .for_) then
        let clause ← clause bound
        expect (.symbol .rightBrace)
        pure (.dictOf pos first.key first.value clause)
      else
        let rest ← moreEntries bound
        expect (.symbol .rightBrace)
        pure (.dict pos (first :: rest))

/-- `key: value` -/
def dictEntry : Nat → Parse DictEntry
  | 0 => exhausted
  | bound + 1 => do
    let key ← expr bound
    expect (.symbol .colon)
    let value ← expr bound
    pure ⟨key, value⟩

/-- The entries behind the first, each behind its comma. -/
def moreEntries : Nat → Parse (List DictEntry)
  | 0 => exhausted
  | bound + 1 => do
    if ← accept (.symbol .comma) then
      if ← check (.symbol .rightBrace) then pure []
      else
        let entry ← dictEntry bound
        let rest ← moreEntries bound
        pure (entry :: rest)
    else pure []

/-- `for target in iterable if condition` -/
def clause : Nat → Parse Clause
  | 0 => exhausted
  | bound + 1 => do
    expect (.word .for_)
    let target ← loopTarget bound
    expect (.word .in_)
    let iterable ← chain bound .or
    if ← accept (.word .if_) then
      let condition ← chain bound .or
      pure ⟨target, iterable, some condition⟩
    else pure ⟨target, iterable, none⟩

/-- The pieces of an f-string with their fields read, in order. -/
def fstringParts : Nat → Position → List Piece → Parse (List FStringPart)
  | 0, _, _ => exhausted
  | _ + 1, _, [] => pure []
  | bound + 1, pos, .text s :: rest => do
    let parts ← fstringParts bound pos rest
    pure (.text (String.ofList s) :: parts)
  | bound + 1, pos, .field source :: rest => do
    let part ← fstringField bound pos (FieldText.split source)
    let parts ← fstringParts bound pos rest
    pure (part :: parts)

/-- A field of an f-string. Its expression has tokens of its own. -/
def fstringField : Nat → Position → FieldText → Parse FStringPart
  | 0, _, _ => exhausted
  | bound + 1, pos, field => do
    let repr ← conversion pos field.conversion
    let source := Text.trim Text.isSpace field.source
    if source.isEmpty then failAt pos .emptyField
    else
      let inner ← fieldTokens pos source
      let value ← within inner (do
        let value ← expr bound
        expectLineEnd
        if ← atEnd then pure value else unexpected .closingBrace)
      pure (.field value repr (field.spec.map String.ofList))

end

end Grammar

end Scripting
