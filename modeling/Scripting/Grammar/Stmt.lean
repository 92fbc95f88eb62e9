/-
# The grammar of statements

A statement either fits on a line or has blocks. A block follows a colon: one
statement on the same line, or the lines that are indented deeper. Which jumps are
allowed is known from where a statement stands: `return` inside a function,
`break` and `continue` inside a loop of the same function.

`parse` reads a whole source. Behind an error it goes on with the next line, so
that one run can report several.
-/
import Scripting.Grammar.Expr
import Scripting.Stmt

namespace Scripting

/-- What encloses a statement. The readers hand it down to the blocks they read, so that behind a
block, or where reading it has failed, what encloses the block itself counts again. -/
structure Nesting where
  inFunction : Bool
  inLoop : Bool
  deriving DecidableEq, Repr

namespace Nesting

def top : Nesting := ⟨false, false⟩

/-- In the body of a function, outside its loops. -/
def function : Nesting := ⟨true, false⟩

def loop (n : Nesting) : Nesting := { n with inLoop := true }

end Nesting

namespace Grammar

open Parse

mutual

def asTarget : Expr → Except Diagnostic Target
  | .name _ name => .ok (.name name)
  | .index _ container key => .ok (.index container key)
  | .list pos items =>
    match items with
    | [] => .error ⟨.invalidTarget, pos⟩
    | first :: rest => do
      let first ← asTarget first
      let rest ← asTargets rest
      pure (.group (first :: rest))
  | other => .error ⟨.invalidTarget, other.pos⟩

def asTargets : List Expr → Except Diagnostic (List Target)
  | [] => .ok []
  | e :: rest => do
    let first ← asTarget e
    let rest ← asTargets rest
    pure (first :: rest)

end

/-- An expression as the target of an assignment, at this place in the tokens. -/
def target (e : Expr) : Parse Target :=
  match asTarget e with
  | .ok target => pure target
  | .error d => fun ts => .error d ts

def augmentOp? : Token.Kind → Option BinaryOp
  | .symbol .plusAssign => some .add
  | .symbol .minusAssign => some .sub
  | .symbol .starAssign => some .mul
  | .symbol .slashAssign => some .div
  | .symbol .percentAssign => some .mod
  | _ => none

/-- One expression, or several separated by commas, which make a list. -/
def exprList (bound : Nat) : Parse Expr := do
  let first ← expr bound
  if ← check (.symbol .comma) then
    let rest ← moreItems bound fun k => isLineEnd k || k.same (.symbol .assign)
    pure (.list first.pos (first :: rest))
  else pure first

/-- An expression, or an assignment to it. -/
def exprOrAssign (bound : Nat) : Parse Stmt := do
  let pos ← here
  let e ← exprList bound
  let next ← peek
  if next.kind.same (.symbol .assign) then
    let target ← target e
    advance
    let value ← exprList bound
    pure (.assign pos target value)
  else match augmentOp? next.kind with
    | some op =>
      match ← target e with
      | .group _ => failAt pos .augmentedGroup
      | target =>
        advance
        let value ← expr bound
        pure (.augment pos op target value)
    | none => pure (.expr e)

def optionalValue (value : Parse Expr) : Parse (Option Expr) := do
  if ← atLineEnd then pure none
  else
    let value ← value
    pure (some value)

def simpleStmt (bound : Nat) (nesting : Nesting) : Parse Stmt := do
  let token ← peek
  let pos := token.pos
  match token.kind with
  | .word .return_ =>
    if nesting.inFunction then
      advance
      let value ← optionalValue (exprList bound)
      pure (.giveBack pos value)
    else failHere .returnOutsideFunction
  | .word .import_ =>
    advance
    let name ← expectName
    let name ← dottedRest bound name
    pure (.importModule pos name)
  | .word .raise_ =>
    advance
    let value ← optionalValue (expr bound)
    pure (.raise pos value)
  | .word .pass_ => advance; pure (.pass pos)
  | .word .break_ =>
    if nesting.inLoop then advance; pure (.breakLoop pos) else failHere .jumpOutsideLoop
  | .word .continue_ =>
    if nesting.inLoop then advance; pure (.continueLoop pos) else failHere .jumpOutsideLoop
  | _ => exprOrAssign bound

def simpleLine (bound : Nat) (nesting : Nesting) : Parse Stmt := do
  let stmt ← simpleStmt bound nesting
  expectLineEnd
  pure stmt

/-- The kind of error that a handler is for: none, or a dotted name. -/
def handlerKind (bound : Nat) : Parse (Option String) := do
  if ← check (.symbol .colon) then pure none
  else
    let name ← expectName
    let name ← dottedRest bound name
    pure (some name)

def handlerBinding : Parse (Option String) := do
  if ← accept (.word .as_) then
    let name ← expectName
    pure (some name)
  else pure none

mutual

def stmt : Nat → Nesting → Parse Stmt
  | 0, _ => exhausted
  | bound + 1, nesting => do
    match (← peek).kind with
    | .word .if_ => branchStmt bound nesting
    | .word .for_ => forStmt bound nesting
    | .word .while_ => whileStmt bound nesting
    | .word .def_ => defineStmt bound nesting
    | .word .try_ => attemptStmt bound nesting
    | _ => simpleLine bound nesting

/-- `if condition: block`, then `elif` and `else` -/
def branchStmt : Nat → Nesting → Parse Stmt
  | 0, _ => exhausted
  | bound + 1, nesting => do
    let pos ← here
    expect (.word .if_)
    let condition ← expr bound
    let body ← block bound nesting
    let rest ← elifBranches bound nesting
    let otherwise ← optionalBlock bound nesting (.word .else_)
    pure (.branch pos (⟨condition, body⟩ :: rest) otherwise)

def elifBranches : Nat → Nesting → Parse (List Branch)
  | 0, _ => exhausted
  | bound + 1, nesting => do
    if ← accept (.word .elif_) then
      let condition ← expr bound
      let body ← block bound nesting
      let rest ← elifBranches bound nesting
      pure (⟨condition, body⟩ :: rest)
    else pure []

def optionalBlock : Nat → Nesting → Token.Kind → Parse (Option (List Stmt))
  | 0, _, _ => exhausted
  | bound + 1, nesting, word => do
    if ← accept word then
      let body ← block bound nesting
      pure (some body)
    else pure none

/-- `for target in iterable: block` -/
def forStmt : Nat → Nesting → Parse Stmt
  | 0, _ => exhausted
  | bound + 1, nesting => do
    let pos ← here
    expect (.word .for_)
    let target ← loopTarget bound
    expect (.word .in_)
    let iterable ← expr bound
    let body ← block bound nesting.loop
    pure (.forEach pos target iterable body)

/-- `while condition: block` -/
def whileStmt : Nat → Nesting → Parse Stmt
  | 0, _ => exhausted
  | bound + 1, nesting => do
    let pos ← here
    expect (.word .while_)
    let condition ← expr bound
    let body ← block bound nesting.loop
    pure (.whileTrue pos condition body)

/-- `def name(params): block` -/
def defineStmt : Nat → Nesting → Parse Stmt
  | 0, _ => exhausted
  | bound + 1, _ => do
    let pos ← here
    expect (.word .def_)
    let name ← expectName
    expect (.symbol .leftParen)
    let params ← params bound (.symbol .rightParen) []
    expect (.symbol .rightParen)
    let body ← block bound .function
    pure (.define pos name params body)

/-- `try: block`, then handlers, `else` and `finally` -/
def attemptStmt : Nat → Nesting → Parse Stmt
  | 0, _ => exhausted
  | bound + 1, nesting => do
    let pos ← here
    expect (.word .try_)
    let body ← block bound nesting
    let handlers ← handlers bound nesting false
    let otherwise ←
      if handlers.isEmpty then pure none else optionalBlock bound nesting (.word .else_)
    let always ← optionalBlock bound nesting (.word .finally_)
    if handlers.isEmpty && always.isNone then
      let found ← peek
      failHere (.missingHandler found.kind)
    else pure (.attempt pos body handlers otherwise always)

/-- The handlers of a `try`. None may follow one for every kind of error. -/
def handlers : Nat → Nesting → Bool → Parse (List Handler)
  | 0, _, _ => exhausted
  | bound + 1, nesting, afterBare => do
    if ← check (.word .except_) then
      if afterBare then failHere .handlerAfterBare
      else
        let pos ← here
        advance
        let kind ← handlerKind bound
        let binding ← handlerBinding
        let body ← block bound nesting
        let rest ← handlers bound nesting kind.isNone
        pure (⟨pos, kind, binding, body⟩ :: rest)
    else pure []

def block : Nat → Nesting → Parse (List Stmt)
  | 0, _ => exhausted
  | bound + 1, nesting => do
    expect (.symbol .colon)
    if ← accept .newline then
      expect .indent
      let body ← blockBody bound nesting
      if ← atEnd then pure body
      else
        expect .dedent
        pure body
    else
      let only ← simpleLine bound nesting
      pure [only]

/-- The statements up to the end of their block. -/
def blockBody : Nat → Nesting → Parse (List Stmt)
  | 0, _ => exhausted
  | bound + 1, nesting => do
    if (← check .dedent) || (← atEnd) then pure []
    else if ← accept .newline then blockBody bound nesting
    else
      let first ← stmt bound nesting
      let rest ← blockBody bound nesting
      pure (first :: rest)

end

/-- The tokens behind the end of the line. The end of the input stays. -/
def skipLine : List Token → List Token
  | [] => []
  | [t] => [t]
  | t :: u :: rest => match t.kind with
    | .newline => u :: rest
    | .eof => t :: u :: rest
    | _ => skipLine (u :: rest)

inductive Found where
  | nothing
  | statement (s : Stmt)
  | wrong (d : Diagnostic)
  | exhausted

/-- One turn of reading a program: a line end, a statement, or an error and the
line it is in. Block ends that are left over from an error say nothing new. -/
def turn (bound : Nat) (afterError : Bool) (ts : List Token) : Found × List Token :=
  let next := Token.front ts
  match next.kind with
  | .newline => (.nothing, Token.behind ts)
  | .indent => (.wrong ⟨.unexpectedToken .statement next.kind, next.pos⟩, Token.behind ts)
  | .dedent =>
    if afterError then (.nothing, Token.behind ts)
    else (.wrong ⟨.unexpectedToken .statement next.kind, next.pos⟩, Token.behind ts)
  | _ =>
    match stmt bound .top ts with
    | .ok s rest => (.statement s, rest)
    | .error d rest => (.wrong d, skipLine rest)
    | .exhausted => (.exhausted, [])

/-- The statements and the diagnostics up to the end of the tokens. There is no
answer only if a bound was too small. -/
def programFrom (bound : Nat) : Nat → List Token → Array Stmt → Array Diagnostic →
    Option (Array Stmt × Array Diagnostic)
  | 0, _, _, _ => none
  | turns + 1, ts, stmts, wrong =>
    match (Token.front ts).kind with
    | .eof => some (stmts, wrong)
    | _ =>
      match turn bound (!wrong.isEmpty) ts with
      | (.nothing, rest) => programFrom bound turns rest stmts wrong
      | (.statement s, rest) => programFrom bound turns rest (stmts.push s) wrong
      | (.wrong d, rest) => programFrom bound turns rest stmts (wrong.push d)
      | (.exhausted, _) => none

/-- The program that the tokens spell, or everything wrong with them. -/
def program (ts : List Token) : Except (List Diagnostic) Program :=
  match programFrom (bound ts) (ts.length + 1) ts #[] #[] with
  | some (stmts, wrong) => if wrong.isEmpty then .ok stmts.toList else .error wrong.toList
  | none => .error []

end Grammar

/-- The program of a source text, or everything wrong with it. -/
def parse (source : String) : Except (List Diagnostic) Program := do
  let ts ← tokenize source
  Grammar.program ts

end Scripting
