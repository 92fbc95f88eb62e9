/-
# Statements

The tree of a statement. A block is a list of statements. A block can be empty:
a line that holds nothing but a continuation opens a block and puts nothing in it.
So a part that can be left out is an `Option`.
-/
import Scripting.Expr

namespace Scripting

mutual

inductive Stmt where
  | assign (pos : Position) (target : Target) (value : Expr)
  | augment (pos : Position) (op : BinaryOp) (target : Target) (value : Expr)
  | branch (pos : Position) (branches : List Branch) (otherwise : Option (List Stmt))
  | forEach (pos : Position) (target : Target) (iterable : Expr) (body : List Stmt)
  /-- `while`: its block as long as the condition is true -/
  | whileTrue (pos : Position) (condition : Expr) (body : List Stmt)
  | define (pos : Position) (name : String) (params : List Param) (body : List Stmt)
  /-- `return` -/
  | giveBack (pos : Position) (value : Option Expr)
  | importModule (pos : Position) (name : String)
  /-- `try`, with the blocks of `except`, `else` and `finally` -/
  | attempt (pos : Position) (body : List Stmt) (handlers : List Handler)
      (otherwise : Option (List Stmt)) (always : Option (List Stmt))
  | raise (pos : Position) (value : Option Expr)
  | pass (pos : Position)
  | breakLoop (pos : Position)
  | continueLoop (pos : Position)
  | expr (value : Expr)

structure Branch where
  condition : Expr
  body : List Stmt

/-- A block for the errors of a kind; no kind means every error. -/
structure Handler where
  pos : Position
  kind : Option String
  binding : Option String
  body : List Stmt

end

def Stmt.pos : Stmt → Position
  | .assign p .. | .augment p .. | .branch p .. | .forEach p .. | .whileTrue p ..
  | .define p .. | .giveBack p _ | .importModule p _ | .attempt p .. | .raise p _
  | .pass p | .breakLoop p | .continueLoop p => p
  | .expr value => value.pos

/-- A script: its statements in order. -/
abbrev Program := List Stmt

/-- Whether a script ends in an expression, whose value is then its result. -/
def Program.hasResult (p : Program) : Bool :=
  match p.getLast? with
  | some (.expr _) => true
  | _ => false

end Scripting
