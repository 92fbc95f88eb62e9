/-
# Evaluation

The forms of expressions and statements tied together. Evaluation need not end, so
every step takes from a budget; the endings of a run that has budget left do not
depend on it.
-/
import Scripting.Eval.Stmt

namespace Scripting

mutual

def evalExpr (env : Environment) : (fuel : Nat) → ScopeRef → Expr → Run Value
  | 0, _, _ => Run.exhausted
  | fuel + 1, scope, e =>
    match e with
    | .int _ n => pure (.int n)
    | .float _ x => pure (.float x)
    | .str _ s => pure (.str s)
    | .bool _ b => pure (.bool b)
    | .none _ => pure .none
    | .name p name => resolveName env scope name p.line
    | .binary p op left right => evalBinary (evalExpr env fuel scope) p.line op left right
    | .logic _ op left right => evalLogic (evalExpr env fuel scope) op left right
    | .unary p op operand => evalUnary (evalExpr env fuel scope) p.line op operand
    | .conditional _ condition thenValue elseValue =>
      evalConditional (evalExpr env fuel scope) condition thenValue elseValue
    | .call p callee args keywords =>
      evalCall (evalExpr env fuel scope) (callValue env fuel) p.line callee args keywords
    | .index p container key => evalIndex (evalExpr env fuel scope) p.line container key
    | .slice p container start stop step =>
      evalSlice (evalExpr env fuel scope) p.line container start stop step
    | .member p object name => evalMember (evalExpr env fuel scope) p.line object name
    | .method p object name args keywords =>
      evalMethod (evalExpr env fuel scope) (callValue env fuel) p.line object name args keywords
    | .list _ items => do
      let values ← evalEach (evalExpr env fuel scope) #[] items
      Run.newList values
    | .dict p entries => do
      let table ← evalEntries (evalExpr env fuel scope) p.line .empty entries
      Run.newDict table
    | .listOf p item clause => evalListOf (evalExpr env fuel) p.line scope item clause
    | .dictOf p key value clause => evalDictOf (evalExpr env fuel) p.line scope key value clause
    | .lambda p params body =>
      makeClosure (evalExpr env fuel scope) scope "<lambda>" params [.giveBack p (some body)]
    | .fstring p parts => do
      let text ← formatParts (evalExpr env fuel scope) p.line "" parts
      return .str text

def execStmt (env : Environment) : (fuel : Nat) → ScopeRef → Stmt → Run Flow
  | 0, _, _ => Run.exhausted
  | fuel + 1, scope, s => do
    checkpoint s.pos.line s.moments
    match s with
    | .assign p target value => runAssign (evalExpr env fuel scope) scope p.line target value
    | .augment p op target value =>
      augment (evalExpr env fuel scope) env scope p.line op target value
    | .branch _ branches otherwise =>
      runBranches (evalExpr env fuel scope) (runBlock (execStmt env fuel scope)) otherwise branches
    | .forEach p target iterable body =>
      runFor (evalExpr env fuel scope) (fun inner => runBlock (execStmt env fuel inner)) p.line
        scope target iterable body
    | .whileTrue p condition body =>
      loopWhile (whileTest (evalExpr env fuel scope) p.line condition)
        (runBlock (execStmt env fuel scope) body) fuel
    | .define _ name params body => runDefine (evalExpr env fuel scope) scope name params body
    | .giveBack _ value => runGiveBack (evalExpr env fuel scope) value
    | .importModule p name => do
      Run.atLine p.line (importModule env name)
      return .normal
    | .attempt _ body handlers otherwise always =>
      attempt (runBlock (execStmt env fuel scope)) scope body handlers otherwise always
    | .raise p value => raiseFault (evalExpr env fuel scope) p.line value
    | .pass _ => pure .normal
    | .breakLoop _ => pure .breakLoop
    | .continueLoop _ => pure .continueLoop
    | .expr e => do
      let _ ← evalExpr env fuel scope e
      return .normal

def callValue (env : Environment) : (fuel : Nat) → FullCaller
  | 0, _, _, _, _ => Run.exhausted
  | fuel + 1, f, args, keywords, line => do
    match ← Run.atLine line (Run.inspect fun h => h.asFunction f) with
    | .host f =>
      Run.atLine line (f.invoke env.natives
        (fun g args => callValue env fuel g args .empty 0) args keywords env.codec)
    | .script closure =>
      enterCall (fun inner => runBlock (execStmt env fuel inner)) env.maxDepth closure args
        keywords line

end

/-- Runs a script in the global scope. Its result is the value of the expression at
its end, or `None`. -/
def runProgram (env : Environment) (fuel : Nat) : Program → Run Value
  | [] => pure .none
  | [.expr e] => do
    checkpoint e.pos.line
    evalExpr env fuel env.globals e
  | s :: rest => do
    let _ ← execStmt env fuel env.globals s
    runProgram env fuel rest

end Scripting
