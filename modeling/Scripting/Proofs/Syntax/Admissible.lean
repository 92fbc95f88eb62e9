/-
# Well-formed syntax

The rules that a script keeps beyond the shape of its tree: where jumps may stand, what a
loop may bind, which names a parameter list and a call may repeat, and how the parts of an
attempt go together. A rule looks at one expression or one statement and what encloses it.
A script is sound if everything in it keeps the rules, at every depth, and lies on the line
where the script begins or below.
-/
import Scripting.Proofs.Syntax.Parts

namespace Scripting

/-- A target that a loop can bind: names and groups of such, none of them empty. -/
inductive Target.Bindable : Target → Prop
  | name (name : String) : Bindable (.name name)
  | group {targets : List Target} (filled : targets ≠ []) (each : ∀ t ∈ targets, t.Bindable) :
      Bindable (.group targets)

/-- A target with no empty group in it. -/
inductive Target.Filled : Target → Prop
  | name (name : String) : Filled (.name name)
  | index (container key : Expr) : Filled (.index container key)
  | group {targets : List Target} (filled : targets ≠ []) (each : ∀ t ∈ targets, t.Filled) :
      Filled (.group targets)

/-- A list of parameters: no name comes twice, and behind a default all have one. -/
structure Param.Listed (params : List Param) : Prop where
  distinct : (params.map Param.name).Nodup
  defaultsLast : params.Pairwise fun p q => p.default.isSome → q.default.isSome

/-- What an expression itself has to keep to. -/
def Expr.Admissible : Expr → Prop
  | .call _ _ _ keywords => (keywords.map Keyword.name).Nodup
  | .method _ _ _ _ keywords => (keywords.map Keyword.name).Nodup
  | .listOf _ _ clause => clause.target.Bindable
  | .dictOf _ _ _ clause => clause.target.Bindable
  | .lambda _ params _ => Param.Listed params
  | _ => True

/-- What a statement itself has to keep to, in what encloses it. -/
def Stmt.Admissible (n : Nesting) : Stmt → Prop
  | .assign _ target _ => target.Filled
  | .augment _ _ target _ => ∀ targets, target ≠ .group targets
  | .forEach _ target _ _ => target.Bindable
  | .define _ _ params _ => Param.Listed params
  | .giveBack .. => n.inFunction = true
  | .breakLoop _ | .continueLoop _ => n.inLoop = true
  | .attempt _ _ handlers otherwise always =>
    (handlers ≠ [] ∨ always ≠ none) ∧ (otherwise ≠ none → handlers ≠ []) ∧
      ∀ k ∈ handlers.dropLast, k.kind ≠ none
  | _ => True

/-- An expression in which everything keeps to the rules and lies on a line from `low` on. -/
inductive Expr.Sound (low : Nat) : Expr → Prop
  | intro {e : Expr} (rule : e.Admissible) (located : low ≤ e.pos.line)
      (inside : ∀ part ∈ e.parts, part.Sound low) : e.Sound low

namespace Expr.Sound

variable {low : Nat} {e : Expr}

theorem rule : e.Sound low → e.Admissible
  | intro rule _ _ => rule

theorem located : e.Sound low → low ≤ e.pos.line
  | intro _ located _ => located

theorem inside : e.Sound low → ∀ part ∈ e.parts, part.Sound low
  | intro _ _ inside => inside

end Expr.Sound

/-- A statement in which everything keeps to the rules and lies on a line from `low` on. -/
inductive Stmt.Sound (low : Nat) : Nesting → Stmt → Prop
  | intro {n : Nesting} {s : Stmt} (rule : s.Admissible n) (located : low ≤ s.pos.line)
      (inside : ∀ e ∈ s.exprs, e.Sound low)
      (blocks : ∀ body ∈ s.blocks, ∀ t ∈ body, Stmt.Sound low (s.inner n) t) : Stmt.Sound low n s

namespace Stmt.Sound

variable {low : Nat} {n : Nesting} {s : Stmt}

theorem rule : s.Sound low n → s.Admissible n
  | intro rule _ _ _ => rule

theorem located : s.Sound low n → low ≤ s.pos.line
  | intro _ located _ _ => located

theorem inside : s.Sound low n → ∀ e ∈ s.exprs, e.Sound low
  | intro _ _ inside _ => inside

theorem blocks : s.Sound low n → ∀ body ∈ s.blocks, ∀ t ∈ body, t.Sound low (s.inner n)
  | intro _ _ _ blocks => blocks

end Stmt.Sound

mutual

/-- What stands in a sound script is sound where it stands. -/
theorem Stmt.Stands.sound {low : Nat} {program : Program}
    (hprogram : ∀ s ∈ program, s.Sound low .top) {n : Nesting} {s : Stmt} :
    s.Stands program n → s.Sound low n
  | .top h => hprogram _ h
  | .block h hbody ht => (Stmt.Stands.sound hprogram h).blocks _ hbody _ ht
  | .lambda h => by
    have hlambda := Expr.Stands.sound hprogram h
    refine .intro rfl hlambda.located (fun e he => ?_) nofun
    cases List.mem_singleton.1 he
    exact hlambda.inside _ (.head _)

theorem Expr.Stands.sound {low : Nat} {program : Program}
    (hprogram : ∀ s ∈ program, s.Sound low .top) {e : Expr} : e.Stands program → e.Sound low
  | .stmt h he => (Stmt.Stands.sound hprogram h).inside _ he
  | .part h hpart => (Expr.Stands.sound hprogram h).inside _ hpart

end

end Scripting
