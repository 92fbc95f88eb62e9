/-
# One step of the evaluator

`evalExpr` with some budget takes a step and leaves the rest to `evalExpr` and
`callValue` with less; `execStmt` likewise. So two steps are related if what they leave
to do is, and their own work; and a discipline holds of a step if it holds of these. The
expressions that are left are parts of the given one, a call gets fewer arguments than the
expression is large, and a function that is made has a body that is hardly larger than what
makes it. These bounds are what an induction on the size of the syntax needs.

Where no bound is needed, a modality that calls and attempts keep holds of every
evaluation (`Modality.Everywhere`).
-/
import Scripting.Proofs.Run.Modality

namespace Scripting

variable {scope : ScopeRef}

namespace Pairing

variable (R : Pairing) {env : Environment} {natives : String → HostBody} {fuel fuel' : Nat}

/-! ### Expressions -/

/-- A step of an expression's evaluation is related to one in an environment with other host
functions, and with another budget, if the parts of the expression, the calls and the
functions that the step makes and its own work are. -/
theorem evalExpr_succ {e : Expr}
    (he : ∀ scope, ∀ part ∈ e.parts, R.rel (evalExpr env fuel scope part)
      (evalExpr { env with natives := natives } fuel' scope part))
    (hc : e.isCall = true → ∀ f vs ks, vs.length < sizeOf e →
      R.rel (callValue env fuel f vs ks e.pos.line)
        (callValue { env with natives := natives } fuel' f vs ks e.pos.line))
    (hn : ∀ (c : Closure) (p : Position) (params : List Param) (value : Expr),
      e = .lambda p params value → c.body = [.giveBack p (some value)] →
      R.Fits (Run.newFunction (.script c)))
    (hcheck : e.clause?.isSome = true → R.Fits (checkpoint e.pos.line))
    (hw : ∀ {β : Type} {line : Nat} {act : Run β}, e.Work env line act →
      R.Fits (Run.atLine line act)) :
    R.rel (evalExpr env (fuel + 1) scope e)
      (evalExpr { env with natives := natives } (fuel' + 1) scope e) := by
  rw [evalExpr.eq_def, evalExpr.eq_def]
  cases e with
  | int | float | str | bool | none => exact R.pure _
  | name p name =>
    have h := hw (.name p name scope)
    rwa [atLine_resolveName] at h
  | binary p op left right =>
    exact R.evalBinary (he scope left (by simp [Expr.parts])) (he scope right (by simp [Expr.parts]))
      fun a b => hw (.binary p op left right a b)
  | logic p op left right =>
    exact R.evalLogic (he scope left (by simp [Expr.parts])) (he scope right (by simp [Expr.parts]))
  | unary p op operand =>
    exact R.andThen (he scope operand (by simp [Expr.parts])) fun v => hw (.unary p op operand v)
  | conditional p condition thenValue elseValue =>
    exact R.evalConditional (he scope condition (by simp [Expr.parts]))
      (he scope thenValue (by simp [Expr.parts])) (he scope elseValue (by simp [Expr.parts]))
  | call p callee args keywords =>
    simp only [Expr.parts, List.cons_append, List.forall_mem_cons, List.forall_mem_append,
      List.forall_mem_map] at he
    obtain ⟨hcallee, hargs, hkeys⟩ := he scope
    refine R.evalCall hcallee hargs hkeys fun f vs ks hvs => hc rfl f vs ks ?_
    have := length_lt_sizeOf args
    rw [Expr.call.sizeOf_spec]
    omega
  | index p container key =>
    exact R.andThen (he scope container (by simp [Expr.parts])) fun c =>
      R.andThen (he scope key (by simp [Expr.parts])) fun k => hw (.index p container key c k)
  | slice p container start stop step =>
    refine R.evalSlice (he scope container (by simp [Expr.parts])) (fun part hpart => ⟨?_, ?_⟩)
      fun v bounds => hw (.slice p container start stop step v bounds)
    · exact he scope part (.tail _ hpart)
    · exact fun v => hw (.bound p container start stop step part hpart v)
  | member p object name =>
    exact R.andThen (he scope object (by simp [Expr.parts])) fun v => hw (.member p object name v)
  | method p object name args keywords =>
    simp only [Expr.parts, List.cons_append, List.forall_mem_cons, List.forall_mem_append,
      List.forall_mem_map] at he
    obtain ⟨hobject, hargs, hkeys⟩ := he scope
    refine R.evalMethod hobject hargs hkeys (fun f vs ks hvs => hc rfl f vs ks ?_)
      (fun v vs ks act hact => hw (.method p object name args keywords v vs ks act hact))
      fun v => hw (.noMethod p object name args keywords v)
    have := length_lt_sizeOf args
    rw [Expr.method.sizeOf_spec]
    omega
  | list p items => exact R.andThen (R.evalEach (he scope)) fun _ => R.quiet (.newList _)
  | dict p entries =>
    simp only [Expr.parts, List.forall_mem_append, List.forall_mem_map] at he
    refine R.andThen (R.evalEntries (fun v => hw (.entry p entries v)) ?_) fun _ => R.quiet (.newDict _)
    exact fun entry hentry => ⟨(he scope).1 entry hentry, (he scope).2 entry hentry⟩
  | listOf p item clause =>
    have hclause : R.Comprehends (evalExpr env fuel)
        (evalExpr { env with natives := natives } fuel') p.line clause :=
      { parts := fun inner part hpart => he inner part (.tail _ hpart)
        checkpoint := hcheck rfl
        iterate := fun v => hw (.iterate (e := .listOf p item clause) rfl v)
        target := fun inner v => hw (.target (e := .listOf p item clause) rfl inner v) }
    exact evalListOf hclause fun inner => he inner item (.head _)
  | dictOf p key value clause =>
    have hclause : R.Comprehends (evalExpr env fuel)
        (evalExpr { env with natives := natives } fuel') p.line clause :=
      { parts := fun inner part hpart =>
          he inner part (.tail _ (.tail _ hpart))
        checkpoint := hcheck rfl
        iterate := fun v => hw (.iterate (e := .dictOf p key value clause) rfl v)
        target := fun inner v => hw (.target (e := .dictOf p key value clause) rfl inner v) }
    exact evalDictOf hclause (fun inner => he inner key (by simp [Expr.parts]))
      (fun inner => he inner value (by simp [Expr.parts])) fun v => hw (.key p key value clause v)
  | lambda p params body =>
    exact R.makeClosure (fun part hpart => he scope part (.tail _ hpart))
      fun c hbody => hn c p params body rfl hbody
  | fstring p parts =>
    exact R.andThen (R.formatParts (fun v repr spec => hw (.field p parts v repr spec)) (he scope))
      fun _ => R.pure _

/-! ### Statements -/

/-- A step of a statement is related to one in another environment and with another budget if
the expressions in it, its blocks, the function that it defines and its own work are, and if it
is a loop, an attempt or a raise of the fault being handled that is. -/
theorem execStmt_succ {s : Stmt}
    (he : ∀ e ∈ s.exprs, R.rel (evalExpr env fuel scope e)
      (evalExpr { env with natives := natives } fuel' scope e))
    (hb : ∀ scope, ∀ body ∈ s.runs, R.rel (Scripting.runBlock (execStmt env fuel scope) body)
      (Scripting.runBlock (execStmt { env with natives := natives } fuel' scope) body))
    (hloop : ∀ p condition body, s = .whileTrue p condition body →
      R.rel (Scripting.loopWhile (Scripting.whileTest (evalExpr env fuel scope) p.line condition)
          (Scripting.runBlock (execStmt env fuel scope) body) fuel)
        (Scripting.loopWhile (Scripting.whileTest
            (evalExpr { env with natives := natives } fuel' scope) p.line condition)
          (Scripting.runBlock (execStmt { env with natives := natives } fuel' scope) body) fuel'))
    (ht : ∀ p body handlers otherwise always, s = .attempt p body handlers otherwise always →
      R.rel (attempt (Scripting.runBlock (execStmt env fuel scope)) scope body handlers otherwise
          always)
        (attempt (Scripting.runBlock (execStmt { env with natives := natives } fuel' scope)) scope
          body handlers otherwise always))
    (hr : ∀ p, s = .raise p none → R.rel (Scripting.raiseFault (evalExpr env fuel scope) p.line none)
      (Scripting.raiseFault (evalExpr { env with natives := natives } fuel' scope) p.line none))
    (hn : ∀ (c : Closure) (p : Position) (name : String) (params : List Param) (body : List Stmt),
      s = .define p name params body → c.body = body → R.Fits (Run.newFunction (.script c)))
    (hcheck : R.Fits (checkpoint s.pos.line s.moments))
    (hw : ∀ {β : Type} {line : Nat} {act : Run β}, s.Work env line act →
      R.Fits (Run.atLine line act)) :
    R.rel (execStmt env (fuel + 1) scope s)
      (execStmt { env with natives := natives } (fuel' + 1) scope s) := by
  rw [execStmt.eq_def, execStmt.eq_def]
  refine R.andThen hcheck fun _ => ?_
  cases s with
  | assign p target value =>
    refine R.andThen (he value (.head _)) fun v => R.andThen ?_ fun _ => R.pure _
    exact R.assignTarget (fun c k v => hw (.store p target value c k v))
      (fun v n => hw (.unpack p target value v n)) fun e h => he e (.tail _ h)
  | augment p op target value =>
    refine R.augment he ?_ (fun c k => hw (.fetch p op target value c k))
      (fun a b => hw (.operate p op target value a b))
      (fun c k v => hw (.update p op target value c k v)) ?_
    · rintro name rfl
      exact hw (.read p op name value scope)
    · rintro targets rfl
      exact hw (.group p op targets value)
  | branch p branches otherwise =>
    refine R.runBranches (fun body h => hb scope body ?_) fun b h => ⟨he _ ?_, hb scope _ ?_⟩
    · rw [h]
      simp [Stmt.runs, Stmt.blocks]
    · exact List.mem_map.2 ⟨b, h, rfl⟩
    · exact List.mem_append_left _ (List.mem_map.2 ⟨b, h, rfl⟩)
  | forEach p target iterable body =>
    exact R.runFor (he iterable (.head _)) (fun inner => hb inner body (.head _))
      hcheck (fun v => hw (.iterate p target iterable body v))
      fun inner item => hw (.target p target iterable body inner item)
  | whileTrue p condition body => exact hloop p condition body rfl
  | define p name params body =>
    exact R.runDefine he fun c hc => hn c p name params body rfl hc
  | giveBack p value => exact R.runGiveBack he
  | importModule p name => exact R.andThen (hw (.importing p name)) fun _ => R.pure _
  | attempt p body handlers otherwise always => exact ht p body handlers otherwise always rfl
  | raise p value =>
    cases value with
    | none => exact hr p rfl
    | some e => exact R.raiseFault (he e (.head _)) fun message => hw (.raise p e message)
  | pass | breakLoop | continueLoop => exact R.pure _
  | expr e => exact R.andThen (he e (.head _)) fun _ => R.pure _

theorem runProgram : ∀ {program : Program},
    (∀ s ∈ program, R.rel (execStmt env fuel env.globals s)
      (execStmt { env with natives := natives } fuel' env.globals s)) →
    (∀ e, Stmt.expr e ∈ program → R.Fits (checkpoint e.pos.line) ∧
      R.rel (evalExpr env fuel env.globals e)
        (evalExpr { env with natives := natives } fuel' env.globals e)) →
    R.rel (runProgram env fuel program)
      (runProgram { env with natives := natives } fuel' program)
  | [], _, _ => R.pure _
  | s :: rest, hs, he => by
    have ih : R.rel (Scripting.runProgram env fuel rest)
        (Scripting.runProgram { env with natives := natives } fuel' rest) :=
      runProgram (fun t ht => hs t (List.mem_cons_of_mem s ht))
        fun e h => he e (List.mem_cons_of_mem s h)
    unfold Scripting.runProgram
    split
    · exact R.pure _
    next e heq =>
      cases heq
      obtain ⟨hcheck, heval⟩ := he e (.head _)
      exact R.andThen hcheck fun _ => heval
    next heq =>
      cases heq
      exact R.andThen (hs s (.head _)) fun _ => ih

end Pairing

theorem Discipline.runProgram (D : Discipline) {env : Environment} {fuel : Nat} {program : Program}
    (hs : ∀ s ∈ program, D.holds (execStmt env fuel env.globals s))
    (he : ∀ e, Stmt.expr e ∈ program →
      D.holds (checkpoint e.pos.line) ∧ D.holds (evalExpr env fuel env.globals e)) :
    D.holds (runProgram env fuel program) := by
  have hpair : D.pairing.Fits (Scripting.runProgram env fuel program) := D.pairing.runProgram hs he
  exact hpair

namespace Modality

variable (M : Modality)

theorem evalExpr_succ {env : Environment} {fuel : Nat} {e : Expr}
    (he : ∀ scope part, sizeOf part < sizeOf e → M.holds (evalExpr env fuel scope part))
    (hc : ∀ f vs ks line, vs.length < sizeOf e → M.holds (callValue env fuel f vs ks line))
    (hn : ∀ (c : Closure) (p : Position) (value : Expr), c.body = [.giveBack p (some value)] →
      sizeOf c.body ≤ sizeOf e + 2 → M.holds (Run.newFunction (.script c))) :
    M.holds (evalExpr env (fuel + 1) scope e) := by
  suffices h : M.pairing.Fits (evalExpr env (fuel + 1) scope e) from h
  refine M.pairing.evalExpr_succ (fun inner part hpart => he inner part (Expr.sizeOf_part_lt hpart))
    (fun _ f vs ks hvs => hc f vs ks _ hvs) ?_ (fun _ => M.checkpoint _ _)
    fun hact => M.atLine (M.steady hact.steady)
  rintro c p params value rfl hbody
  refine hn c p value hbody ?_
  rw [hbody, List.cons.sizeOf_spec, Stmt.giveBack.sizeOf_spec, Option.some.sizeOf_spec,
    List.nil.sizeOf_spec, Expr.lambda.sizeOf_spec]
  have := length_lt_sizeOf params
  omega

theorem execStmt_succ {env : Environment} {fuel : Nat} {s : Stmt}
    (he : ∀ scope e, sizeOf e < sizeOf s → M.holds (evalExpr env fuel scope e))
    (hb : ∀ scope, ∀ body ∈ s.blocks, M.holds (Scripting.runBlock (execStmt env fuel scope) body))
    (hw : ∀ p condition body, s = .whileTrue p condition body →
      M.holds (Scripting.loopWhile (Scripting.whileTest (evalExpr env fuel scope) p.line condition)
        (Scripting.runBlock (execStmt env fuel scope) body) fuel))
    (ht : ∀ p body handlers otherwise always, s = .attempt p body handlers otherwise always →
      M.holds (attempt (Scripting.runBlock (execStmt env fuel scope)) scope body handlers otherwise
        always))
    (hn : ∀ c : Closure, c.body ∈ s.blocks → M.holds (Run.newFunction (.script c))) :
    M.holds (execStmt env (fuel + 1) scope s) := by
  suffices h : M.pairing.Fits (execStmt env (fuel + 1) scope s) from h
  refine M.pairing.execStmt_succ (fun e h => he scope e (Stmt.sizeOf_expr_lt h))
    (fun inner body h => hb inner body (Stmt.mem_blocks_of_runs h)) hw ht
    (fun p _ => ?_) ?_ (M.checkpoint _ _) fun hact => M.atLine (M.steady hact.steady)
  · refine M.andThen (M.view _) fun handling => ?_
    split
    · exact M.fail _
    · exact M.fail _
  · rintro c p name params body rfl hbody
    exact hn c (hbody ▸ .head _)

theorem runBody {block : ScopeRef → List Stmt → Run Flow} {closure : Closure}
    {args : List Value} {keywords : Keywords} {line : Nat}
    (h : ∀ scope, M.holds (oneDeeper (block scope closure.body))) :
    M.holds (runBody block closure args keywords line) := by
  refine M.andThen (M.atLine (M.ofExcept _)) fun values => ?_
  refine M.andThen (M.steady (.of (.allocate fun x => .newCallFrame x closure values))) fun frame => ?_
  refine M.andThen (h frame) fun flow => ?_
  split
  · exact M.pure _
  · exact M.pure _

theorem callValue_succ (env : Environment) (fuel : Nat) (f : Value) (args : List Value)
    (keywords : Keywords) (line : Nat) (w : World) :
    callValue env (fuel + 1) f args keywords line w =
      match w.heap.asFunction f with
      | .error e => .fault (e.atLine line) w
      | .ok (.host g) => Run.atLine line (g.invoke env.natives
          (fun g args => callValue env fuel g args .empty 0) args keywords env.codec) w
      | .ok (.script closure) => enterCall (fun inner => Scripting.runBlock (execStmt env fuel inner))
          env.maxDepth closure args keywords line w := by
  rw [callValue.eq_def]
  change Run.bind (Run.atLine line (Run.inspect _)) _ w = _
  dsimp only [Run.bind, Run.atLine, Run.inspect]
  cases w.heap.asFunction f with
  | error e => rfl
  | ok callable => cases callable <;> rfl

/-- A modality that stays when a fault is caught. -/
structure Catches : Prop where
  attempt : ∀ {α : Type} {act : Run α}, M.holds act → M.holds (Run.attempt act)
  handling : ∀ {α : Type} {f : Fault} {act : Run α}, M.holds act → M.holds (whileHandling f act)

theorem handleFault {block : List Stmt → Run Flow} {scope : ScopeRef} {handlers : List Handler}
    {f : Fault} (hh : ∀ k ∈ handlers, M.holds (whileHandling f (block k.body))) :
    M.holds (handleFault block scope handlers f) := by
  have hpair : M.pairing.Fits (Scripting.handleFault block scope handlers f) :=
    M.pairing.handleFault (M.fail f) hh
  exact hpair

theorem attempt_of_catches (C : M.Catches) {block : List Stmt → Run Flow}
    {p : Position} {body : List Stmt} {handlers : List Handler} {otherwise always : Option (List Stmt)}
    (hb : ∀ b ∈ (Stmt.attempt p body handlers otherwise always).blocks, M.holds (block b)) :
    M.holds (attempt block scope body handlers otherwise always) := by
  have hcatches : M.pairing.Catches := ⟨fun f => M.fail f, fun h => C.attempt h, fun h => C.handling h⟩
  have hpair : M.pairing.Fits (Scripting.attempt block scope body handlers otherwise always) :=
    M.pairing.attempt_of_catches hcatches hb
  exact hpair

/-! ### The whole evaluator -/

/-- What makes a modality hold of every evaluation: it holds of a run whose budget is
used up, of what calls and attempts do, and of the functions of the embedding program
if it holds of the calls that they make. -/
structure Everywhere (env : Environment) : Prop where
  exhausted : ∀ {α : Type}, M.holds (Run.exhausted : Run α)
  newFunction : ∀ c : Closure, M.holds (Run.newFunction (.script c))
  oneDeeper : ∀ {α : Type} {act : Run α}, M.holds act → M.holds (oneDeeper act)
  refuseCall : ∀ {α : Type} (maxDepth depth : Nat) (function : String) (line : Nat),
    M.holds (refuseCall maxDepth depth function line : Run α)
  attempt : ∀ {fuel : Nat} {scope : ScopeRef} (p : Position) (body : List Stmt)
    (handlers : List Handler) (otherwise always : Option (List Stmt)),
    (∀ b ∈ (Stmt.attempt p body handlers otherwise always).blocks,
      M.holds (Scripting.runBlock (execStmt env fuel scope) b)) →
    M.holds (Scripting.attempt (Scripting.runBlock (execStmt env fuel scope)) scope body handlers
      otherwise always)
  natives : ∀ (code : String) {call : Caller} (args : List Value) (keywords : Keywords),
    (∀ f passed, M.holds (call f passed)) → M.holds (env.natives code call args keywords)

namespace Everywhere

variable {M} {env : Environment} (E : M.Everywhere env)
include E

theorem callValue_succ {fuel : Nat} (hcall : ∀ f args, M.holds (callValue env fuel f args .empty 0))
    (hblock : ∀ scope body, M.holds (Scripting.runBlock (execStmt env fuel scope) body)) (f : Value)
    (args : List Value) (keywords : Keywords) (line : Nat) :
    M.holds (callValue env (fuel + 1) f args keywords line) := by
  rw [callValue.eq_def]
  refine M.andThen (M.atLine (M.inspect _)) fun callable => ?_
  cases callable with
  | host g =>
    refine M.atLine (M.invoke (fun f passed _ => hcall f passed) (fun hact => M.steady hact.orderly.steady)
      fun code _ => ?_)
    exact E.natives code args keywords hcall
  | script closure =>
    refine M.andThen (M.view _) fun depth => ?_
    split
    · exact E.refuseCall _ _ _ _
    · exact M.runBody fun scope => E.oneDeeper (hblock scope closure.body)

/-- The modality holds of all evaluations. The induction is on the budget. -/
theorem evaluator : ∀ fuel : Nat, (∀ scope e, M.holds (evalExpr env fuel scope e)) ∧
    (∀ scope s, M.holds (execStmt env fuel scope s)) ∧
    (∀ f args keywords line, M.holds (callValue env fuel f args keywords line))
  | 0 => by
    refine ⟨fun scope e => ?_, fun scope s => ?_, fun f args keywords line => ?_⟩
    · rw [evalExpr.eq_def]
      exact E.exhausted
    · rw [execStmt.eq_def]
      exact E.exhausted
    · rw [callValue.eq_def]
      exact E.exhausted
  | fuel + 1 => by
    obtain ⟨heval, hexec, hcall⟩ := evaluator fuel
    have hblock (scope : ScopeRef) (body : List Stmt) :
        M.holds (Scripting.runBlock (execStmt env fuel scope) body) :=
      M.runBlock fun t _ => hexec scope t
    refine ⟨fun scope e => ?_, fun scope s => ?_, fun f args keywords line => ?_⟩
    · exact M.evalExpr_succ (fun inner part _ => heval inner part)
        (fun f vs ks line _ => hcall f vs ks line) fun c _ _ _ _ => E.newFunction c
    · refine M.execStmt_succ (fun inner e _ => heval inner e) (fun inner b _ => hblock inner b)
        (fun p condition b _ => ?_) (fun p b handlers otherwise always _ => ?_)
        fun c _ => E.newFunction c
      · exact M.loopWhile E.exhausted (M.whileTest (M.checkpoint _ _) (heval scope condition)) (hblock scope b) fuel
      · exact E.attempt p b handlers otherwise always fun b _ => hblock scope b
    · exact E.callValue_succ (fun f args => hcall f args .empty 0) hblock f args keywords line

theorem program (fuel : Nat) (program : Program) : M.holds (Scripting.runProgram env fuel program) :=
  M.runProgram (fun s _ => (E.evaluator fuel).2.1 _ s) fun e _ =>
    ⟨M.checkpoint _ _, (E.evaluator fuel).1 _ e⟩

end Everywhere

end Modality

end Scripting
