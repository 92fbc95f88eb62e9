/-
# Where a fault comes from

A fault is made somewhere and then passes through what encloses that place. Most faults are made
without a line. The first expression, statement or call on the way out that has a line attaches
it, and those around it pass the fault on as it is. Here this is told as rules, one for each place
where a fault can be made or passed on, and every fault of every evaluation keeps to them
(`Reporting.evaluator`).

The rules need to know what code there is. Every function on the heap comes from a source that was
parsed, as does everything that is run. A fault that is being handled was passed on by some
statement before.
-/
import Scripting.Proofs.Run.Keeping
import Scripting.Proofs.WellFormed

namespace Scripting

variable {c : Closure} {line : Nat} {body : List Stmt} {t : Stmt}

/-! ### Code that was parsed -/

/-- A statement that stands in a source that was parsed, with what encloses it there. -/
def Stmt.Parsed (n : Nesting) (s : Stmt) : Prop :=
  ∃ source program, parse source = .ok program ∧ s.Stands program n

/-- An expression that stands in a source that was parsed. -/
def Expr.Parsed (e : Expr) : Prop :=
  ∃ source program, parse source = .ok program ∧ e.Stands program

/-- A function whose body stands in a source that was parsed. -/
def Closure.Parsed (c : Closure) : Prop :=
  ∃ source program, parse source = .ok program ∧ ∀ t ∈ c.body, t.Stands program .function

namespace Expr.Parsed

variable {e : Expr}

theorem sound : e.Parsed → e.Sound 1
  | ⟨_, _, hparse, h⟩ => h.sound (parse_sound hparse)

theorem part (h : e.Parsed) {part : Expr} (hpart : part ∈ e.parts) : part.Parsed := by
  obtain ⟨source, program, hparse, h⟩ := h
  exact ⟨source, program, hparse, .part h hpart⟩

theorem lambda {p : Position} {params : List Param} {value : Expr}
    (h : (Expr.lambda p params value).Parsed) (hc : c.body = [.giveBack p (some value)]) :
    c.Parsed := by
  obtain ⟨source, program, hparse, h⟩ := h
  refine ⟨source, program, hparse, fun t ht => ?_⟩
  rw [hc] at ht
  cases List.mem_singleton.1 ht
  exact .lambda h

end Expr.Parsed

namespace Stmt.Parsed

variable {n : Nesting} {s : Stmt}

theorem sound : s.Parsed n → s.Sound 1 n
  | ⟨_, _, hparse, h⟩ => h.sound (parse_sound hparse)

theorem expr (h : s.Parsed n) {e : Expr} (he : e ∈ s.exprs) : e.Parsed := by
  obtain ⟨source, program, hparse, h⟩ := h
  exact ⟨source, program, hparse, .stmt h he⟩

theorem block (h : s.Parsed n) (hbody : body ∈ s.blocks) (ht : t ∈ body) :
    t.Parsed (s.inner n) := by
  obtain ⟨source, program, hparse, h⟩ := h
  exact ⟨source, program, hparse, .block h hbody ht⟩

theorem define {p : Position} {name : String} {params : List Param}
    (h : (Stmt.define p name params body).Parsed n) (hc : c.body = body) : c.Parsed := by
  obtain ⟨source, program, hparse, h⟩ := h
  exact ⟨source, program, hparse, fun t ht => .block h (.head _) (hc ▸ ht)⟩

end Stmt.Parsed

theorem Closure.Parsed.stmt (h : c.Parsed) (ht : t ∈ c.body) : t.Parsed .function := by
  obtain ⟨source, program, hparse, h⟩ := h
  exact ⟨source, program, hparse, h t ht⟩

/-! ### The rules

`own` says with which faults the functions of the embedding program fail by themselves. -/

section Rules

variable (env : Environment) (own : Fault → Prop)

mutual

/-- A fault that an expression can end with. -/
inductive Expr.Reports : Expr → Fault → Prop
  /-- Its own work fails, and the fault gets the line that goes with the work. -/
  | work {e : Expr} {line : Nat} {β : Type} {act : Run β} {w w' : World} {f : Fault}
      (h : e.Work env line act) (hf : act w = .fault f w') : Expr.Reports e (f.atLine line)
  /-- A comprehension is cancelled between two rounds. -/
  | stop {e : Expr} {t : CancelToken} {now : Nat} {f : Fault} (he : e.clause?.isSome = true)
      (hf : t.check now = .error f) : Expr.Reports e (f.atLine e.pos.line)
  /-- A fault of a part is passed on as it is. -/
  | part {e part : Expr} {f : Fault} (hpart : part ∈ e.parts) (h : Expr.Reports part f) :
      Expr.Reports e f
  /-- A call made on its line fails. -/
  | call {e : Expr} {f : Fault} (he : e.isCall = true) (h : CallReports e.pos.line f) :
      Expr.Reports e f

/-- A fault that a statement can end with. -/
inductive Stmt.Reports : Stmt → Fault → Prop
  /-- Its own work fails, and the fault gets the line of the statement. -/
  | work {s : Stmt} {line : Nat} {β : Type} {act : Run β} {w w' : World} {f : Fault}
      (h : s.Work env line act) (hf : act w = .fault f w') : Stmt.Reports s (f.atLine line)
  /-- It is cancelled, before it begins or between two rounds. -/
  | stop {s : Stmt} {t : CancelToken} {now : Nat} {f : Fault} (hf : t.check now = .error f) :
      Stmt.Reports s (f.atLine s.pos.line)
  /-- A fault of an expression is passed on as it is. -/
  | expr {s : Stmt} {e : Expr} {f : Fault} (he : e ∈ s.exprs) (h : Expr.Reports e f) :
      Stmt.Reports s f
  /-- A fault in a block is passed on as it is. -/
  | block {s t : Stmt} {body : List Stmt} {f : Fault} (hbody : body ∈ s.runs) (ht : t ∈ body)
      (h : Stmt.Reports t f) : Stmt.Reports s f
  /-- A fault that is being handled is raised again as it was. -/
  | again {p : Position} {n : Nesting} {t : Stmt} {f : Fault} (ht : t.Parsed n)
      (h : Stmt.Reports t f) : Stmt.Reports (.raise p none) f
  /-- There is no fault to raise again. -/
  | noneRaised (p : Position) :
      Stmt.Reports (.raise p none) ⟨.raised, p.line, "no active exception to re-raise"⟩

/-- A fault that a call made on a line can end with. -/
inductive CallReports : Nat → Fault → Prop
  /-- What is called is no function. -/
  | value {line : Nat} {h : Heap} {v : Value} {f : Fault} (hf : h.asFunction v = .error f) :
      CallReports line (f.atLine line)
  /-- The arguments do not fit the parameters. -/
  | arguments {line : Nat} {c : Closure} {args : List Value} {keywords : Keywords} {f : Fault}
      (hf : bindArguments c.name c.params args keywords = .error f) :
      CallReports line (f.atLine line)
  /-- The call nests too deep. -/
  | depth (line : Nat) : CallReports line (depthFault env.maxDepth line)
  /-- A fault in the body of the function is passed on as it is. -/
  | body {line : Nat} {c : Closure} {t : Stmt} {f : Fault} (hc : c.Parsed) (ht : t ∈ c.body)
      (h : Stmt.Reports t f) : CallReports line f
  /-- A host function fails, and the fault gets the line of the call. -/
  | host {line : Nat} {g : HostFunction} {f : Fault} (h : HostReports g.code f) :
      CallReports line (f.atLine line)

/-- A fault that a host function can end with. -/
inductive HostReports : HostCode → Fault → Prop
  /-- Its own work fails. -/
  | work {code : HostCode} {args : List Value} {keywords : Keywords} {β : Type} {act : Run β}
      {w w' : World} {f : Fault} (h : HostFunction.Work env.codec args keywords code act)
      (hf : act w = .fault f w') : HostReports code f
  /-- A function of the embedding program fails with a fault of its own. -/
  | native {code : String} {fuel : Nat} {args : List Value} {keywords : Keywords} {w w' : World}
      {f : Fault} (hown : own f)
      (hf : env.natives code (fun g passed => callValue env fuel g passed .empty 0) args keywords w =
        .fault f w') : HostReports (.native code) f
  /-- A fault of a function that it calls, on no line, is passed on as it is. -/
  | callback {code : HostCode} {f : Fault} (h : CallReports 0 f) : HostReports code f

end

end Rules

/-! ### Keeping to the rules -/

/-- What is asked of a function of the embedding program: it fails with faults of its own or
with those of the functions that it calls. It cannot reach what belongs to the evaluator, so
an invariant of that, which its calls keep, it keeps as well. -/
def HostBody.Keeps (own : Fault → Prop) (body : HostBody) : Prop :=
  ∀ (I : World → Prop) (P : Fault → Prop), (∀ w w', w.Intact w' → I w → I w') →
    (∀ f, own f → P f) → ∀ (call : Caller) (args : List Value) (keywords : Keywords),
      (∀ f passed w, I w → (call f passed w).Keeps I P) →
      ∀ w, I w → (body call args keywords w).Keeps I P

/-- All functions come from parsed sources, and all faults being handled from statements. -/
structure World.Accounted (env : Environment) (own : Fault → Prop) (w : World) : Prop where
  closures : ∀ c ∈ w.heap.closures, c.Parsed
  handling : ∀ f ∈ w.handling, ∃ n t, Stmt.Parsed n t ∧ t.Reports env own f

namespace World.Accounted

variable {env : Environment} {own : Fault → Prop} {w w' : World}

theorem intact (hw : w.Accounted env own) (h : w.Intact w') : w'.Accounted env own :=
  ⟨fun c hc => hw.closures c (h.heap.closures ▸ hc), fun f hf => hw.handling f (h.handling ▸ hf)⟩

theorem start (hclosures : ∀ c ∈ w.heap.closures, c.Parsed) (hhandling : w.handling = []) :
    w.Accounted env own := by
  refine ⟨hclosures, fun f hf => ?_⟩
  rw [hhandling] at hf
  cases hf

theorem quiet {α : Type} {act : Run α} {a : α} (h : act.Quiet) (hw : w.Accounted env own)
    (hact : act w = .ok a w') : w'.Accounted env own := by
  have hsteady := h.steady w
  rw [hact] at hsteady
  exact hw.intact hsteady.toIntact

theorem withControl (hw : w.Accounted env own) (depth : Nat) (warnings : List Warning) :
    World.Accounted env own { w with depth := depth, warnings := warnings } :=
  ⟨hw.closures, hw.handling⟩

end World.Accounted

/-- Beginning in an accounted world, a run ends in one, with a fault of some kind if with
any. -/
abbrev reporting (env : Environment) (own P : Fault → Prop) : Discipline :=
  keeping (I := World.Accounted env own) World.Accounted.quiet P

namespace Reporting

open Keeping (mono atLine exhausted)

variable {env : Environment} {own P Q : Fault → Prop} {α β : Type}

theorem steady {act : Run α} (hact : act.Steady) (hf : ∀ w f w', act w = .fault f w' → P f) :
    (reporting env own P).holds act := by
  intro w hw
  have h := hact w
  cases hrun : act w with
  | ok a w' => rw [hrun] at h; exact hw.intact h.toIntact
  | fault f w' => rw [hrun] at h; exact ⟨hw.intact h.toIntact, hf w f w' hrun⟩
  | exhausted => exact trivial

theorem steadyAtLine {act : Run α} (hact : act.Steady)
    (hf : ∀ w f w', act w = .fault f w' → P (f.atLine line)) :
    (reporting env own P).holds (Run.atLine line act) :=
  atLine (fun _ => id) (steady hact hf)

theorem checkpoint {moments : Nat}
    (h : ∀ (t : CancelToken) now f, t.check now = .error f → P (f.atLine line)) :
    (reporting env own P).holds (checkpoint line moments) := by
  intro w hw
  unfold Scripting.checkpoint
  split
  · exact ⟨hw.closures, hw.handling⟩
  next f hf => exact ⟨hw.withControl _ _, h w.token w.now f hf⟩

theorem newFunction (hc : c.Parsed) :
    (reporting env own P).holds (Run.newFunction (.script c)) := by
  intro w hw
  refine ⟨fun c' hc' => ?_, hw.handling⟩
  change c' ∈ (w.heap.newFunction (.script c)).2.closures at hc'
  rw [w.heap.closures_newFunction_script, List.mem_append, List.mem_singleton] at hc'
  rcases hc' with hc' | rfl
  · exact hw.closures c' hc'
  · exact hc

theorem reraise {eval : Expr → Run Value} (p : Position) :
    (reporting env own (Stmt.Reports env own (.raise p none))).holds
      (raiseFault eval p.line none) := by
  intro w hw
  unfold raiseFault
  dsimp only [bind, Run.bind, Run.view]
  cases hhead : w.handling.head? with
  | none => exact ⟨hw, .noneRaised p⟩
  | some f =>
    obtain ⟨n, t, ht, hf⟩ := hw.handling f (List.mem_of_mem_head? hhead)
    exact ⟨hw, .again ht hf⟩

/-! ### Calls -/

theorem enterCall {block : ScopeRef → List Stmt → Run Flow} {args : List Value}
    {keywords : Keywords}
    (hbody : ∀ scope, (reporting env own (CallReports env own line)).holds (block scope c.body)) :
    (reporting env own (CallReports env own line)).holds
      (enterCall block env.maxDepth c args keywords line) := by
  refine Keeping.enterCall (fun w depth hw => hw.withControl _ _)
    (fun depth w hw => ⟨hw.withControl _ _, .depth line⟩) ?_ hbody
  refine atLine (P := fun f => bindArguments c.name c.params args keywords = .error f)
    (fun f hf => .arguments hf) (steady (.of (.ofExcept fun _ _ => trivial)) fun w f w' hf => ?_)
  unfold Run.ofExcept at hf
  split at hf <;> cases hf
  assumption

theorem invoke (hnatives : ∀ code, (env.natives code).Keeps own) {fuel : Nat}
    (hback : ∀ g passed, (reporting env own (CallReports env own 0)).holds
      (callValue env fuel g passed .empty 0)) (g : HostFunction) (args : List Value)
    (keywords : Keywords) :
    (reporting env own (HostReports env own g.code)).holds
      (g.invoke env.natives (fun g passed => callValue env fuel g passed .empty 0) args keywords
        env.codec) := by
  refine (reporting env own _).invoke (fun f passed _ => mono (fun _ => .callback) (hback f passed))
    (fun hact => steady hact.orderly.steady fun w f w' hf => .work hact hf) fun code hcode w hw => ?_
  rw [hcode]
  -- A fault of a native function is its own, and this run shows it, or one of its callbacks.
  have hkeeps := hnatives code (World.Accounted env own) (fun f => own f ∨ CallReports env own 0 f)
    (fun w w' h hw => hw.intact h) (fun f => .inl) _ args keywords
    (fun f passed w hw => (hback f passed w hw).mono fun _ => .inr) w hw
  cases hrun : env.natives code (fun g passed => callValue env fuel g passed .empty 0) args keywords w with
  | ok v w' => rw [hrun] at hkeeps; exact hkeeps
  | fault f w' =>
    rw [hrun] at hkeeps
    exact ⟨hkeeps.1, hkeeps.2.elim (fun hown => .native hown hrun) .callback⟩
  | exhausted => exact trivial

theorem callValue_succ (hnatives : ∀ code, (env.natives code).Keeps own) {fuel : Nat}
    (hback : ∀ g passed, (reporting env own (CallReports env own 0)).holds
      (callValue env fuel g passed .empty 0))
    (hbody : ∀ scope (c : Closure), c.Parsed → ∀ t ∈ c.body,
      (reporting env own (t.Reports env own)).holds (execStmt env fuel scope t))
    (f : Value) (args : List Value) (keywords : Keywords) (line : Nat) :
    (reporting env own (CallReports env own line)).holds
      (callValue env (fuel + 1) f args keywords line) := by
  intro w hw
  rw [Modality.callValue_succ]
  cases hf : w.heap.asFunction f with
  | error e => exact ⟨hw, .value hf⟩
  | ok callable =>
    cases callable with
    | host g =>
      exact atLine (fun f hf => .host hf) (invoke hnatives hback g args keywords) w hw
    | script c =>
      have hc : c.Parsed := hw.closures c (Heap.mem_closures_of_asFunction hf)
      refine enterCall (fun scope => (reporting env own _).runBlock fun t ht => ?_) w hw
      exact mono (fun _ => .body hc ht) (hbody scope c hc t ht)

/-! ### Expressions and statements -/

theorem evalExpr_succ {fuel : Nat} {scope : ScopeRef} {e : Expr} (he : e.Parsed)
    (hpart : ∀ scope part, part.Parsed →
      (reporting env own (part.Reports env own)).holds (evalExpr env fuel scope part))
    (hcall : ∀ f args keywords line, (reporting env own (CallReports env own line)).holds
      (callValue env fuel f args keywords line)) :
    (reporting env own (e.Reports env own)).holds (evalExpr env (fuel + 1) scope e) := by
  suffices h : (reporting env own (e.Reports env own)).pairing.Fits (evalExpr env (fuel + 1) scope e)
    from h
  refine Pairing.evalExpr_succ _ (fun inner part hp => ?_) (fun hcalls f vs ks _ => ?_) ?_
    (fun hclause => ?_) fun hact => ?_
  · exact mono (fun _ => .part hp) (hpart inner part (he.part hp))
  · exact mono (fun _ => .call hcalls) (hcall f vs ks e.pos.line)
  · rintro c p params value rfl hbody
    exact newFunction (he.lambda hbody)
  · exact checkpoint fun t now f hf => .stop hclause hf
  · exact steadyAtLine hact.steady fun w f w' hf => .work hact hf

theorem execStmt_succ {fuel : Nat} {scope : ScopeRef} {n : Nesting} {s : Stmt} (hs : s.Parsed n)
    (heval : ∀ scope e, e.Parsed →
      (reporting env own (e.Reports env own)).holds (evalExpr env fuel scope e))
    (hexec : ∀ scope n t, Stmt.Parsed n t →
      (reporting env own (t.Reports env own)).holds (execStmt env fuel scope t)) :
    (reporting env own (s.Reports env own)).holds (execStmt env (fuel + 1) scope s) := by
  have hexpr (e : Expr) (he : e ∈ s.exprs) :
      (reporting env own (s.Reports env own)).holds (evalExpr env fuel scope e) :=
    mono (fun _ => .expr he) (heval scope e (hs.expr he))
  have hblock (inner : ScopeRef) (body : List Stmt) (hbody : body ∈ s.runs) :
      (reporting env own (s.Reports env own)).holds (runBlock (execStmt env fuel inner) body) :=
    (reporting env own _).runBlock fun t ht => mono (fun _ => .block hbody ht)
      (hexec inner _ t (hs.block (Stmt.mem_blocks_of_runs hbody) ht))
  have hcheck : (reporting env own (s.Reports env own)).holds (Scripting.checkpoint s.pos.line s.moments) :=
    checkpoint fun t now f hf => .stop hf
  suffices h : (reporting env own (s.Reports env own)).pairing.Fits (execStmt env (fuel + 1) scope s)
    from h
  refine Pairing.execStmt_succ _ hexpr hblock ?_ ?_ ?_ ?_ hcheck fun hact => ?_
  · rintro p condition body rfl
    exact (reporting env own _).loopWhile exhausted
      ((reporting env own _).whileTest hcheck (hexpr condition (.head _)))
      (hblock scope body (.head _)) fuel
  · rintro p body handlers otherwise always rfl
    exact Keeping.attemptBlocks
      (fun f w hf hw => ⟨hw.closures, List.forall_mem_cons.2 ⟨⟨n, _, hs, hf⟩, hw.handling⟩⟩)
      (fun w hw => ⟨hw.closures, fun g hg => hw.handling g (List.mem_of_mem_tail hg)⟩) (hblock scope)
  · rintro p rfl
    exact reraise p
  · rintro c p name params body rfl hbody
    exact newFunction (hs.define hbody)
  · exact steadyAtLine hact.steady fun w f w' hf => .work hact hf

/-- All evaluations of parsed code keep to the rules. The induction is on the budget. -/
theorem evaluator (hnatives : ∀ code, (env.natives code).Keeps own) : ∀ fuel : Nat,
    (∀ scope e, e.Parsed →
      (reporting env own (e.Reports env own)).holds (evalExpr env fuel scope e)) ∧
    (∀ scope n s, Stmt.Parsed n s →
      (reporting env own (s.Reports env own)).holds (execStmt env fuel scope s)) ∧
    (∀ f args keywords line, (reporting env own (CallReports env own line)).holds
      (callValue env fuel f args keywords line))
  | 0 => by
    refine ⟨fun scope e _ => ?_, fun scope n s _ => ?_, fun f args keywords line => ?_⟩
    · rw [evalExpr.eq_def]
      exact exhausted
    · rw [execStmt.eq_def]
      exact exhausted
    · rw [callValue.eq_def]
      exact exhausted
  | fuel + 1 => by
    obtain ⟨heval, hexec, hcall⟩ := evaluator hnatives fuel
    refine ⟨fun scope e he => ?_, fun scope n s hs => ?_, fun f args keywords line => ?_⟩
    · exact evalExpr_succ he heval hcall
    · exact execStmt_succ hs heval hexec
    · exact callValue_succ hnatives (fun g passed => hcall g passed .empty 0)
        (fun scope c hc t ht => hexec scope _ t (hc.stmt ht)) f args keywords line

/-- Every fault of a script that was parsed comes from one of its statements. -/
theorem program (hnatives : ∀ code, (env.natives code).Keeps own) {source : String}
    {program : Program} (hparse : parse source = .ok program) (fuel : Nat) :
    (reporting env own fun f => ∃ t ∈ program, t.Reports env own f).holds
      (runProgram env fuel program) := by
  obtain ⟨heval, hexec, -⟩ := evaluator hnatives fuel
  have htop {t : Stmt} (ht : t ∈ program) : t.Parsed .top := ⟨source, program, hparse, .top ht⟩
  refine (reporting env own _).runProgram (fun t ht => ?_) fun e he => ⟨?_, ?_⟩
  · exact mono (fun f hf => ⟨t, ht, hf⟩) (hexec _ _ t (htop ht))
  · exact checkpoint fun t now f hf => ⟨_, he, .stop (s := .expr e) hf⟩
  · have hmem : e ∈ (Stmt.expr e).exprs := .head _
    exact mono (fun f hf => ⟨_, he, .expr hmem hf⟩) (heval _ e ((htop he).expr hmem))

/-- An evaluation of a session whose functions come from parsed sources leaves such a session
behind, and its fault comes from a statement of the script. -/
theorem eval (s : Session) (hnatives : ∀ code, (s.env.natives code).Keeps own)
    (hclosures : ∀ c ∈ s.world.heap.closures, c.Parsed) (token : CancelToken) (source : String) :
    (∀ c ∈ (s.eval token source).2.world.heap.closures, c.Parsed) ∧
    ∀ f, (s.eval token source).1 = .error (.fault f) →
      ∃ program, parse source = .ok program ∧ ∃ t ∈ program, t.Reports s.env own f := by
  unfold Session.eval
  split
  next errors _ => exact ⟨hclosures, fun f hf => nomatch hf⟩
  next program hparse =>
    have hkeeps := Reporting.program hnatives hparse stepBudget
      { s.world with token := token, depth := 0, handling := [] } (.start hclosures rfl)
    unfold Session.run
    cases hrun : runProgram s.env stepBudget program
        { s.world with token := token, depth := 0, handling := [] } with
    | ok v w =>
      rw [hrun] at hkeeps
      exact ⟨World.Accounted.closures hkeeps, fun f hf => nomatch hf⟩
    | fault g w =>
      rw [hrun] at hkeeps
      refine ⟨hkeeps.1.closures, fun f hf => ?_⟩
      cases hf
      exact ⟨program, hparse, hkeeps.2⟩
    | exhausted => exact ⟨hclosures, fun f hf => nomatch hf⟩

end Reporting

end Scripting
