/-
# Two evaluations side by side

A comparison is a relation between runs that holds of a balanced run and itself, and that
the evaluator's ways of putting runs together keep, those that look at a fault included. It
is a pairing (`Comparison.pairing`).

Two evaluators run in lockstep if they have the same names and libraries and the same
limit on calls, while the budget of the second may be larger by some steps and its host
functions may differ in a way that the comparison does not see
(`Comparison.Lockstep.evaluator`).
-/
import Scripting.Proofs.Run.Balance

namespace Scripting

open Classical in
/-- Going on with some of the values only. -/
noncomputable def Run.goingOn {α β : Type} (given : α → Prop) (next : α → Run β) (a : α) : Run β :=
  if given a then next a else Run.exhausted

/-- What comes after a run matters only for the values that the run can give back. -/
theorem Run.bind_congr {α β : Type} {act : Run α} {next next' : α → Run β}
    (h : ∀ a, act.MayGive a → next a = next' a) : act >>= next = act >>= next' := by
  funext w
  change Run.bind act next w = Run.bind act next' w
  unfold Run.bind
  cases hact : act w with
  | ok a w' => exact congrFun (h a ⟨w, w', hact⟩) w'
  | fault f w' => rfl
  | exhausted => rfl

/-- A relation between runs that the evaluator's ways of putting runs together keep. -/
structure Comparison where
  rel : {α : Type} → Run α → Run α → Prop
  balanced : ∀ {α : Type} {act : Run α}, act.Balanced → rel act act
  bind : ∀ {α β : Type} {act act' : Run α} {next next' : α → Run β}, rel act act' →
    (∀ a, rel (next a) (next' a)) → rel (act >>= next) (act' >>= next')
  atLine : ∀ {α : Type} {line : Nat} {act act' : Run α}, rel act act' →
    rel (Run.atLine line act) (Run.atLine line act')
  attempt : ∀ {α : Type} {act act' : Run α}, rel act act' →
    rel (Run.attempt act) (Run.attempt act')
  handling : ∀ {α : Type} {f : Fault} {act act' : Run α}, rel act act' →
    rel (whileHandling f act) (whileHandling f act')

namespace Comparison

variable (C : Comparison) {α : Type}

theorem steady {act : Run α} (h : act.Steady) : C.rel act act := C.balanced h.balanced

/-- Of a comparison too only the values matter that one of the first runs can give back. -/
theorem bind_of_mayGive {β : Type} {act act' : Run α} {next next' : α → Run β}
    (ha : C.rel act act') (hn : ∀ a, act.MayGive a ∨ act'.MayGive a → C.rel (next a) (next' a)) :
    C.rel (act >>= next) (act' >>= next') := by
  let given : α → Prop := fun a => act.MayGive a ∨ act'.MayGive a
  have hact : act >>= next = act >>= Run.goingOn given next :=
    Run.bind_congr fun a h => (if_pos (.inl h)).symm
  have hact' : act' >>= next' = act' >>= Run.goingOn given next' :=
    Run.bind_congr fun a h => (if_pos (.inr h)).symm
  rw [hact, hact']
  refine C.bind ha fun a => ?_
  unfold Run.goingOn
  split
  next h => exact hn a h
  · exact C.balanced fun _ => trivial

def pairing : Pairing where
  rel := C.rel
  quiet h := C.steady h.steady
  bind := C.bind_of_mayGive

theorem pure (a : α) : C.rel (Pure.pure a) (Pure.pure a) := C.steady (.of (.pure a))

theorem view (f : World → α) : C.rel (Run.view f) (Run.view f) := C.steady (.of (.view f))

theorem fail (f : Fault) : C.rel (Run.fail f : Run α) (Run.fail f) := C.steady (.of (.fail trivial))

theorem inspectAt (line : Nat) (f : Heap → Except Fault α) :
    C.rel (Run.atLine line (Run.inspect f)) (Run.atLine line (Run.inspect f)) :=
  C.steady (.of (.atLine (fun _ => id) (.inspect fun _ _ _ => trivial)))

theorem checkpoint (line moments : Nat) :
    C.rel (checkpoint line moments) (Scripting.checkpoint line moments) :=
  C.balanced (balancing.checkpoint line moments)

theorem newFunction (c : Closure) :
    C.rel (Run.newFunction (.script c)) (Run.newFunction (.script c)) :=
  C.balanced fun _ => ⟨rfl, rfl⟩

theorem alike {call call' : Caller} (hc : ∀ f passed, C.rel (call f passed) (call' f passed))
    {act act' : Run α} (h : Alike call call' act act') : C.rel act act' := by
  induction h with
  | work h => exact C.balanced h
  | call f args => exact hc f args
  | bind _ _ iha ihn => exact C.bind iha ihn
  | attempt _ iha => exact C.attempt iha

/-! ### The evaluators -/

/-- What makes two evaluators run in lockstep: the first may end where its budget is used
up while the second has some steps more, calls are related if the bodies of functions are,
and so are the functions of the embedding program if the calls that they make are. -/
structure Lockstep (env : Environment) (natives : String → HostBody) (more : Nat) : Prop where
  exhausted : ∀ {α : Type} {act : Run α}, (more = 0 → act = Run.exhausted) → C.rel Run.exhausted act
  enterCall : ∀ {block block' : ScopeRef → List Stmt → Run Flow} (c : Closure) (args : List Value)
    (keywords : Keywords) (line : Nat),
    (∀ scope, C.rel (block scope c.body) (block' scope c.body)) →
    C.rel (enterCall block env.maxDepth c args keywords line)
      (Scripting.enterCall block' env.maxDepth c args keywords line)
  natives : ∀ (code : String) {call call' : Caller} (args : List Value) (keywords : Keywords),
    (∀ f passed, C.rel (call f passed) (call' f passed)) →
    C.rel (env.natives code call args keywords) (natives code call' args keywords)

namespace Lockstep

variable {C} {env : Environment} {natives : String → HostBody} {more : Nat}
  (L : C.Lockstep env natives more)
include L

section Step

variable {fuel fuel' : Nat}
  (he : ∀ scope e, C.rel (evalExpr env fuel scope e)
    (evalExpr { env with natives := natives } fuel' scope e))
  (hs : ∀ scope s, C.rel (execStmt env fuel scope s)
    (execStmt { env with natives := natives } fuel' scope s))
  (hc : ∀ f vs ks line, C.rel (callValue env fuel f vs ks line)
    (callValue { env with natives := natives } fuel' f vs ks line))

omit L in
include he hc in
theorem evalExpr_succ (scope : ScopeRef) (e : Expr) : C.rel (evalExpr env (fuel + 1) scope e)
    (evalExpr { env with natives := natives } (fuel' + 1) scope e) :=
  C.pairing.evalExpr_succ (fun inner part _ => he inner part) (fun _ f vs ks _ => hc f vs ks _)
    (fun c _ _ _ _ _ => C.newFunction c) (fun _ => C.checkpoint _ _)
    fun hact => C.steady (.atLine hact.steady)

include he hs in
theorem execStmt_succ (hmore : fuel' = fuel + more) (scope : ScopeRef) (s : Stmt) :
    C.rel (execStmt env (fuel + 1) scope s)
      (execStmt { env with natives := natives } (fuel' + 1) scope s) := by
  have hblock (inner : ScopeRef) (body : List Stmt) :
      C.rel (runBlock (execStmt env fuel inner) body)
        (runBlock (execStmt { env with natives := natives } fuel' inner) body) :=
    C.pairing.runBlock fun t _ => hs inner t
  refine C.pairing.execStmt_succ (fun e _ => he scope e) (fun inner body _ => hblock inner body)
    (fun p condition body _ => ?_) (fun p body handlers otherwise always _ => ?_) (fun p _ => ?_)
    (fun c _ _ _ _ _ _ => C.newFunction c) (C.checkpoint _ _) fun hact => C.steady (.atLine hact.steady)
  · rw [hmore] at he hblock ⊢
    exact C.pairing.loopWhile (L.exhausted fun h => by rw [h]; rfl)
      (C.pairing.whileTest (C.checkpoint _ _) (he scope condition)) (hblock scope body) fuel
  · exact C.pairing.attempt_of_catches (p := p) ⟨C.fail, C.attempt, C.handling⟩ fun b _ => hblock scope b
  refine C.bind (C.view _) fun handling => ?_
  split
  · exact C.fail _
  · exact C.fail _

include hs hc in
theorem callValue_succ (f : Value) (args : List Value) (keywords : Keywords) (line : Nat) :
    C.rel (callValue env (fuel + 1) f args keywords line)
      (callValue { env with natives := natives } (fuel' + 1) f args keywords line) := by
  rw [callValue.eq_def, callValue.eq_def]
  refine C.bind (C.inspectAt line _) fun callable => ?_
  cases callable with
  | host g =>
    have hback (f : Value) (passed : List Value) := hc f passed .empty 0
    exact C.atLine (C.pairing.invoke (fun f passed _ => hback f passed)
      (fun hact => C.steady hact.orderly.steady) fun code _ => L.natives code args keywords hback)
  | script closure =>
    exact L.enterCall closure args keywords line fun inner =>
      C.pairing.runBlock fun t _ => hs inner t

end Step

/-- The two evaluators run in lockstep. The induction is on the budget of the first. -/
theorem evaluator : ∀ fuel : Nat,
    (∀ scope e, C.rel (evalExpr env fuel scope e)
      (evalExpr { env with natives := natives } (fuel + more) scope e)) ∧
    (∀ scope s, C.rel (execStmt env fuel scope s)
      (execStmt { env with natives := natives } (fuel + more) scope s)) ∧
    (∀ f args keywords line, C.rel (callValue env fuel f args keywords line)
      (callValue { env with natives := natives } (fuel + more) f args keywords line))
  | 0 => by
    refine ⟨fun scope e => ?_, fun scope s => ?_, fun f args keywords line => ?_⟩
    · rw [evalExpr.eq_def]
      exact L.exhausted fun h => by rw [h, evalExpr.eq_def]
    · rw [execStmt.eq_def]
      exact L.exhausted fun h => by rw [h, execStmt.eq_def]
    · rw [callValue.eq_def]
      exact L.exhausted fun h => by rw [h, callValue.eq_def]
  | fuel + 1 => by
    obtain ⟨he, hs, hc⟩ := evaluator fuel
    rw [Nat.add_right_comm]
    exact ⟨evalExpr_succ he hc, L.execStmt_succ he hs rfl, L.callValue_succ hs hc⟩

theorem program (fuel : Nat) (p : Program) : C.rel (runProgram env fuel p)
    (runProgram { env with natives := natives } (fuel + more) p) :=
  C.pairing.runProgram (fun s _ => (L.evaluator fuel).2.1 _ s) fun e _ =>
    ⟨C.checkpoint _ _, (L.evaluator fuel).1 _ e⟩

end Lockstep

end Comparison

end Scripting
