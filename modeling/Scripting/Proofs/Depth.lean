/-
# The limit on call depth

No run gets above the limit on call depth. The depth is raised in one place, where the
body of a function is run, and there it has been compared with the limit
(`enterCall_congr`): what a body would do above the limit does not matter to any call. So
it does not matter to a run within the limit what a host function would do if it were
called above it (`evaluator_watched`). All other parts of an evaluation leave the depth as
they found it, and the faults being handled, too.

A call of a function written in the language is refused at the limit and nowhere else. It
is refused before its arguments are bound, so whatever they are
(`enterCall_refused_iff`).
-/
import Scripting.Proofs.Run.Comparison

namespace Scripting

/-! ### Bodies of functions -/

/-- A run that does something else above some call depth. -/
def Run.within {α : Type} (limit : Nat) (act alarm : Run α) : Run α := fun w =>
  if w.depth ≤ limit then act w else alarm w

section Calls

variable {limit : Nat} {block block' : ScopeRef → List Stmt → Run Flow} {closure : Closure}

theorem enterCall_congr (args : List Value) (keywords : Keywords) (line : Nat)
    (h : ∀ scope (w : World), w.depth ≤ limit →
      block' scope closure.body w = block scope closure.body w) :
    enterCall block' limit closure args keywords line =
      enterCall block limit closure args keywords line := by
  funext w
  change (if limit ≤ w.depth then refuseCall limit w.depth closure.name line
      else runBody block' closure args keywords line : Run Value) w =
    (if limit ≤ w.depth then refuseCall limit w.depth closure.name line
      else runBody block closure args keywords line : Run Value) w
  split
  · rfl
  next hlimit =>
    dsimp only [runBody, bind, Run.bind, Run.atLine, Run.ofExcept, Run.allocate]
    cases bindArguments closure.name closure.params args keywords with
    | error f => rfl
    | ok values =>
      dsimp only [oneDeeper]
      rw [h _ _ (by dsimp only; omega)]

theorem enterCall_balanced (args : List Value) (keywords : Keywords) (line : Nat)
    (h : ∀ scope, (block scope closure.body).Balanced) :
    (enterCall block limit closure args keywords line).Balanced := by
  refine balancing.andThen (balancing.view _) fun depth => ?_
  split
  · exact fun w => ⟨rfl, rfl⟩
  · exact balancing.runBody fun scope => (h scope).oneDeeper

/-- A call fails by itself, whatever the body of its function would do, where it is made
at the limit. -/
theorem enterCall_refused_iff (args : List Value) (keywords : Keywords) (line : Nat) {w : World}
    (hw : w.depth ≤ limit) :
    (∀ block, enterCall block limit closure args keywords line w =
      .fault (depthFault limit line) (w.warn (.depthLimit closure.name w.depth))) ↔
    w.depth = limit := by
  constructor
  · intro h
    refine Nat.le_antisymm hw (Nat.le_of_not_lt fun hlt => ?_)
    -- With a body that does nothing only the arguments can fail, and of that nobody is warned.
    have hidle := h fun _ _ => pure .normal
    change (if limit ≤ w.depth then refuseCall limit w.depth closure.name line
      else runBody (fun _ _ => pure .normal) closure args keywords line : Run Value) w = _ at hidle
    rw [if_neg (by omega)] at hidle
    dsimp only [runBody, bind, Run.bind, Run.atLine, Run.ofExcept, Run.allocate] at hidle
    cases hbind : bindArguments closure.name closure.params args keywords with
    | error f =>
      rw [hbind] at hidle
      have hwarned := congrArg World.warnings (Outcome.fault.inj hidle).2
      exact absurd hwarned (List.cons_ne_self _ _).symm
    | ok values =>
      rw [hbind] at hidle
      cases hidle
  intro heq block
  change (if limit ≤ w.depth then refuseCall limit w.depth closure.name line
    else runBody block closure args keywords line : Run Value) w = _
  rw [if_pos (by omega)]
  rfl

end Calls

/-! ### Host functions -/

/-- An environment whose host functions do something else above the limit on calls. -/
def Environment.watched (env : Environment) (alarm : HostBody) : Environment :=
  { env with natives := fun code call args keywords =>
      Run.within env.maxDepth (env.natives code call args keywords) (alarm call args keywords) }

/-- Doing the same at every call depth within a limit, and leaving the depth as it was. -/
def watching (limit : Nat) : Comparison where
  rel act act' := act.Balanced ∧ ∀ w : World, w.depth ≤ limit → act' w = act w
  balanced h := ⟨h, fun _ _ => rfl⟩
  bind {_ _ act act' next next'} ha hn := by
    refine ⟨balancing.andThen ha.1 fun a => (hn a).1, fun w hw => ?_⟩
    have hbalanced := ha.1 w
    change Run.bind act' next' w = Run.bind act next w
    unfold Run.bind
    rw [ha.2 w hw]
    cases hact : act w with
    | ok a w' =>
      rw [hact] at hbalanced
      exact (hn a).2 w' (hbalanced.1 ▸ hw)
    | fault f w' => rfl
    | exhausted => rfl
  atLine ha := by
    refine ⟨balancing.atLine ha.1, fun w hw => ?_⟩
    unfold Run.atLine
    rw [ha.2 w hw]
  attempt ha := by
    refine ⟨ha.1.attempt, fun w hw => ?_⟩
    unfold Run.attempt
    rw [ha.2 w hw]
  handling {_ f _ _} ha := by
    refine ⟨ha.1.whileHandling f, fun w hw => ?_⟩
    unfold whileHandling
    rw [ha.2 { w with handling := f :: w.handling } hw]

section Watched

variable {env : Environment} (hnatives : ∀ code, (env.natives code).Uniform)
include hnatives

theorem lockstep_watched (alarm : HostBody) :
    (watching env.maxDepth).Lockstep env (env.watched alarm).natives 0 where
  exhausted h := by
    rw [h rfl]
    exact ⟨fun _ => trivial, fun _ _ => rfl⟩
  enterCall c args keywords line hb :=
    ⟨enterCall_balanced args keywords line fun scope => (hb scope).1, fun w _ =>
      congrFun (enterCall_congr args keywords line fun scope => (hb scope).2) w⟩
  natives code call call' args keywords hc := by
    have hsame := (watching env.maxDepth).alike hc (hnatives code call call' args keywords)
    refine ⟨hsame.1, fun w hw => ?_⟩
    rw [← hsame.2 w hw]
    exact if_pos hw

/-- Within the limit on calls, no run changes if host functions do something else above
it. -/
theorem evaluator_watched (alarm : HostBody) (fuel : Nat) {w : World}
    (hw : w.depth ≤ env.maxDepth) :
    (∀ scope e, evalExpr (env.watched alarm) fuel scope e w = evalExpr env fuel scope e w) ∧
    (∀ scope s, execStmt (env.watched alarm) fuel scope s w = execStmt env fuel scope s w) ∧
    (∀ f args keywords line, callValue (env.watched alarm) fuel f args keywords line w =
      callValue env fuel f args keywords line w) ∧
    (∀ program,
      runProgram (env.watched alarm) fuel program w = runProgram env fuel program w) := by
  have hlockstep := lockstep_watched hnatives alarm
  obtain ⟨heval, hexec, hcall⟩ := hlockstep.evaluator fuel
  exact ⟨fun scope e => (heval scope e).2 w hw, fun scope s => (hexec scope s).2 w hw,
    fun f args keywords line => (hcall f args keywords line).2 w hw,
    fun program => (hlockstep.program fuel program).2 w hw⟩

end Watched

/-! ### All evaluations -/

/-- Call depth and the faults being handled are balanced, and the depth is bounded. Every
expression, statement, block, call (by a script or by a host function) and script leaves
both as it found them, whatever it ends with. From a world within the limit, no host
function and no body of a function is run above it. And a call of a function written in
the language is refused exactly at the limit, whatever its arguments are. -/
theorem control_balanced (env : Environment) (hnatives : ∀ code, (env.natives code).Uniform)
    (fuel : Nat) :
    ((∀ scope e, (evalExpr env fuel scope e).Balanced) ∧
      (∀ scope s, (execStmt env fuel scope s).Balanced) ∧
      (∀ scope body, (runBlock (execStmt env fuel scope) body).Balanced) ∧
      (∀ f args keywords line, (callValue env fuel f args keywords line).Balanced) ∧
      (∀ program, (runProgram env fuel program).Balanced)) ∧
    ∀ w : World, w.depth ≤ env.maxDepth →
      (∀ alarm,
        (∀ scope e, evalExpr (env.watched alarm) fuel scope e w = evalExpr env fuel scope e w) ∧
        (∀ scope s, execStmt (env.watched alarm) fuel scope s w = execStmt env fuel scope s w) ∧
        (∀ f args keywords line, callValue (env.watched alarm) fuel f args keywords line w =
          callValue env fuel f args keywords line w) ∧
        (∀ program,
          runProgram (env.watched alarm) fuel program w = runProgram env fuel program w)) ∧
      ∀ f closure, w.heap.asFunction f = .ok (.script closure) → ∀ args keywords line,
        (∀ alarm : ScopeRef → List Stmt → Run Flow,
          callValue env (fuel + 1) f args keywords line w =
            enterCall (fun inner body => Run.within env.maxDepth
              (runBlock (execStmt env fuel inner) body) (alarm inner body)) env.maxDepth closure
              args keywords line w) ∧
        ((∀ block, enterCall block env.maxDepth closure args keywords line w =
          .fault (depthFault env.maxDepth line) (w.warn (.depthLimit closure.name w.depth))) ↔
        w.depth = env.maxDepth) := by
  have hbalanced := balancing_everywhere hnatives
  obtain ⟨heval, hexec, hcall⟩ := hbalanced.evaluator fuel
  refine ⟨⟨heval, hexec, fun scope body => ?_, hcall, hbalanced.program fuel⟩, fun w hw =>
    ⟨fun alarm => evaluator_watched hnatives alarm fuel hw, fun f closure hf args keywords line =>
      ⟨fun alarm => ?_, enterCall_refused_iff args keywords line hw⟩⟩⟩
  · exact balancing.runBlock fun s _ => hexec scope s
  · rw [Modality.callValue_succ, hf]
    refine (congrFun (enterCall_congr args keywords line fun scope w hw => ?_) w).symm
    exact if_pos hw

/-- A function that handles a fault by calling itself. -/
def Sample.recursiveHandler : String :=
  "def f():\n    try:\n        1 // 0\n    except:\n        f()\n"

/-- The run ends with a fault of some kind. -/
def Outcome.failsWith {α : Type} (kind : FaultKind) : Outcome α → Bool
  | .ok _ _ => false
  | .fault f _ => f.kind = kind
  | .exhausted => false

/-- Called by another function while a fault is being handled, the sample function handles
one more and calls itself at the limit. It ends with the fault for that, and both the depth
and the faults being handled are as before. -/
theorem control_balanced_overflow :
    let s := Session.build Sample.body { maxDepth := 2 }
    let defined := (s.eval .live Sample.recursiveHandler).2.world
    let f := (defined.heap.local? s.env.globals "f").getD .none
    let w := { defined with depth := 1, handling := [depthFault 7 3] }
    (∀ code, (s.env.natives code).Uniform) ∧ w.depth ≤ s.env.maxDepth ∧
      (callValue s.env 9 f [] .empty 4 w).failsWith .stackOverflow = true ∧
      (callValue s.env 9 f [] .empty 4 w).Balanced w ∧
      (∃ closure, w.heap.asFunction f = .ok (.script closure) ∧ ¬ ∀ block,
        enterCall block 2 closure [.none] .empty 4 w =
          .fault (depthFault 2 4) (w.warn (.depthLimit closure.name 1))) := by
  intro s defined f w
  have hw : w.depth ≤ s.env.maxDepth := by decide
  have hfails : (callValue s.env 9 f [] .empty 4 w).failsWith .stackOverflow = true := by
    decide +kernel
  have hbalanced := control_balanced s.env Sample.body_uniform 9
  have hscript : (w.heap.asFunction f).toOption.any (fun g => g matches .script _) = true := by
    decide +kernel
  refine ⟨Sample.body_uniform, hw, hfails, hbalanced.1.2.2.2.1 f [] .empty 4 w, ?_⟩
  cases hf : w.heap.asFunction f with
  | error e =>
    rw [hf] at hscript
    cases hscript
  | ok g =>
    cases g with
    | host g =>
      rw [hf] at hscript
      cases hscript
    | script closure =>
      refine ⟨closure, rfl, fun h => ?_⟩
      have hlimit := ((hbalanced.2 w hw).2 f closure hf [.none] .empty 4).2.1 h
      exact absurd hlimit (by decide)

end Scripting
