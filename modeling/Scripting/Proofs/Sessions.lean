/-
# Sessions in parts

A script can be split in two that are run one after the other: the answer, the world left behind
and the token are the same (`answers_append`). If the first part fails, its fault is the answer
and what its statements did before stays done.

The expression at the end of a script is run by a way of its own, with one step more left than it
has as a statement between others. So runs are compared by what they do where the smaller budget
is not used up (`patience`): an answer that is given within some budget is given within every
larger one (`answers_of_run`). And the second part starts with no active calls and no faults being
handled, which is how a balanced run leaves the world.
-/
import Scripting.Proofs.Run.Comparison
import Scripting.Session

namespace Scripting

variable {p q : Program} {α : Type} {act : Run α}

/-! ### The budget -/

/-- Doing the same, unless the budget of the first run is used up. -/
def patience : Comparison where
  rel act act' := ∀ w : World, act w = .exhausted ∨ act' w = act w
  balanced _ _ := .inr rfl
  bind {_ _ act act' next next'} ha hn w := by
    change Run.bind act next w = .exhausted ∨ Run.bind act' next' w = Run.bind act next w
    unfold Run.bind
    rcases ha w with hact | hact
    · exact .inl (by rw [hact])
    rw [hact]
    cases act w with
    | ok a w' => exact hn a w'
    | fault f w' => exact .inr rfl
    | exhausted => exact .inl rfl
  atLine ha w := by
    unfold Run.atLine
    rcases ha w with hact | hact
    · exact .inl (by rw [hact])
    · exact .inr (by rw [hact])
  attempt ha w := by
    unfold Run.attempt
    rcases ha w with hact | hact
    · exact .inl (by rw [hact])
    · exact .inr (by rw [hact])
  handling {_ f _ _} ha w := by
    unfold whileHandling
    rcases ha { w with handling := f :: w.handling } with hact | hact
    · exact .inl (by rw [hact])
    · exact .inr (by rw [hact])

theorem patience_oneDeeper {act' : Run α} (h : patience.rel act act') :
    patience.rel (oneDeeper act) (oneDeeper act') := by
  intro w
  unfold oneDeeper
  rcases h { w with depth := w.depth + 1 } with hact | hact
  · exact .inl (by rw [hact])
  · exact .inr (by rw [hact])

section Patience

variable {env : Environment} (hnatives : ∀ code, (env.natives code).Uniform)
include hnatives

theorem lockstep_patient (more : Nat) : patience.Lockstep env env.natives more where
  exhausted _ _ := .inl rfl
  enterCall c args keywords line hb := by
    refine patience.bind (patience.view _) fun depth => ?_
    split
    · exact patience.balanced fun _ => ⟨rfl, rfl⟩
    refine patience.bind (patience.steady (.of (.atLine (fun _ => id) (.ofExcept fun _ _ => trivial)))) fun values => ?_
    refine patience.bind (patience.balanced fun _ => ⟨rfl, rfl⟩) fun frame => ?_
    refine patience.bind (patience_oneDeeper (hb frame)) fun flow => ?_
    split <;> exact patience.pure _
  natives code _ _ args keywords hc := patience.alike hc (hnatives code _ _ args keywords)

/-- A larger budget changes nothing where the smaller one is not used up. -/
theorem runProgram_patient (fuel more : Nat) (program : Program) :
    patience.rel (runProgram env fuel program) (runProgram env (fuel + more) program) :=
  (lockstep_patient hnatives more).program fuel program

end Patience

/-! ### Scripts in two parts -/

/-- Runs statements in the global scope for what they do. -/
def execAll (env : Environment) (fuel : Nat) : Program → Run Unit
  | [] => pure ()
  | s :: rest => do
    let _ ← execStmt env fuel env.globals s
    execAll env fuel rest

def runForEffect (env : Environment) (fuel : Nat) (program : Program) : Run Unit := do
  let _ ← runProgram env fuel program
  return ()

theorem runProgram_cons {env : Environment} {fuel : Nat} {s : Stmt} {rest : Program}
    (h : ∀ e, s = .expr e → rest ≠ []) :
    runProgram env fuel (s :: rest) = (do
      let _ ← execStmt env fuel env.globals s
      runProgram env fuel rest) := by
  rw [runProgram.eq_def]
  split
  next heq => cases heq
  next e heq =>
    obtain ⟨hs, hrest⟩ := List.cons.inj heq
    exact absurd hrest (h e hs)
  next heq =>
    cases heq
    rfl

theorem runProgram_append {env : Environment} {fuel : Nat} {q : Program} (hq : q ≠ []) :
    ∀ p : Program, runProgram env fuel (p ++ q) = (do
      execAll env fuel p
      runProgram env fuel q)
  | [] => rfl
  | s :: rest => by
    have hmore : rest ++ q ≠ [] := fun h => hq (List.append_eq_nil_iff.1 h).2
    rw [List.cons_append, runProgram_cons fun _ _ => hmore, runProgram_append hq rest]
    funext w
    dsimp only [execAll, bind, Run.bind]
    cases execStmt env fuel env.globals s w <;> rfl

section Parts

variable {env : Environment} {fuel : Nat}

theorem runForEffect_cons {s : Stmt} {rest : Program} (h : ∀ e, s = .expr e → rest ≠ []) :
    runForEffect env fuel (s :: rest) = (do
      let _ ← execStmt env fuel env.globals s
      runForEffect env fuel rest) := by
  unfold runForEffect
  rw [runProgram_cons h]
  funext w
  dsimp only [bind, Run.bind]
  cases execStmt env fuel env.globals s w <;> rfl

theorem execAll_expr (e : Expr) :
    execAll env (fuel + 1) [.expr e] = runForEffect env fuel [.expr e] := by
  funext w
  dsimp only [execAll, runForEffect, runProgram, execStmt, Stmt.pos, Stmt.moments, bind, Run.bind]
  cases checkpoint e.pos.line 1 w with
  | ok a w' =>
    dsimp only
    cases evalExpr env fuel env.globals e w' <;> rfl
  | fault f w' => rfl
  | exhausted => rfl

theorem expr_or_more (s : Stmt) (rest : Program) :
    (∃ e, s = .expr e ∧ rest = []) ∨ ∀ e, s = .expr e → rest ≠ [] := by
  by_cases h : ∃ e, s = .expr e ∧ rest = []
  · exact .inl h
  · exact .inr fun e hs hrest => h ⟨e, hs, hrest⟩

section

variable (hnatives : ∀ code, (env.natives code).Uniform)
include hnatives

theorem runForEffect_patient (p : Program) :
    patience.rel (runForEffect env fuel p) (runForEffect env (fuel + 1) p) :=
  patience.bind (runProgram_patient hnatives fuel 1 p) fun _ => patience.pure ()

/-- A script does what its statements do within the same budget. -/
theorem execAll_patient : ∀ p : Program,
    patience.rel (execAll env fuel p) (runForEffect env fuel p)
  | [] => patience.pure ()
  | s :: rest => by
    rcases expr_or_more s rest with ⟨e, rfl, rfl⟩ | hmore
    · cases fuel with
      | zero => exact fun w => .inl rfl
      | succ fuel =>
        rw [execAll_expr]
        exact runForEffect_patient hnatives _
    · rw [runForEffect_cons hmore]
      exact patience.bind (fun _ => .inr rfl) fun _ => execAll_patient rest

theorem runForEffect_patient_execAll : ∀ p : Program,
    patience.rel (runForEffect env fuel p) (execAll env (fuel + 1) p)
  | [] => patience.pure ()
  | s :: rest => by
    rcases expr_or_more s rest with ⟨e, rfl, rfl⟩ | hmore
    · rw [execAll_expr]
      exact fun _ => .inr rfl
    · rw [runForEffect_cons hmore]
      exact patience.bind (((lockstep_patient hnatives 1).evaluator fuel).2.1 _ s) fun _ =>
        runForEffect_patient_execAll rest

theorem runProgram_append_patient (hq : q ≠ []) :
    patience.rel (runProgram env fuel (p ++ q)) (do
      let _ ← runProgram env fuel p
      runProgram env fuel q) ∧
    patience.rel (do
      let _ ← runProgram env fuel p
      runProgram env fuel q) (runProgram env (fuel + 1) (p ++ q)) := by
  have heffect : (do
      let _ ← runProgram env fuel p
      runProgram env fuel q) = (do
      runForEffect env fuel p
      runProgram env fuel q) := by
    funext w
    dsimp only [runForEffect, bind, Run.bind]
    cases runProgram env fuel p w <;> rfl
  rw [heffect, runProgram_append hq, runProgram_append hq]
  exact ⟨patience.bind (execAll_patient hnatives p) fun _ _ => .inr rfl,
    patience.bind (runForEffect_patient_execAll hnatives p) fun _ =>
      runProgram_patient hnatives fuel 1 q⟩

end

end Parts

/-! ### Sessions in two parts -/

namespace Session

variable {s s' : Session} {token : CancelToken} {program : Program} {r : Except Failure Value}

/-- What a session answers to a script, from some budget on. -/
def Answers (s : Session) (token : CancelToken) (program : Program) (r : Except Failure Value)
    (s' : Session) : Prop :=
  r ≠ .error .exhausted ∧
    ∃ fuel, ∀ more, s.run token (runProgram s.env (fuel + more) program) = (r, s')

/-- The world in which a session starts to run. -/
def startWorld (s : Session) (token : CancelToken) : World :=
  { s.world with token := token, depth := 0, handling := [] }

/-- How a session reports the end of a run. -/
def report {α : Type} (s : Session) : Outcome α → Except Failure α × Session
  | .ok a w => (.ok a, { s with world := w })
  | .fault f w => (.error (.fault f), { s with world := w })
  | .exhausted => (.error .exhausted, s)

theorem run_eq_report (s : Session) (token : CancelToken) (act : Run α) :
    s.run token act = s.report (act (s.startWorld token)) :=
  rfl

theorem run_patient {act' : Run α} {r : Except Failure α}
    (h : patience.rel act act') (hrun : s.run token act = (r, s')) (hr : r ≠ .error .exhausted) :
    s.run token act' = (r, s') := by
  rw [run_eq_report] at hrun ⊢
  rcases h (s.startWorld token) with hact | hact
  · rw [hact] at hrun
    exact absurd (congrArg Prod.fst hrun).symm hr
  · rw [hact, hrun]

theorem startWorld_self {w : World} (hdepth : w.depth = 0) (hhandling : w.handling = []) :
    { s with world := w }.startWorld w.token = w := by
  unfold startWorld
  rw [← hdepth, ← hhandling]

theorem report_resumed {o : Outcome α} {w : World} {r : Except Failure α}
    (hr : r ≠ .error .exhausted) :
    { s with world := w }.report o = (r, s') ↔ s.report o = (r, s') := by
  cases o with
  | ok a w' => exact Iff.rfl
  | fault f w' => exact Iff.rfl
  | exhausted =>
    have hnever (s : Session) : s.report (.exhausted : Outcome α) ≠ (r, s') :=
      fun h => hr (congrArg Prod.fst h).symm
    exact ⟨fun h => absurd h (hnever _), fun h => absurd h (hnever s)⟩

theorem run_then_iff {β : Type} {next : Run β} {r : Except Failure β}
    (hact : act.Balanced) (hr : r ≠ .error .exhausted) :
    s.run token (do let _ ← act; next) = (r, s') ↔
      (∃ a s₁, s.run token act = (.ok a, s₁) ∧ s₁.run s₁.world.token next = (r, s')) ∨
      (∃ failure, s.run token act = (.error failure, s') ∧ r = .error failure) := by
  have hbalanced := hact (s.startWorld token)
  simp only [run_eq_report, bind, Run.bind]
  cases hend : act (s.startWorld token) with
  | ok a w =>
    rw [hend] at hbalanced
    have hstart := startWorld_self (s := s) hbalanced.1 hbalanced.2
    constructor
    · intro h
      refine .inl ⟨a, { s with world := w }, rfl, ?_⟩
      rw [hstart]
      exact (report_resumed hr).2 h
    rintro (⟨a', s₁, hfirst, hsecond⟩ | ⟨failure, hfirst, -⟩)
    · cases hfirst
      rw [hstart] at hsecond
      exact (report_resumed hr).1 hsecond
    · cases hfirst
  | fault f w =>
    constructor
    · intro h
      cases h
      exact .inr ⟨_, rfl, rfl⟩
    rintro (⟨a, s₁, hfirst, -⟩ | ⟨failure, hfirst, rfl⟩)
    · cases hfirst
    · cases hfirst
      rfl
  | exhausted =>
    constructor
    · intro h
      exact absurd (congrArg Prod.fst h).symm hr
    rintro (⟨a, s₁, hfirst, -⟩ | ⟨failure, hfirst, rfl⟩)
    · cases hfirst
    · cases hfirst
      exact absurd rfl hr

theorem run_env (s : Session) (token : CancelToken) (act : Run α) :
    (s.run token act).2.env = s.env := by
  unfold run
  split <;> rfl

section Answers

variable (hnatives : ∀ code, (s.env.natives code).Uniform)
include hnatives

theorem answers_of_run {fuel : Nat} (hrun : s.run token (runProgram s.env fuel program) = (r, s'))
    (hr : r ≠ .error .exhausted) : s.Answers token program r s' :=
  ⟨hr, fuel, fun more => run_patient (runProgram_patient hnatives fuel more program) hrun hr⟩

theorem answers_append_of_parts (hq : q ≠ [])
    (h : (∃ v s₁, s.Answers token p (.ok v) s₁ ∧ s₁.Answers s₁.world.token q r s') ∨
      (∃ failure, s.Answers token p (.error failure) s' ∧ r = .error failure)) :
    s.Answers token (p ++ q) r s' := by
  have hbalanced (fuel : Nat) := (balancing_everywhere hnatives).program fuel p
  rcases h with ⟨v, s₁, ⟨-, fuel, hfirst⟩, hr, fuel', hsecond⟩ | ⟨failure, ⟨hr, fuel, hfirst⟩, rfl⟩
  · -- Both parts are answered within the sum of their budgets.
    have henv : s₁.env = s.env := by rw [← s.run_env token, hfirst 0]
    have hturn : s.run token (do
        let _ ← runProgram s.env (fuel + fuel') p
        runProgram s.env (fuel + fuel') q) = (r, s') := by
      refine (run_then_iff (hbalanced _) hr).2 (.inl ⟨v, s₁, hfirst fuel', ?_⟩)
      rw [← henv, Nat.add_comm]
      exact hsecond fuel
    exact answers_of_run hnatives
      (run_patient (runProgram_append_patient hnatives hq).2 hturn hr) hr
  have hturn : s.run token (do
      let _ ← runProgram s.env fuel p
      runProgram s.env fuel q) = (.error failure, s') :=
    (run_then_iff (hbalanced _) hr).2 (.inr ⟨failure, hfirst 0, rfl⟩)
  exact answers_of_run hnatives
    (run_patient (runProgram_append_patient hnatives hq).2 hturn hr) hr

theorem parts_of_answers_append (hq : q ≠ []) (h : s.Answers token (p ++ q) r s') :
    (∃ v s₁, s.Answers token p (.ok v) s₁ ∧ s₁.Answers s₁.world.token q r s') ∨
      (∃ failure, s.Answers token p (.error failure) s' ∧ r = .error failure) := by
  obtain ⟨hr, fuel, hrun⟩ := h
  have hturn := run_patient (runProgram_append_patient hnatives hq).1 (hrun 0) hr
  have hbalanced := (balancing_everywhere hnatives).program fuel p
  rcases (run_then_iff hbalanced hr).1 hturn with ⟨v, s₁, hfirst, hsecond⟩ | ⟨failure, hfirst, rfl⟩
  · have henv : s₁.env = s.env := by rw [← s.run_env token, hfirst]
    refine .inl ⟨v, s₁, answers_of_run hnatives hfirst (by simp), ?_⟩
    rw [← henv] at hsecond
    exact answers_of_run (henv ▸ hnatives) hsecond hr
  · exact .inr ⟨failure, answers_of_run hnatives hfirst hr, rfl⟩

end Answers

end Session

/-- A session does not notice that a script is split. An answer that is given within some
budget is the answer, and the answer to a script, with the session that it leaves behind, is
that of its first part if this fails, and otherwise that of its second part in the session
that the first one left behind. -/
theorem answers_append (s : Session) (hnatives : ∀ code, (s.env.natives code).Uniform)
    (token : CancelToken) (r : Except Failure Value) (s' : Session) :
    (∀ program fuel, s.run token (runProgram s.env fuel program) = (r, s') →
      r ≠ .error .exhausted → s.Answers token program r s') ∧
    ∀ p q : Program, q ≠ [] → (s.Answers token (p ++ q) r s' ↔
      (∃ v s₁, s.Answers token p (.ok v) s₁ ∧ s₁.Answers s₁.world.token q r s') ∨
      (∃ failure, s.Answers token p (.error failure) s' ∧ r = .error failure)) :=
  ⟨fun _ _ => s.answers_of_run hnatives, fun _ _ hq =>
    ⟨Session.parts_of_answers_append hnatives hq, Session.answers_append_of_parts hnatives hq⟩⟩

/-- Whether a session got an answer, or failed with a fault of some kind. -/
def Session.endsWith (kind : Option FaultKind) : Except Failure Value → Bool
  | .ok _ => kind = none
  | .error (.fault f) => kind = some f.kind
  | .error _ => false

/-- The first half ends with an expression and the second half fails. In one script they
fail alike, and leave the same session behind. -/
theorem answers_append_failing :
    let s := Session.build Sample.body {}
    let p := (parse "xs = [1]\nxs").toOption.getD []
    let q := (parse "xs.append(2)\nxs[9]").toOption.getD []
    let first := s.run .live (runProgram s.env 9 p)
    let second := first.2.run first.2.world.token (runProgram first.2.env 9 q)
    (∀ code, (s.env.natives code).Uniform) ∧ q ≠ [] ∧ Session.endsWith none first.1 = true ∧
      Session.endsWith (some .index) second.1 = true ∧
      s.Answers .live (p ++ q) second.1 second.2 := by
  intro s p q first second
  have hq : q ≠ [] := by
    have hlength : q.length = 2 := by decide +kernel
    exact List.ne_nil_of_length_pos (by omega)
  have hfirst : Session.endsWith none first.1 = true := by decide +kernel
  have hsecond : Session.endsWith (some .index) second.1 = true := by decide +kernel
  have hnatives : ∀ code, (first.2.env.natives code).Uniform := by
    rw [s.run_env]
    exact Sample.body_uniform
  refine ⟨Sample.body_uniform, hq, hfirst, hsecond, ?_⟩
  have hp := (answers_append s Sample.body_uniform .live first.1 first.2).1 p 9 rfl fun h => by
    rw [h] at hfirst
    cases hfirst
  have hthen := (answers_append first.2 hnatives first.2.world.token second.1 second.2).1 q 9 rfl
    fun h => by
      rw [h] at hsecond
      cases hsecond
  refine ((answers_append s Sample.body_uniform .live second.1 second.2).2 p q hq).2 (.inl ?_)
  cases hvalue : first.1 with
  | ok v =>
    rw [hvalue] at hp
    exact ⟨v, first.2, hp, hthen⟩
  | error failure =>
    rw [hvalue] at hfirst
    cases failure <;> cases hfirst

end Scripting
