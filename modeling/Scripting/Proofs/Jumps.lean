/-
# Jumps stay inside what they belong to

The parser lets a jump stand only where there is something to jump out of: `return` in a function,
`break` and `continue` in a loop. The evaluator does not check this again. What encloses a
statement bounds the flows that it can finish with (`execStmt_allowed`): a loop takes up the jumps
that belong to it, a call takes up a return, and the last block of an attempt may replace one flow
by another. So no flow but the normal one leaves a statement of a script, and none but a return
leaves the body of a function.

The parser also refuses what two faults of the evaluator are about. No place in code that was
parsed makes one of the two (`Stmt.Reports.proper`).
-/
import Scripting.Proofs.Faults.Reports
import Scripting.Proofs.Run.Sample

namespace Scripting

/-- The flows that a statement may finish with in what encloses it. -/
def Flow.Allowed (n : Nesting) : Flow → Prop
  | .normal => True
  | .giveBack _ => n.inFunction = true
  | .breakLoop | .continueLoop => n.inLoop = true

/-- Every value that a run can give is of some kind. -/
def Run.Gives {α : Type} (Q : α → Prop) (act : Run α) : Prop :=
  ∀ w a w', act w = .ok a w' → Q a

namespace Run.Gives

variable {α β : Type} {Q : α → Prop} {S : β → Prop}

theorem pure {a : α} (h : Q a) : Run.Gives Q (Pure.pure a : Run α) := by
  intro w b w' hb
  cases hb
  exact h

theorem fail (f : Fault) : Run.Gives Q (Run.fail f : Run α) := by
  intro w a w' h
  cases h

theorem exhausted : Run.Gives Q (Run.exhausted : Run α) := by
  intro w a w' h
  cases h

theorem bind {act : Run α} {next : α → Run β} (ha : act.Gives Q)
    (hn : ∀ a, Q a → (next a).Gives S) : Run.Gives S (act >>= next) := by
  intro w b w' h
  obtain ⟨a, w₁, hact, hnext⟩ := Run.bind_eq_ok h
  exact hn a (ha w a w₁ hact) w₁ b w' hnext

theorem after {act : Run α} {next : α → Run β} (hn : ∀ a, (next a).Gives S) :
    Run.Gives S (act >>= next) :=
  bind (Q := fun _ => True) (fun _ _ _ _ => trivial) fun a _ => hn a

theorem attempt {act : Run α} (ha : act.Gives Q) :
    Run.Gives (fun r => ∀ a, r = .ok a → Q a) (Run.attempt act) := by
  intro w r w' h a hr
  unfold Run.attempt at h
  cases hact : act w with
  | ok b w₁ =>
    rw [hact] at h
    cases h
    cases hr
    exact ha w a w' hact
  | fault f w₁ =>
    rw [hact] at h
    cases h
    cases hr
  | exhausted => rw [hact] at h; cases h

end Run.Gives

/-! ### Flows -/

section Flows

variable {n : Nesting}

theorem runBlock_allowed {exec : Stmt → Run Flow} : ∀ {body : List Stmt},
    (∀ t ∈ body, (exec t).Gives (Flow.Allowed n)) → (runBlock exec body).Gives (Flow.Allowed n)
  | [], _ => .pure trivial
  | t :: rest, h => by
    refine .bind (h t (.head _)) fun flow hflow => ?_
    split
    · exact runBlock_allowed fun t ht => h t (.tail _ ht)
    · exact .pure hflow

theorem runBranches_allowed {eval : Expr → Run Value} {block : List Stmt → Run Flow}
    {otherwise : Option (List Stmt)}
    (ho : ∀ body, otherwise = some body → (block body).Gives (Flow.Allowed n)) :
    ∀ {branches : List Branch}, (∀ b ∈ branches, (block b.body).Gives (Flow.Allowed n)) →
    (runBranches eval block otherwise branches).Gives (Flow.Allowed n)
  | [], _ => by
    cases otherwise with
    | none => exact .pure trivial
    | some body => exact ho body rfl
  | b :: rest, h => by
    have ih : (runBranches eval block otherwise rest).Gives (Flow.Allowed n) :=
      runBranches_allowed ho fun c hc => h c (List.mem_cons_of_mem b hc)
    refine .after fun test => ?_
    split
    · exact h b (.head _)
    · exact ih

/-- A loop takes up the jumps that belong to it, and passes a return on. -/
theorem loopOver_allowed {body : Value → Run Flow}
    (h : ∀ item, (body item).Gives (Flow.Allowed n.loop)) :
    ∀ {items : List Value}, (loopOver body items).Gives (Flow.Allowed n)
  | [] => .pure trivial
  | item :: rest => by
    have ih : (loopOver body rest).Gives (Flow.Allowed n) := loopOver_allowed h
    refine .bind (h item) fun flow hflow => ?_
    split
    · exact .pure trivial
    · exact .pure hflow
    · exact ih
    · exact ih

theorem loopWhile_allowed {test : Run Bool} {body : Run Flow}
    (h : body.Gives (Flow.Allowed n.loop)) :
    ∀ fuel : Nat, (loopWhile test body fuel).Gives (Flow.Allowed n)
  | 0 => .exhausted
  | fuel + 1 => by
    have ih : (loopWhile test body fuel).Gives (Flow.Allowed n) := loopWhile_allowed h fuel
    refine .after fun go => ?_
    split
    · refine .bind h fun flow hflow => ?_
      split
      · exact .pure trivial
      · exact .pure hflow
      · exact ih
      · exact ih
    · exact .pure trivial

theorem handleFault_allowed {block : List Stmt → Run Flow} {scope : ScopeRef}
    {handlers : List Handler} (h : ∀ k ∈ handlers, (block k.body).Gives (Flow.Allowed n)) (f : Fault) :
    (handleFault block scope handlers f).Gives (Flow.Allowed n) := by
  have hrun {k : Handler} (hk : k ∈ handlers) :
      (whileHandling f (block k.body)).Gives (Flow.Allowed n) := by
    intro w flow w' hw
    unfold whileHandling at hw
    split at hw
    next flow₁ w₁ hblock =>
      cases hw
      exact h k hk _ flow w₁ hblock
    · cases hw
    · cases hw
  unfold handleFault
  split
  · exact .fail f
  split
  · exact .fail f
  next k hk =>
    have hk := List.mem_of_find?_eq_some hk
    cases k.binding with
    | none => exact hrun hk
    | some name => exact .after fun _ => hrun hk

theorem attempt_allowed {block : List Stmt → Run Flow} {scope : ScopeRef} {p : Position}
    {body : List Stmt} {handlers : List Handler} {otherwise always : Option (List Stmt)}
    (h : ∀ b ∈ (Stmt.attempt p body handlers otherwise always).blocks,
      (block b).Gives (Flow.Allowed n)) :
    (attempt block scope body handlers otherwise always).Gives (Flow.Allowed n) := by
  simp only [Stmt.blocks, List.mem_append, List.mem_cons, List.mem_map, Option.mem_toList] at h
  have hfirst : (attemptBody block scope body handlers otherwise).Gives (Flow.Allowed n) := by
    refine .bind (.attempt (h body (.inl (.inl (.inl rfl))))) fun outcome houtcome => ?_
    split
    · split
      next rest => exact h rest (.inl (.inr rfl))
      · exact .pure trivial
    next flow _ => exact .pure (houtcome flow rfl)
    next f =>
      exact handleFault_allowed (fun k hk => h k.body (.inl (.inl (.inr ⟨k, hk, rfl⟩)))) f
  unfold attempt
  split
  · exact hfirst
  next last =>
    refine .bind (.attempt hfirst) fun outcome houtcome => ?_
    refine .bind (h last (.inr rfl)) fun flow hflow => ?_
    split
    · intro w a w' ha
      unfold Run.ofExcept at ha
      split at ha
      next b =>
        cases ha
        exact houtcome a rfl
      · cases ha
    · exact .pure hflow

/-- What encloses a statement bounds the flows that it can finish with. The induction is on
the budget. -/
theorem execStmt_allowed {env : Environment} : ∀ {fuel : Nat} {n : Nesting} {scope : ScopeRef}
    {s : Stmt}, s.Sound 1 n → (execStmt env fuel scope s).Gives (Flow.Allowed n)
  | 0, n, scope, s, _ => by
    rw [execStmt.eq_def]
    exact .exhausted
  | fuel + 1, n, scope, s, hs => by
    have hblock (inner : ScopeRef) : ∀ body ∈ s.blocks,
        (runBlock (execStmt env fuel inner) body).Gives (Flow.Allowed (s.inner n)) := by
      intro body hbody
      exact runBlock_allowed fun t ht => execStmt_allowed (hs.blocks body hbody t ht)
    have hrule := hs.rule
    rw [execStmt.eq_def]
    refine .after fun _ => ?_
    cases s with
    | assign p target value => exact .after fun _ => .after fun _ => .pure trivial
    | augment p op target value =>
      cases target with
      | name name =>
        exact .after fun _ => .after fun _ => .after fun _ => .after fun _ => .pure trivial
      | index container key =>
        exact .after fun _ => .after fun _ => .after fun _ => .after fun _ => .after fun _ =>
          .after fun _ => .pure trivial
      | group targets => exact .fail _
    | branch p branches otherwise =>
      refine runBranches_allowed (fun body h => hblock scope body ?_) fun b h => hblock scope _ ?_
      · rw [h]
        simp [Stmt.blocks]
      · exact List.mem_append_left _ (List.mem_map.2 ⟨b, h, rfl⟩)
    | forEach p target iterable body =>
      refine .after fun _ => .after fun _ => loopOver_allowed fun item => ?_
      exact .after fun _ => .after fun inner => .after fun _ => hblock inner body (.head _)
    | whileTrue p condition body => exact loopWhile_allowed (hblock scope body (.head _)) fuel
    | define p name params body => exact .after fun _ => .after fun _ => .pure trivial
    | giveBack p value =>
      cases value with
      | none => exact .pure hrule
      | some e => exact .after fun _ => .pure hrule
    | importModule p name => exact .after fun _ => .pure trivial
    | attempt p body handlers otherwise always => exact attempt_allowed (hblock scope)
    | raise p value =>
      cases value with
      | none =>
        refine .after fun handled => ?_
        split <;> exact .fail _
      | some e => exact .after fun _ => .after fun _ => .fail _
    | pass => exact .pure trivial
    | breakLoop | continueLoop => exact .pure hrule
    | expr e => exact .after fun _ => .pure trivial

end Flows

/-! ### Faults -/

theorem checkToken_proper (t : CancelToken) (now : Nat) : Fails Fault.Proper (t.check now) := by
  by_cases h : t.hasFired now = true
  · obtain ⟨f, hf, hkind⟩ := CancelToken.check_of_hasFired h
    rw [hf]
    refine .error fun hmisuse => ?_
    have := hmisuse.1
    rw [hkind] at this
    cases this
  · rw [CancelToken.check_of_not_hasFired h]
    exact .ok _

section Proper

variable {env : Environment}

mutual

theorem Expr.Reports.proper {e : Expr} (he : e.Parsed) {f : Fault} :
    e.Reports env Fault.Proper f → f.Proper
  | .work h hf => (h.proper he.sound.rule _ _ _ hf).atLine _
  | .stop _ hf => (checkToken_proper _ _ _ hf).atLine _
  | .part hpart h => Expr.Reports.proper (he.part hpart) h
  | .call _ h => CallReports.proper h

/-- No fault of a statement that was parsed is a misuse. -/
theorem Stmt.Reports.proper {n : Nesting} {s : Stmt} (hs : s.Parsed n) {f : Fault} :
    s.Reports env Fault.Proper f → f.Proper
  | .work h hf => (h.proper hs.sound.rule _ _ _ hf).atLine _
  | .stop hf => (checkToken_proper _ _ _ hf).atLine _
  | .expr he h => Expr.Reports.proper (hs.expr he) h
  | .block hbody ht h => Stmt.Reports.proper (hs.block (Stmt.mem_blocks_of_runs hbody) ht) h
  | .again ht h => Stmt.Reports.proper ht h
  | .noneRaised _ => fun h => nomatch h.1

theorem CallReports.proper {line : Nat} {f : Fault} : CallReports env Fault.Proper line f → f.Proper
  | .value hf => (asFunction_proper _ _ _ hf).atLine _
  | .arguments hf => (bindArguments_proper _ _ _ _ _ hf).atLine _
  | .depth _ => fun h => nomatch h.1
  | .body hc ht h => Stmt.Reports.proper (hc.stmt ht) h
  | .host h => (HostReports.proper h).atLine _

theorem HostReports.proper {code : HostCode} {f : Fault} :
    HostReports env Fault.Proper code f → f.Proper
  | .work h hf => h.orderly.faults _ _ _ hf
  | .native hown _ => hown
  | .callback h => CallReports.proper h

end

end Proper

/-! ### Runs of parsed code -/

/-- In a run of code that was parsed no jump escapes and nothing is misused: a statement of
the script finishes normally or fails, the body of a function finishes normally or with a
return, and neither of the two faults occurs, in the script or anywhere in it. -/
theorem jumps_stay_inside (env : Environment)
    (hnatives : ∀ code, (env.natives code).Keeps Fault.Proper) {source : String} {program : Program}
    (hparse : parse source = .ok program) (fuel : Nat) (w : World)
    (hw : w.Accounted env Fault.Proper) :
    (∀ s ∈ program, ∀ scope flow w', execStmt env fuel scope s w = .ok flow w' → flow = .normal) ∧
    (∀ c ∈ w.heap.closures, ∀ scope flow w',
      runBlock (execStmt env fuel scope) c.body w = .ok flow w' →
      flow = .normal ∨ ∃ v, flow = .giveBack v) ∧
    (runProgram env fuel program w).Keeps (World.Accounted env Fault.Proper) Fault.Proper ∧
    (∀ n s scope, Stmt.Parsed n s →
      (execStmt env fuel scope s w).Keeps (World.Accounted env Fault.Proper) Fault.Proper) ∧
    ∀ e scope, Expr.Parsed e →
      (evalExpr env fuel scope e w).Keeps (World.Accounted env Fault.Proper) Fault.Proper := by
  have htop {s : Stmt} (hs : s ∈ program) : s.Parsed .top := ⟨source, program, hparse, .top hs⟩
  obtain ⟨heval, hexec, -⟩ := Reporting.evaluator hnatives fuel
  refine ⟨fun s hs scope flow w' h => ?_, fun c hc scope flow w' h => ?_, ?_, ?_, ?_⟩
  · have hallowed := execStmt_allowed (htop hs).sound w flow w' h
    cases flow with
    | normal => rfl
    | _ => cases hallowed
  · have hparsed := hw.closures c hc
    have hallowed := runBlock_allowed (n := .function)
      (fun t ht => execStmt_allowed (hparsed.stmt ht).sound) w flow w' h
    cases flow with
    | normal => exact .inl rfl
    | giveBack v => exact .inr ⟨v, rfl⟩
    | _ => cases hallowed
  · refine (Reporting.program hnatives hparse fuel w hw).mono ?_
    rintro f ⟨t, ht, hf⟩
    exact hf.proper (htop ht)
  · exact fun n s scope hs => (hexec scope n s hs w hw).mono fun f hf => hf.proper hs
  · exact fun e scope he => (heval scope e he w hw).mono fun f hf => hf.proper he

theorem Sample.apply_keeps : (Sample.body "apply").Keeps Fault.Proper := by
  intro I P _ hown call args keywords hcall w hw
  change (Sample.apply call args w).Keeps I P
  cases args with
  | nil => exact ⟨hw, hown _ (argumentFault_proper _)⟩
  | cons f rest => exact hcall f rest w hw

/-- The run comes to an end, and does not fail. -/
def Outcome.finishes {α : Type} : Outcome α → Bool
  | .ok _ _ => true
  | .fault _ _ => false
  | .exhausted => false

theorem Outcome.finishes_iff {α : Type} {o : Outcome α} :
    o.finishes = true ↔ ∃ a w, o = .ok a w := by
  cases o <;> simp [finishes]

/-- A `continue` on its way out of an attempt is replaced by a `break`, and both belong to the
loop: the statement finishes normally. -/
theorem jumps_stay_inside_replaced :
    let s := Session.build (fun _ => Sample.body "apply") {}
    ∃ program, parse "for x in [1]:\n  try:\n    continue\n  finally:\n    break" = .ok program ∧
      program.length = 1 ∧
      ∀ t ∈ program, ∃ w', execStmt s.env 9 s.env.globals t s.world = .ok .normal w' := by
  intro s
  have hrun : (parse "for x in [1]:\n  try:\n    continue\n  finally:\n    break").toOption.any
      (fun program => program.length == 1 && program.all fun t =>
        (execStmt s.env 9 s.env.globals t s.world).finishes) = true := by decide +kernel
  cases hparse : parse "for x in [1]:\n  try:\n    continue\n  finally:\n    break" with
  | error e =>
    rw [hparse] at hrun
    cases hrun
  | ok program =>
    rw [hparse] at hrun
    obtain ⟨hlength, hfinishes⟩ := Bool.and_eq_true_iff.1 hrun
    refine ⟨program, rfl, beq_iff_eq.1 hlength, fun t ht => ?_⟩
    obtain ⟨flow, w', hflow⟩ := Outcome.finishes_iff.1 (List.all_eq_true.1 hfinishes t ht)
    have hstay := jumps_stay_inside s.env (fun _ => Sample.apply_keeps) hparse 9 s.world
      (.start (fun c hc => by cases hc) rfl)
    have hnormal : flow = .normal := hstay.1 t ht _ flow w' hflow
    exact ⟨w', hnormal ▸ hflow⟩

end Scripting
