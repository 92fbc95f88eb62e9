/-
# What host functions may do

A function of the embedding program works on data, on the token, on the output and
on what it recorded. It does not reach what belongs to the evaluator, and it cannot
take a cancellation back. A run that keeps to this is tame. The sample functions are
tame, except for the one that calls its first argument, which does nothing else.
-/
import Scripting.Proofs.Run.Steady
import Scripting.Sample

namespace Scripting

namespace CancelToken

theorem hasFired_cancel (t : CancelToken) (now : Nat) : t.cancel.hasFired now = true := rfl

end CancelToken

/-- A world that a tame run can leave behind. -/
structure World.Tame (w w' : World) : Prop extends World.Intact w w' where
  fired : w.token.hasFired w.now = true → w'.token.hasFired w'.now = true

namespace World.Tame

theorem trans {w w' w'' : World} (h : w.Tame w') (h' : w'.Tame w'') : w.Tame w'' :=
  ⟨h.toIntact.trans h'.toIntact, fun hw => h'.fired (h.fired hw)⟩

theorem ofSteady {w w' : World} (h : w.Steady w') : w.Tame w' :=
  ⟨h.toIntact, fun hw => by rwa [h.token, h.now]⟩

end World.Tame

/-- A run that ends and leaves alone what belongs to the evaluator. -/
def Run.Tame {α : Type} (act : Run α) : Prop := ∀ w,
  match act w with
  | .ok _ w' => w.Tame w'
  | .fault _ w' => w.Tame w'
  | .exhausted => False

namespace Run.Tame

variable {α β : Type}

theorem ofSteady {act : Run α} (h : act.Steady) : act.Tame := by
  intro w
  have hw := h w
  cases hact : act w with
  | ok a w' => rw [hact] at hw; exact .ofSteady hw
  | fault f w' => rw [hact] at hw; exact .ofSteady hw
  | exhausted => rw [hact] at hw; exact hw

theorem bind {act : Run α} {next : α → Run β} (ha : act.Tame) (hn : ∀ a, (next a).Tame) :
    Run.Tame (act >>= next) := by
  intro w
  have hw := ha w
  change match Run.bind act next w with | .ok _ w' => _ | .fault _ w' => _ | .exhausted => _
  unfold Run.bind
  cases hact : act w with
  | fault f w' => rw [hact] at hw; exact hw
  | exhausted => rw [hact] at hw; exact hw
  | ok a w₁ =>
    rw [hact] at hw
    have hw₁ := hn a w₁
    dsimp only
    cases hnext : next a w₁ with
    | ok b w₂ => rw [hnext] at hw₁; exact hw.trans hw₁
    | fault f w₂ => rw [hnext] at hw₁; exact hw.trans hw₁
    | exhausted => rw [hnext] at hw₁; exact hw₁

theorem pure (a : α) : Run.Tame (Pure.pure a : Run α) := ofSteady (.of (.pure a))

theorem view (f : World → α) : Run.Tame (Run.view f) := ofSteady (.of (.view f))

theorem fail (f : Fault) : Run.Tame (Run.fail f : Run α) := ofSteady (.of (.fail trivial))

theorem ofExcept (r : Except Fault α) : Run.Tame (Run.ofExcept r) :=
  ofSteady (.of (.ofExcept fun _ _ => trivial))

theorem failOnError {act : Run Value} (h : act.Tame) : Run.Tame (failOnError act) := by
  refine bind h fun v => ?_
  split
  · exact bind (view _) fun _ => fail _
  · exact pure _

end Run.Tame

namespace Sample

theorem cancelToken_tame : cancelToken.Tame := fun w =>
  ⟨⟨.refl w.heap, rfl, rfl, rfl⟩, fun _ => w.token.hasFired_cancel w.now⟩

theorem errorOf_tame (args : List Value) : (errorOf args).Tame := .view _

theorem echo_tame (args : List Value) (keywords : Keywords) : (echo args keywords).Tame :=
  .ofSteady (.of (.bind (.newList _) fun _ => .bind (.newDict _) fun _ => .newList _))

theorem record_tame (args : List Value) : (record args).Tame :=
  .bind (fun w => ⟨⟨.refl w.heap, rfl, rfl, rfl⟩, id⟩) fun _ => .view _

theorem failWith_tame (args : List Value) : (failWith args).Tame := by
  refine .bind (.view _) fun kind => .bind (.view _) fun message => ?_
  cases args[2]? with
  | none => exact .bind (.ofSteady (.of (.runPure _))) fun _ => .fail _
  | some v => exact .bind (.ofExcept _) fun _ => .fail _

theorem readKeywords_tame (keywords : Keywords) : (readKeywords keywords).Tame :=
  .bind (.ofExcept _) fun _ => .bind (.ofExcept _) fun _ => .bind (.ofExcept _) fun _ =>
    .bind (.ofExcept _) fun _ => .bind (.ofExcept _) fun _ => .bind (.ofExcept _) fun _ =>
      .ofSteady (.of (.newList _))

theorem checkToken_tame : checkToken.Tame :=
  .bind (.view _) fun _ => .bind (.ofExcept _) fun _ => .pure _

theorem body_tame (code : String) (call : Caller) (args : List Value) (keywords : Keywords) :
    (body code call args keywords).Tame ∨
      ∃ f rest, args = f :: rest ∧ body code call args keywords = call f rest := by
  unfold body
  split
  · exact .inl (.failOnError (echo_tame args keywords))
  · exact .inl (.failOnError (errorOf_tame args))
  · exact .inl (.bind cancelToken_tame fun _ => .pure _)
  · exact .inl (.failOnError (.bind cancelToken_tame fun _ => errorOf_tame args))
  · exact .inl (.view _)
  · exact .inl (record_tame args)
  · exact .inl (failWith_tame args)
  · exact .inl (readKeywords_tame keywords)
  · exact .inl checkToken_tame
  · cases args with
    | nil => exact .inl (.fail _)
    | cons f rest => exact .inr ⟨f, rest, rfl, rfl⟩
  · exact .inl (.pure _)

end Sample

end Scripting
