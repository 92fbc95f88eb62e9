/-
# Call depth and handled faults are balanced

A call raises the call depth while the body of its function runs, and a handler puts the
fault that it handles on top of those being handled while its block runs. Both take back
what they did, however the body ends: with a value, with a jump or with a fault of any
kind. So every evaluation leaves the call depth and the faults being handled as it found
them (`balancing_everywhere`).

A function of the embedding program reaches neither. It does some work of its own, it
calls functions, and it goes on with what these give back or with their faults
(`HostBody.Uniform`). Nothing else about it is used, here or in `Comparison`.
-/
import Scripting.Proofs.Run.Evaluator
import Scripting.Proofs.Run.Sample

namespace Scripting

/-- The end of a run that leaves the call depth and the faults being handled as they
were. -/
def Outcome.Balanced {α : Type} (w : World) : Outcome α → Prop
  | .ok _ w' => w'.depth = w.depth ∧ w'.handling = w.handling
  | .fault _ w' => w'.depth = w.depth ∧ w'.handling = w.handling
  | .exhausted => True

/-- A run that leaves the call depth and the faults being handled as they were. -/
def Run.Balanced {α : Type} (act : Run α) : Prop := ∀ w, (act w).Balanced w

theorem Outcome.Balanced.trans {α : Type} {w w' : World} {o : Outcome α}
    (h : w'.depth = w.depth ∧ w'.handling = w.handling) (ho : o.Balanced w') : o.Balanced w := by
  cases o with
  | ok a w₁ => exact ⟨ho.1.trans h.1, ho.2.trans h.2⟩
  | fault f w₁ => exact ⟨ho.1.trans h.1, ho.2.trans h.2⟩
  | exhausted => trivial

theorem Run.Tame.balanced {α : Type} {act : Run α} (h : act.Tame) : act.Balanced := by
  intro w
  have hw := h w
  cases hact : act w with
  | ok a w' => rw [hact] at hw; exact ⟨hw.depth, hw.handling⟩
  | fault f w' => rw [hact] at hw; exact ⟨hw.depth, hw.handling⟩
  | exhausted => trivial

/-- Leaving the call depth and the faults being handled as they were. -/
def balancing : Modality where
  holds := Run.Balanced
  steady h := (Run.Tame.ofSteady h).balanced
  bind {_ _ act next} ha hn w := by
    have hw := ha w
    change (Run.bind act next w).Balanced w
    unfold Run.bind
    cases hact : act w with
    | ok a w' => rw [hact] at hw; exact .trans hw (hn w a w' hact w')
    | fault f w' => rw [hact] at hw; exact hw
    | exhausted => trivial
  atLine {_ line act} ha w := by
    have hw := ha w
    unfold Run.atLine
    cases hact : act w <;> rw [hact] at hw <;> exact hw
  checkpoint line moments w := by
    unfold checkpoint
    split <;> exact ⟨rfl, rfl⟩

theorem Run.Steady.balanced {α : Type} {act : Run α} (h : act.Steady) : act.Balanced :=
  balancing.steady h

namespace Run.Balanced

variable {α : Type} {act : Run α}

theorem attempt (h : act.Balanced) : (Run.attempt act).Balanced := by
  intro w
  have hw := h w
  unfold Run.attempt
  cases hact : act w <;> rw [hact] at hw <;> exact hw

/-- What is put on top of the faults being handled is taken off again. -/
theorem whileHandling (h : act.Balanced) (f : Fault) : (whileHandling f act).Balanced := by
  intro w
  have hw := h { w with handling := f :: w.handling }
  have hback {w' : World} (h' : w'.depth = w.depth ∧ w'.handling = f :: w.handling) :
      w'.depth = w.depth ∧ w'.handling.tail = w.handling := ⟨h'.1, by rw [h'.2]; rfl⟩
  unfold Scripting.whileHandling
  cases hact : act { w with handling := f :: w.handling } with
  | ok a w' => rw [hact] at hw; exact hback hw
  | fault g w' => rw [hact] at hw; exact hback hw
  | exhausted => trivial

theorem oneDeeper (h : act.Balanced) : (oneDeeper act).Balanced := by
  intro w
  have hw := h { w with depth := w.depth + 1 }
  have hback {w' : World} (h' : w'.depth = w.depth + 1 ∧ w'.handling = w.handling) :
      w'.depth - 1 = w.depth ∧ w'.handling = w.handling := ⟨by rw [h'.1]; rfl, h'.2⟩
  unfold Scripting.oneDeeper
  cases hact : act { w with depth := w.depth + 1 } with
  | ok a w' => rw [hact] at hw; exact hback hw
  | fault f w' => rw [hact] at hw; exact hback hw
  | exhausted => trivial

end Run.Balanced

/-! ### Host functions -/

/-- Two runs that do the same and differ only in how functions are called: they do some
work that leaves the evaluator's own state alone, they call a function, they go on with
what an earlier part gave back, or they look at its fault. -/
inductive Alike (call call' : Caller) : {α : Type} → Run α → Run α → Prop
  | work {α : Type} {act : Run α} (h : act.Balanced) : Alike call call' act act
  | call (f : Value) (args : List Value) : Alike call call' (call f args) (call' f args)
  | bind {α β : Type} {act act' : Run α} {next next' : α → Run β} (ha : Alike call call' act act')
      (hn : ∀ a, Alike call call' (next a) (next' a)) :
      Alike call call' (act >>= next) (act' >>= next')
  | attempt {α : Type} {act act' : Run α} (ha : Alike call call' act act') :
      Alike call call' (Run.attempt act) (Run.attempt act')

/-- A function of the embedding program that knows its caller only by what it calls. -/
def HostBody.Uniform (body : HostBody) : Prop :=
  ∀ call call' args keywords, Alike call call' (body call args keywords) (body call' args keywords)

theorem Alike.balanced {call call' : Caller} (hcall : ∀ f args, (call f args).Balanced) {α : Type}
    {act act' : Run α} (h : Alike call call' act act') : act.Balanced := by
  induction h with
  | work h => exact h
  | call f args => exact hcall f args
  | bind _ _ iha ihn => exact balancing.andThen iha ihn
  | attempt _ iha => exact iha.attempt

theorem balancing_catches : balancing.Catches where
  attempt h := Run.Balanced.attempt h
  handling h := Run.Balanced.whileHandling h _

/-- Every evaluation is balanced. -/
theorem balancing_everywhere {env : Environment} (hnatives : ∀ code, (env.natives code).Uniform) :
    balancing.Everywhere env where
  exhausted _ := trivial
  newFunction _ _ := ⟨rfl, rfl⟩
  oneDeeper h := Run.Balanced.oneDeeper h
  refuseCall _ _ _ _ _ := ⟨rfl, rfl⟩
  attempt _ _ _ _ _ := balancing.attempt_of_catches balancing_catches
  natives code call args keywords hcall := (hnatives code call call args keywords).balanced hcall

theorem Sample.body_uniform (code : String) : (Sample.body code).Uniform := by
  intro call call' args keywords
  by_cases hcode : code = "apply"
  · subst hcode
    cases args with
    | nil => exact .work (Run.Steady.of (.fail trivial)).balanced
    | cons f rest => exact .call f rest
  have hsame (call' : Caller) : Sample.body code call args keywords =
      Sample.body code call' args keywords := by
    unfold Sample.body
    split
    case h_10 => exact absurd rfl hcode
    all_goals rfl
  -- A caller that gives back nothing shows that what is done is work.
  have hwork : (Sample.body code (fun _ _ => pure .none) args keywords).Balanced := by
    rcases Sample.body_tame code (fun _ _ => pure .none) args keywords with
      htame | ⟨f, rest, -, hbody⟩
    · exact htame.balanced
    · rw [hbody]
      exact balancing.pure _
  rw [← hsame call', hsame fun _ _ => pure .none]
  exact .work hwork

end Scripting
