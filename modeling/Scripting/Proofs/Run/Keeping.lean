/-
# Invariants of runs, and their faults

A run keeps an invariant of worlds and fails with faults of some kind only. This is a
discipline if quiet runs keep the invariant. What catches a fault may use of which kind it is:
the fault goes on from there, or it is being handled while other blocks run
(`Keeping.attemptBlocks`).
-/
import Scripting.Proofs.Run.Evaluator

namespace Scripting

/-- An outcome in a world of which something holds and, if it is a fault, with one of which
something holds. -/
def Outcome.Keeps {α : Type} (I : World → Prop) (P : Fault → Prop) : Outcome α → Prop
  | .ok _ w => I w
  | .fault f w => I w ∧ P f
  | .exhausted => True

theorem Outcome.Keeps.mono {α : Type} {I : World → Prop} {P Q : Fault → Prop}
    (hPQ : ∀ f, P f → Q f) : ∀ {r : Outcome α}, r.Keeps I P → r.Keeps I Q
  | .ok _ _, h => h
  | .fault f _, ⟨hw, hf⟩ => ⟨hw, hPQ f hf⟩
  | .exhausted, _ => trivial

/-- Beginning in a world of which something holds that quiet runs keep, a run ends in such a
world, with a fault of some kind if with any. -/
def keeping {I : World → Prop}
    (hI : ∀ {α : Type} {act : Run α} {a : α} {w w' : World}, act.Quiet → I w → act w = .ok a w' → I w')
    (P : Fault → Prop) : Discipline where
  holds act := ∀ w, I w → (act w).Keeps I P
  quiet {_ act} h w hw := by
    obtain ⟨a, w', hact, -⟩ := h w
    rw [hact]
    exact hI h hw hact
  bind {_ _ act next} ha hn w hw := by
    have h := ha w hw
    change (Run.bind act next w).Keeps _ _
    unfold Run.bind
    cases hact : act w with
    | ok a w' => rw [hact] at h; exact hn w a w' hact w' h
    | fault f w' => rw [hact] at h; exact h
    | exhausted => exact trivial

namespace Keeping

variable {I : World → Prop} {P Q : Fault → Prop} {α β : Type} {line : Nat} {body : List Stmt}
  {hI : ∀ {α : Type} {act : Run α} {a : α} {w w' : World}, act.Quiet → I w → act w = .ok a w' → I w'}

theorem mono (hPQ : ∀ f, P f → Q f) {act : Run α} (h : (keeping hI P).holds act) :
    (keeping hI Q).holds act :=
  fun w hw => (h w hw).mono hPQ

theorem atLine (hPQ : ∀ f, P f → Q (f.atLine line)) {act : Run α}
    (h : (keeping hI P).holds act) : (keeping hI Q).holds (Run.atLine line act) := by
  intro w hw
  have h := h w hw
  unfold Run.atLine
  cases hact : act w with
  | ok a w' => rw [hact] at h; exact h
  | fault f w' => rw [hact] at h; exact ⟨h.1, hPQ f h.2⟩
  | exhausted => exact trivial

theorem fail {f : Fault} (hf : P f) : (keeping hI P).holds (Run.fail f : Run α) :=
  fun _ hw => ⟨hw, hf⟩

theorem exhausted : (keeping hI P).holds (Run.exhausted : Run α) := fun _ _ => trivial

/-! ### Caught faults -/

/-- What is done about a fault may use of which kind it is. -/
theorem attempt {act : Run α} {next : Except Fault α → Run β}
    (ha : (keeping hI P).holds act) (hok : ∀ a, (keeping hI Q).holds (next (.ok a)))
    (hfault : ∀ f, P f → (keeping hI Q).holds (next (.error f))) :
    (keeping hI Q).holds (Run.attempt act >>= next) := by
  intro w hw
  have h := ha w hw
  change (Run.bind (Run.attempt act) next w).Keeps _ _
  unfold Run.bind Run.attempt
  cases hact : act w with
  | ok a w' => rw [hact] at h; exact hok a w' h
  | fault f w' => rw [hact] at h; exact hfault f h.2 w' h.1
  | exhausted => exact trivial

theorem whileHandling {f : Fault} (hpush : ∀ w, I w → I { w with handling := f :: w.handling })
    (hpop : ∀ w, I w → I { w with handling := w.handling.tail }) {act : Run α}
    (ha : (keeping hI P).holds act) : (keeping hI P).holds (whileHandling f act) := by
  intro w hw
  have h := ha _ (hpush w hw)
  unfold Scripting.whileHandling
  cases hact : act { w with handling := f :: w.handling } with
  | ok a w' => rw [hact] at h; exact hpop w' h
  | fault g w' => rw [hact] at h; exact ⟨hpop w' h.1, h.2⟩
  | exhausted => exact trivial

/-- A block with its handlers. Every fault in its blocks may leave it. -/
theorem attemptBlocks {block : List Stmt → Run Flow} {scope : ScopeRef} {handlers : List Handler}
    {otherwise always : Option (List Stmt)} {p : Position}
    (hpush : ∀ f w, P f → I w → I { w with handling := f :: w.handling })
    (hpop : ∀ w, I w → I { w with handling := w.handling.tail })
    (hb : ∀ b ∈ (Stmt.attempt p body handlers otherwise always).runs,
      (keeping hI P).holds (block b)) :
    (keeping hI P).holds (Scripting.attempt block scope body handlers otherwise always) := by
  have hmem (b : List Stmt) : b ∈ (Stmt.attempt p body handlers otherwise always).runs ↔
      ((b = body ∨ ∃ k ∈ handlers, k.body = b) ∨ otherwise = some b) ∨ always = some b := by
    simp [Stmt.runs, Stmt.blocks, or_assoc]
  have hcaught (f : Fault) (hf : P f) :
      (keeping hI P).holds (handleFault block scope handlers f) := by
    have hfail : (keeping hI P).holds (Run.fail f : Run Flow) := fail hf
    have hpair : (keeping hI P).pairing.Fits (handleFault block scope handlers f) :=
      (keeping hI P).pairing.handleFault hfail fun k hk => whileHandling (hpush f · hf) hpop
        (hb _ ((hmem _).2 (.inl (.inl (.inr ⟨k, hk, rfl⟩)))))
    exact hpair
  have hfirst : (keeping hI P).holds (attemptBody block scope body handlers otherwise) := by
    refine attempt (hb _ ((hmem _).2 (.inl (.inl (.inl rfl))))) (fun flow => ?_) hcaught
    cases flow with
    | normal =>
      cases otherwise with
      | none => exact (keeping hI P).pure _
      | some rest => exact hb _ ((hmem _).2 (.inl (.inr rfl)))
    | _ => exact (keeping hI P).pure _
  unfold Scripting.attempt
  split
  · exact hfirst
  next last =>
    have hlast := hb last ((hmem _).2 (.inr rfl))
    refine attempt hfirst (fun flow => ?_) fun f hf => ?_
    · refine (keeping hI P).andThen hlast fun flow => ?_
      split <;> exact (keeping hI P).pure _
    refine (keeping hI P).andThen hlast fun flow => ?_
    split
    · exact fail hf
    · exact (keeping hI P).pure _

/-! ### Calls -/

theorem oneDeeper (hdepth : ∀ w depth, I w → I { w with depth := depth }) {act : Run α}
    (h : (keeping hI P).holds act) : (keeping hI P).holds (oneDeeper act) := by
  intro w hw
  have h := h _ (hdepth w (w.depth + 1) hw)
  unfold Scripting.oneDeeper
  cases hact : act { w with depth := w.depth + 1 } with
  | ok a w' => rw [hact] at h; exact hdepth w' _ h
  | fault f w' => rw [hact] at h; exact ⟨hdepth w' _ h.1, h.2⟩
  | exhausted => exact trivial

theorem enterCall {block : ScopeRef → List Stmt → Run Flow} {c : Closure} {maxDepth : Nat}
    {args : List Value} {keywords : Keywords}
    (hdepth : ∀ w depth, I w → I { w with depth := depth })
    (hrefuse : ∀ depth, (keeping hI P).holds (refuseCall maxDepth depth c.name line : Run Value))
    (hargs : (keeping hI P).holds
      (Run.atLine line (Run.ofExcept (bindArguments c.name c.params args keywords))))
    (hbody : ∀ scope, (keeping hI P).holds (block scope c.body)) :
    (keeping hI P).holds (enterCall block maxDepth c args keywords line) := by
  refine (keeping hI P).andThen ((keeping hI P).view _) fun depth => ?_
  split
  · exact hrefuse depth
  refine (keeping hI P).andThen hargs fun values => ?_
  refine (keeping hI P).andThen
    ((keeping hI P).quiet (.allocate fun x => .newCallFrame x c values)) fun frame => ?_
  refine (keeping hI P).andThen (oneDeeper hdepth (hbody frame)) fun flow => ?_
  split <;> exact (keeping hI P).pure _

end Keeping

end Scripting
