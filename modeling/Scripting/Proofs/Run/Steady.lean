/-
# Runs that only work on data

Most of what an evaluation does is work on data: it reads and changes lists and
dicts, binds names, writes output, makes host functions. Such a run ends, with a
value or a fault. It leaves the token, the call depth, the faults being handled
and the warnings as they were, it makes no function that is written in the
language, and every scope that was there stays where it was and what it was
(`World.Steady`). The operators, the methods, the built-ins that call nothing,
imports and the binding of names are all of this kind. What such a run fails with can
be told along with it (`Run.Orderly`).
-/
import Scripting.Proofs.Faults.Fails
import Scripting.Session

namespace Scripting

variable (h : Heap)

/-- The function written in the language that a function is, if it is one. -/
def Callable.closure? : Callable → Option Closure
  | .script closure => some closure
  | .host _ => none

namespace Heap

/-- The functions written in the language, in the order they were made. -/
def closures : List Closure := h.functions.toList.filterMap Callable.closure?

def shape : List (Option ScopeRef × Bool) :=
  h.scopes.toList.map fun s => (s.parent, s.isFrame)

theorem shape_modifyVars (r : ScopeRef) (f : Table Value → Table Value) :
    (h.modifyVars r f).shape = h.shape := by
  refine List.ext_getElem? fun i => ?_
  simp only [shape, modifyVars, List.getElem?_map, Array.getElem?_toList, Array.getElem?_modify]
  by_cases hi : r.id = i
  · simp [hi, Function.comp_def]
  · simp [hi]

theorem shape_newScope (s : Scope) : h.shape <+: (h.newScope s).2.shape := by
  simp [shape, newScope]

theorem closures_newFunction_host (f : HostFunction) :
    (h.newFunction (.host f)).2.closures = h.closures := by
  simp [closures, newFunction, Callable.closure?]

theorem closures_newFunction_script (c : Closure) :
    (h.newFunction (.script c)).2.closures = h.closures ++ [c] := by
  simp [closures, newFunction, Callable.closure?]

theorem mem_closures {h : Heap} {r : FunctionRef} {c : Closure}
    (hr : h.function? r = some (.script c)) : c ∈ h.closures := by
  rw [closures, List.mem_filterMap]
  refine ⟨.script c, ?_, rfl⟩
  rw [Array.mem_toList_iff]
  exact Array.mem_of_getElem? hr

theorem mem_closures_of_asFunction {h : Heap} {v : Value} {c : Closure}
    (hv : h.asFunction v = .ok (.script c)) : c ∈ h.closures := by
  unfold asFunction at hv
  split at hv
  next r =>
    split at hv <;> cases hv
    exact mem_closures ‹_›
  · cases hv

/-- The heap changed only in its lists, its dicts, its host functions and the
names in its scopes, or by scopes that were added. -/
structure Steady (h h' : Heap) : Prop where
  closures : h'.closures = h.closures
  shape : h.shape <+: h'.shape

namespace Steady

theorem refl : h.Steady h := ⟨rfl, List.prefix_rfl⟩

theorem trans {h₁ h₂ h₃ : Heap} (h : h₁.Steady h₂) (h' : h₂.Steady h₃) : h₁.Steady h₃ :=
  ⟨h'.closures.trans h.closures, h.shape.trans h'.shape⟩

theorem newList (h : Heap) (items : Array Value) : h.Steady (h.newList items).2 :=
  ⟨rfl, List.prefix_rfl⟩

theorem modifyList (h : Heap) (r : ListRef) (f : Array Value → Array Value) :
    h.Steady (h.modifyList r f) := ⟨rfl, List.prefix_rfl⟩

theorem newDict (h : Heap) (entries : Table Value) : h.Steady (h.newDict entries).2 :=
  ⟨rfl, List.prefix_rfl⟩

theorem modifyDict (h : Heap) (r : DictRef) (f : Table Value → Table Value) :
    h.Steady (h.modifyDict r f) := ⟨rfl, List.prefix_rfl⟩

theorem newHost (f : HostFunction) : h.Steady (h.newFunction (.host f)).2 :=
  ⟨h.closures_newFunction_host f, List.prefix_rfl⟩

theorem newScope (h : Heap) (s : Scope) : h.Steady (h.newScope s).2 :=
  ⟨rfl, h.shape_newScope s⟩

theorem define (h : Heap) (r : ScopeRef) (name : String) (v : Value) :
    h.Steady (h.define r name v) :=
  ⟨rfl, (h.shape_modifyVars r _).symm ▸ List.prefix_rfl⟩

theorem assign (h : Heap) (r : ScopeRef) (name : String) (v : Value) :
    h.Steady (h.assign r name v) := by
  unfold Heap.assign
  split
  · exact define h _ name v
  · exact define h _ name v

theorem newCallFrame (h : Heap) (closure : Closure) (values : List Value) :
    h.Steady (Scripting.newCallFrame h closure values).2 := by
  unfold Scripting.newCallFrame
  generalize (closure.params.map ParamSlot.name).zip values = bindings
  have hframe : h.Steady (h.newFrame closure.scope).2 := newScope h _
  generalize h.newFrame closure.scope = made at hframe ⊢
  obtain ⟨frame, h₁⟩ := made
  simp only at hframe ⊢
  induction bindings generalizing h₁ with
  | nil => exact hframe
  | cons b rest ih => exact ih _ (hframe.trans (define h₁ frame b.1 b.2))

end Steady

end Heap

/-- What belongs to the evaluator itself is intact: the functions written in the
language, the scopes, the call depth, the faults being handled, the warnings. -/
structure World.Intact (w w' : World) : Prop where
  heap : w.heap.Steady w'.heap
  depth : w'.depth = w.depth
  handling : w'.handling = w.handling
  warnings : w'.warnings = w.warnings

/-- The world changed only in data: the token is as it was and no moment has passed, too. -/
structure World.Steady (w w' : World) : Prop extends World.Intact w w' where
  token : w'.token = w.token
  now : w'.now = w.now

namespace World.Intact

theorem refl (w : World) : w.Intact w := ⟨.refl _, rfl, rfl, rfl⟩

theorem trans {w₁ w₂ w₃ : World} (h : w₁.Intact w₂) (h' : w₂.Intact w₃) : w₁.Intact w₃ :=
  ⟨h.heap.trans h'.heap, h'.depth.trans h.depth, h'.handling.trans h.handling,
    h'.warnings.trans h.warnings⟩

end World.Intact

namespace World.Steady

theorem refl (w : World) : w.Steady w := ⟨.refl w, rfl, rfl⟩

theorem trans {w₁ w₂ w₃ : World} (h : w₁.Steady w₂) (h' : w₂.Steady w₃) : w₁.Steady w₃ :=
  ⟨h.toIntact.trans h'.toIntact, h'.token.trans h.token, h'.now.trans h.now⟩

theorem ofHeap (w : World) {h : Heap} (hh : w.heap.Steady h) : w.Steady { w with heap := h } :=
  ⟨⟨hh, rfl, rfl, rfl⟩, rfl, rfl⟩

end World.Steady

def Run.Steady {α : Type} (act : Run α) : Prop :=
  ∀ w, match act w with
    | .ok _ w' => w.Steady w'
    | .fault _ w' => w.Steady w'
    | .exhausted => False

/-- A run that only works on data, and that fails with faults of a sort only. -/
def Run.Orderly {α : Type} (E : Fault → Prop) (act : Run α) : Prop :=
  ∀ w, match act w with
    | .ok _ w' => w.Steady w'
    | .fault f w' => w.Steady w' ∧ E f
    | .exhausted => False

namespace Run.Orderly

variable {α β : Type} {E : Fault → Prop}

theorem pure (a : α) : Run.Orderly E (Pure.pure a : Run α) := fun w => .refl w

theorem runPure (a : α) : Run.Orderly E (Run.pure a) := fun w => .refl w

theorem fail {f : Fault} (h : E f) : Run.Orderly E (Run.fail f : Run α) := fun w => ⟨.refl w, h⟩

theorem view (f : World → α) : Run.Orderly E (Run.view f) := fun w => .refl w

theorem bind {act : Run α} {next : α → Run β} (ha : act.Orderly E) (hn : ∀ a, (next a).Orderly E) :
    Run.Orderly E (act >>= next) := by
  intro w
  have h := ha w
  change match Run.bind act next w with | .ok _ w' => _ | .fault _ w' => _ | .exhausted => _
  unfold Run.bind
  cases hw : act w with
  | ok a w₁ =>
    rw [hw] at h
    have h' := hn a w₁
    simp only
    cases hw' : next a w₁ with
    | ok b w₂ => rw [hw'] at h'; exact h.trans h'
    | fault f w₂ => rw [hw'] at h'; exact ⟨h.trans h'.1, h'.2⟩
    | exhausted => rw [hw'] at h'; exact h'.elim
  | fault f w₁ => rw [hw] at h; exact h
  | exhausted => rw [hw] at h; exact h.elim

theorem ite {p : Prop} [Decidable p] {act other : Run α} (ha : act.Orderly E)
    (ho : other.Orderly E) : Run.Orderly E (if p then act else other) := by
  split
  · exact ha
  · exact ho

theorem ofExcept {r : Except Fault α} (h : Fails E r) : Run.Orderly E (Run.ofExcept r) := by
  intro w
  cases r with
  | ok a => exact .refl w
  | error f => exact ⟨.refl w, h f rfl⟩

theorem inspect {f : Heap → Except Fault α} (h : ∀ x, Fails E (f x)) :
    Run.Orderly E (Run.inspect f) := by
  intro w
  unfold Run.inspect
  cases hf : f w.heap with
  | ok a => exact .refl w
  | error e => exact ⟨.refl w, h w.heap e hf⟩

theorem atLine {line : Nat} (hE : ∀ f, E f → E (f.atLine line)) {act : Run α} (h : act.Orderly E) :
    Run.Orderly E (Run.atLine line act) := by
  intro w
  have h' := h w
  unfold Run.atLine
  cases hw : act w with
  | ok a w' => rw [hw] at h'; exact h'
  | fault f w' => rw [hw] at h'; exact ⟨h'.1, hE f h'.2⟩
  | exhausted => rw [hw] at h'; exact h'

theorem changeHeap {f : Heap → Heap} (h : ∀ x : Heap, x.Steady (f x)) :
    Run.Orderly E (Run.changeHeap f) := fun w => .ofHeap w (h w.heap)

theorem allocate {f : Heap → α × Heap} (h : ∀ x : Heap, x.Steady (f x).2) :
    Run.Orderly E (Run.allocate f) := fun w => .ofHeap w (h w.heap)

theorem newList (items : Array Value) : Run.Orderly E (Run.newList items) :=
  bind (allocate fun h => .newList h items) fun _ => pure _

theorem newDict (entries : Table Value) : Run.Orderly E (Run.newDict entries) :=
  bind (allocate fun h => .newDict h entries) fun _ => pure _

theorem newHost (f : HostFunction) : Run.Orderly E (Run.newFunction (.host f)) :=
  bind (allocate fun h => .newHost h f) fun _ => pure _

theorem newRows : ∀ (rows : List (List Value)) (done : Array Value),
    Run.Orderly E (Run.newRows done rows)
  | [], _ => pure _
  | row :: rest, _ => bind (newList row.toArray) fun _ => newRows rest _

theorem newTable (rows : List (List Value)) : Run.Orderly E (Run.newTable rows) :=
  bind (newRows rows #[]) fun items => newList items

theorem imp {E' : Fault → Prop} (hE : ∀ f, E f → E' f) {act : Run α} (h : act.Orderly E) :
    act.Orderly E' := by
  intro w
  have h' := h w
  cases hw : act w with
  | ok a w' => rw [hw] at h'; exact h'
  | fault f w' => rw [hw] at h'; exact ⟨h'.1, hE f h'.2⟩
  | exhausted => rw [hw] at h'; exact h'

theorem faults {act : Run α} (h : act.Orderly E) : act.Faults E := by
  intro w f w' hw
  have h' := h w
  rw [hw] at h'
  exact h'.2

end Run.Orderly

theorem Run.Steady.of {α : Type} {act : Run α} (h : act.Orderly fun _ => True) : act.Steady := by
  intro w
  have h' := h w
  cases hw : act w with
  | ok a w' => rw [hw] at h'; exact h'
  | fault f w' => rw [hw] at h'; exact h'.1
  | exhausted => rw [hw] at h'; exact h'

theorem Run.Steady.atLine {α : Type} {line : Nat} {act : Run α} (h : act.Steady) :
    Run.Steady (Run.atLine line act) := by
  intro w
  have h' := h w
  unfold Run.atLine
  cases hw : act w <;> rw [hw] at h' <;> exact h'

theorem Run.Orderly.steady {α : Type} {E : Fault → Prop} {act : Run α} (h : act.Orderly E) :
    act.Steady := .of (h.imp fun _ _ => trivial)

/-! ### Documents -/

mutual

theorem ofDocument_steady (h : Heap) : ∀ d : Document, h.Steady (h.ofDocument d).2
  | .null | .bool _ | .int _ | .float _ | .text _ => .refl h
  | .array items => by
    rw [Heap.ofDocument]
    exact (ofDocuments_steady h items).trans (.newList _ _)
  | .object entries => by
    rw [Heap.ofDocument]
    exact (ofEntries_steady h entries .empty).trans (.newDict _ _)

theorem ofDocuments_steady (h : Heap) : ∀ ds : List Document, h.Steady (h.ofDocuments ds).2
  | [] => .refl h
  | d :: rest => by
    rw [Heap.ofDocuments]
    exact (ofDocument_steady h d).trans (ofDocuments_steady _ rest)

theorem ofEntries_steady (h : Heap) : ∀ (entries : List (String × Document)) (t : Table Value),
    h.Steady (h.ofEntries entries t).2
  | [], _ => .refl h
  | (key, d) :: rest, t => by
    rw [Heap.ofEntries]
    exact (ofDocument_steady h d).trans (ofEntries_steady _ rest _)

end

end Scripting
