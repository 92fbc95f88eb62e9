/-
# Expressions without calls are pure

An expression that calls nothing, lambda bodies aside, changes nothing that was there: not the
names in any scope, not a list or a dict, not the imported modules, the token or the output. It
only adds to the heap, whether it gives a value or fails on the way (`evalExpr_pure`).

A comprehension does write: it binds its targets in a scope of its own. That scope is new, so the
property that goes through the induction is relative to the beginning: a run is confined if from
every world that spares the first one it ends in such a world again (`Run.Confined`).
-/
import Scripting.Eval
import Scripting.Proofs.Footprint
import Scripting.Proofs.Syntax.Parts

namespace Scripting

/-! ### Expressions without calls -/

/-- The expressions that are evaluated with an expression: all that stand directly in it but
the body of a lambda. -/
def Expr.operands : Expr → List Expr
  | .lambda _ params _ => params.filterMap Param.default
  | e => e.parts

/-- An expression without calls of functions and methods, lambda bodies aside. -/
inductive Expr.CallFree : Expr → Prop
  | intro {e : Expr} (hcall : e.isCall = false) (hoperands : ∀ part ∈ e.operands, CallFree part) :
      CallFree e

theorem Expr.mem_parts_of_operands {e part : Expr} (h : part ∈ e.operands) : part ∈ e.parts := by
  cases e with
  | lambda => exact .tail _ h
  | _ => exact h

/-! ### Confined runs -/

/-- The end of a run that spares everything in a first world. It may run out of its budget
only under some condition. -/
def Outcome.Confined {α : Type} (first : World) (short : Prop) : Outcome α → Prop
  | .ok _ w => first.Spares .empty w
  | .fault _ w => first.Spares .empty w
  | .exhausted => short

/-- A run that leaves everything in a first world alone, wherever it starts behind that
world. -/
def Run.Confined {α : Type} (first : World) (short : Prop) (act : Run α) : Prop :=
  ∀ w, first.Spares .empty w → (act w).Confined first short

namespace Run.Confined

variable {α β : Type} {first : World} {short : Prop}

theorem ofAtomic {act : Run α} (h : act.Atomic .empty) : act.Confined first short := by
  intro w hw
  rcases h w with ⟨a, w', hact, hw'⟩ | ⟨f, hact⟩
  · rw [hact]
    exact hw.trans hw'
  · rw [hact]
    exact hw

theorem ofReads {act : Run α} (h : act.Reads) : act.Confined first short := ofAtomic (.ofReads h)

theorem ofSure {act : Run α} (h : act.Sure .empty) : act.Confined first short :=
  ofAtomic (.ofSure h)

theorem pure (a : α) : Run.Confined first short (Pure.pure a : Run α) := ofReads (.pure a)

theorem bind {act : Run α} {next : α → Run β} (ha : act.Confined first short)
    (hn : ∀ w a w', first.Spares .empty w → act w = .ok a w' → (next a).Confined first short) :
    Run.Confined first short (act >>= next) := by
  intro w hw
  have hact := ha w hw
  change (Run.bind act next w).Confined first short
  unfold Run.bind
  cases h : act w with
  | ok a w' =>
    rw [h] at hact
    exact hn w a w' hw h w' hact
  | fault f w' =>
    rw [h] at hact
    exact hact
  | exhausted =>
    rw [h] at hact
    exact hact

theorem andThen {act : Run α} {next : α → Run β} (ha : act.Confined first short)
    (hn : ∀ a, (next a).Confined first short) : Run.Confined first short (act >>= next) :=
  bind ha fun _ a _ _ _ => hn a

theorem atLine {line : Nat} {act : Run α} (h : act.Confined first short) :
    Run.Confined first short (Run.atLine line act) := by
  intro w hw
  have hact := h w hw
  unfold Run.atLine
  cases hw' : act w <;> rw [hw'] at hact <;> exact hact

theorem checkpoint (line : Nat) : Run.Confined first short (checkpoint line) := by
  intro w hw
  unfold Scripting.checkpoint
  split
  · exact hw.trans ⟨.refl _, rfl, .inr rfl, rfl, rfl, rfl, rfl, List.suffix_rfl⟩
  · exact hw.trans ⟨.refl _, rfl, .inr rfl, rfl, rfl, rfl, rfl, List.suffix_cons _ _⟩

/-! ### The forms of expressions -/

section Forms

variable {eval : Expr → Run Value} {line : Nat}

theorem evalTest {e : Expr} (h : (eval e).Confined first short) :
    (evalTest eval e).Confined first short :=
  andThen h fun _ => ofReads (.view _)

theorem evalEach : ∀ {es : List Expr} {done : Array Value},
    (∀ e ∈ es, (eval e).Confined first short) → (evalEach eval done es).Confined first short
  | [], _, _ => pure _
  | e :: _, _, h => andThen (h e (.head _)) fun _ =>
    evalEach fun e he => h e (.tail _ he)

theorem evalEntries : ∀ {es : List DictEntry} {done : Table Value},
    (∀ e ∈ es, (eval e.key).Confined first short ∧ (eval e.value).Confined first short) →
    (evalEntries eval line done es).Confined first short
  | [], _, _ => pure _
  | e :: _, _, h => andThen (h e (.head _)).1 fun _ =>
    andThen (atLine (ofReads (.ofExcept _))) fun _ => andThen (h e (.head _)).2 fun _ =>
      evalEntries fun e he => h e (.tail _ he)

theorem evalLogic {op : LogicOp} {left right : Expr} (hl : (eval left).Confined first short)
    (hr : (eval right).Confined first short) :
    (evalLogic eval op left right).Confined first short := by
  refine andThen hl fun a => andThen (ofReads (.view _)) fun truthy => ?_
  split
  · exact pure _
  · exact pure _
  · exact hr

theorem evalConditional {condition thenValue elseValue : Expr}
    (hc : (eval condition).Confined first short) (ht : (eval thenValue).Confined first short)
    (he : (eval elseValue).Confined first short) :
    (evalConditional eval condition thenValue elseValue).Confined first short := by
  refine andThen (evalTest hc) fun test => ?_
  split
  · exact ht
  · exact he

theorem evalBound {bound : Option Expr} (h : ∀ e ∈ bound.toList, (eval e).Confined first short) :
    (evalBound eval bound).Confined first short := by
  cases bound with
  | none => exact pure _
  | some e =>
    refine andThen (h e (.head _)) fun v => ?_
    split
    · exact pure _
    · exact pure _
    · exact ofReads (.fail _)

theorem evalParams : ∀ {ps : List Param} {done : Array ParamSlot},
    (∀ e ∈ ps.filterMap Param.default, (eval e).Confined first short) →
    (evalParams eval done ps).Confined first short
  | [], _, _ => pure _
  | p :: ps, _, h => by
    rw [List.filterMap_cons] at h
    rw [Scripting.evalParams]
    cases hdefault : p.default with
    | none =>
      rw [hdefault] at h
      exact evalParams h
    | some e =>
      rw [hdefault] at h
      exact andThen (h e (.head _)) fun _ =>
        evalParams fun e he => h e (.tail _ he)

theorem formatParts : ∀ {parts : List FStringPart} {done : String},
    (∀ e ∈ parts.filterMap FStringPart.value?, (eval e).Confined first short) →
    (formatParts eval line done parts).Confined first short
  | [], _, _ => pure _
  | .text _ :: _, _, h => by
    rw [Scripting.formatParts]
    exact formatParts h
  | .field e repr spec :: _, _, h => andThen (h e (.head _)) fun v =>
    andThen (atLine (ofReads (.inspect _))) fun _ =>
      formatParts fun e he => h e (.tail _ he)

end Forms

end Run.Confined

/-! ### Work on data -/

theorem operation?_atomic {op : BinaryOp} {a b : Value} {act : Run Value} {fp : Footprint}
    (h : operation? op a b = some act) : act.Atomic fp := by
  have repeated (r : ListRef) (n : Int64) : (repeatedList r n).Atomic fp :=
    .bind (.view _) fun _ _ _ => .ofBind (.ofExcept _) fun _ => .newList _
  unfold operation? at h
  split at h
  case h_5 =>
    split at h
    · cases h
      exact .ofReads (.pure _)
    · obtain ⟨r, -, rfl⟩ := Option.map_eq_some_iff.1 h
      exact .ofReads (.ofExcept r)
  case h_6 => split at h <;> cases h; exact .ofReads (.ofExcept _)
  case h_7 => split at h <;> cases h; exact .ofReads (.ofExcept _)
  case h_8 => split at h <;> cases h; exact .ofBind (.view _) fun items => .newList items
  case h_9 => split at h <;> cases h; exact repeated _ _
  case h_10 => split at h <;> cases h; exact repeated _ _
  case h_11 => cases h
  all_goals
    obtain ⟨r, -, rfl⟩ := Option.map_eq_some_iff.1 h
    exact .ofReads (.ofExcept r)

theorem binary_confined {first : World} {short : Prop} (op : BinaryOp) (a b : Value) (line : Nat) :
    (binary op a b line).Confined first short := by
  refine .atLine (.ofAtomic ?_)
  split
  iterate 4 exact .ofReads (.inspect _)
  split
  next act hop => exact operation?_atomic hop
  · exact .ofReads (.fail _)

theorem slice_atomic {fp : Footprint} (target : Value) (bounds : SliceBounds) :
    (slice target bounds).Atomic fp := by
  unfold slice
  split
  · exact .bind (.view _) fun _ _ _ => .ofBind (.ofExcept _) fun _ => .newList _
  · exact .ofReads (.bind (.ofExcept _) fun _ => .pure _)
  · exact .ofReads (.fail _)

theorem resolveName_atomic {fp : Footprint} (env : Environment) (scope : ScopeRef) (name : String)
    (line : Nat) : (resolveName env scope name line).Atomic fp := by
  refine .bind (.view _) fun w bound _ => ?_
  split
  · exact .ofReads (.pure _)
  · split
    · exact .ofSure (.newFunction _)
    · exact .ofReads (.fail _)

/-! ### Comprehensions -/

theorem Heap.Spares.define {touches : Value → Prop} {h h' : Heap} (s : h.Spares touches h')
    {inner : ScopeRef} (hinner : h.scopes.size ≤ inner.id) (name : String) (v : Value) :
    h.Spares touches (h'.define inner name v) where
  lists := s.lists
  dicts := s.dicts
  functions := s.functions
  scopes r hr := by
    obtain ⟨hr', heq⟩ := s.scopes r hr
    have hid : inner.id ≠ r.id := by omega
    refine ⟨by simpa [Heap.define, Heap.modifyVars] using hr', ?_⟩
    exact (getD_modify_of_ne _ _ _ hid).trans heq

theorem Heap.Spares.scopes_size_le {touches : Value → Prop} {h h' : Heap}
    (s : h.Spares touches h') : h.scopes.size ≤ h'.scopes.size :=
  Nat.le_of_not_lt fun hlt => Nat.lt_irrefl _ (s.scopes ⟨h'.scopes.size⟩ hlt).1

section Targets

variable {first : World} {short : Prop} {inner : ScopeRef}

mutual

theorem defineTarget_confined (hinner : first.heap.scopes.size ≤ inner.id) :
    ∀ (t : Target) (v : Value), (defineTarget inner t v).Confined first short
  | .name name, v => by
    rw [defineTarget]
    intro w hw
    exact { hw with heap := hw.heap.define hinner name v }
  | .group targets, v => by
    rw [defineTarget]
    exact .andThen (.ofReads (.inspect _)) fun items => defineTargets_confined hinner targets items
  | .index _ _, _ => by
    rw [defineTarget]
    exact .ofReads (.fail _)

theorem defineTargets_confined (hinner : first.heap.scopes.size ≤ inner.id) :
    ∀ (ts : List Target) (vs : List Value), (defineTargets inner ts vs).Confined first short
  | [], _ => by
    rw [defineTargets.eq_2 _ _ _ (by simp)]
    exact .pure _
  | _ :: _, [] => by
    rw [defineTargets.eq_2 _ _ _ (by simp)]
    exact .pure _
  | t :: ts, v :: vs => by
    rw [defineTargets]
    exact .andThen (defineTarget_confined hinner t v) fun _ => defineTargets_confined hinner ts vs

end

end Targets

namespace Run.Confined

variable {α : Type} {first : World} {short : Prop}

theorem foldItems {step : α → Value → Run α}
    (h : ∀ acc item, (step acc item).Confined first short) :
    ∀ {items : List Value} {acc : α}, (foldItems step acc items).Confined first short
  | [], _ => pure _
  | item :: _, acc => andThen (h acc item) fun _ => foldItems h

/-- A comprehension is confined, since the scope that it binds its targets in is new. -/
theorem comprehend {eval : ScopeRef → Expr → Run Value} {line : Nat} {scope : ScopeRef}
    {clause : Clause} {emit : ScopeRef → α → Run α} {start : α}
    (hparts : ∀ inner, ∀ e ∈ clause.parts, (eval inner e).Confined first short)
    (hemit : ∀ inner acc, (emit inner acc).Confined first short) :
    (comprehend eval line scope clause emit start).Confined first short := by
  have hiterable : clause.iterable ∈ clause.parts := .head _
  refine andThen (hparts scope _ hiterable) fun v =>
    andThen (atLine (ofReads (.inspect _))) fun items =>
    bind (ofSure (.allocate fun h => .newScope h _)) fun w inner w' hw hinner => foldItems ?_
  have hnew : first.heap.scopes.size ≤ inner.id := by
    cases hinner
    exact hw.heap.scopes_size_le
  intro acc item
  refine andThen (checkpoint line) fun _ =>
    andThen (atLine (defineTarget_confined hnew _ item)) fun _ => ?_
  split
  · exact hemit inner acc
  next e hcond =>
    have hpart : e ∈ clause.parts := by simp [Clause.parts, hcond]
    refine andThen (evalTest (hparts inner e hpart)) fun test => ?_
    split
    · exact hemit inner acc
    · exact pure _

end Run.Confined

/-! ### Whole expressions -/

/-- An expression without calls is confined. The induction is on the budget, of which every
level of the expression takes one; so it lasts if the expression is not larger. -/
theorem evalExpr_confined (env : Environment) {first : World} {short : Prop} :
    ∀ (fuel : Nat) (scope : ScopeRef) {e : Expr}, e.CallFree → (fuel < sizeOf e → short) →
      (evalExpr env fuel scope e).Confined first short
  | 0, scope, e, _, hshort => by
    rw [evalExpr.eq_def]
    intro w _
    refine hshort ?_
    cases e <;> simp +arith
  | fuel + 1, scope, e, he, hshort => by
    obtain ⟨hcall, hoperands⟩ := he
    have ih (inner : ScopeRef) (part : Expr) (hpart : part ∈ e.operands) :
        (evalExpr env fuel inner part).Confined first short := by
      refine evalExpr_confined env fuel inner (hoperands part hpart) fun hfuel => hshort ?_
      have := Expr.sizeOf_part_lt (Expr.mem_parts_of_operands hpart)
      omega
    rw [evalExpr.eq_def]
    cases e with
    | int | float | str | bool | none => exact .pure _
    | name p name => exact .ofAtomic (resolveName_atomic env scope name p.line)
    | binary p op left right =>
      exact .andThen (ih scope left (by simp [Expr.operands, Expr.parts])) fun a =>
        .andThen (ih scope right (by simp [Expr.operands, Expr.parts])) fun b =>
          binary_confined op a b p.line
    | logic p op left right =>
      exact .evalLogic (ih scope left (by simp [Expr.operands, Expr.parts]))
        (ih scope right (by simp [Expr.operands, Expr.parts]))
    | unary p op operand =>
      exact .andThen (ih scope operand (by simp [Expr.operands, Expr.parts])) fun _ =>
        .atLine (.ofReads (.inspect _))
    | conditional p condition thenValue elseValue =>
      exact .evalConditional (ih scope condition (by simp [Expr.operands, Expr.parts]))
        (ih scope thenValue (by simp [Expr.operands, Expr.parts]))
        (ih scope elseValue (by simp [Expr.operands, Expr.parts]))
    | call | method => cases hcall
    | index p container key =>
      exact .andThen (ih scope container (by simp [Expr.operands, Expr.parts])) fun _ =>
        .andThen (ih scope key (by simp [Expr.operands, Expr.parts])) fun _ =>
          .atLine (.ofReads (.inspect _))
    | slice p container start stop step =>
      simp only [Expr.operands, Expr.parts, List.cons_append, List.forall_mem_cons,
        List.forall_mem_append] at ih
      obtain ⟨hcontainer, ⟨hstart, hstop⟩, hstep⟩ := ih scope
      exact .andThen hcontainer fun target => .andThen (.evalBound hstart) fun _ =>
        .andThen (.evalBound hstop) fun _ => .andThen (.evalBound hstep) fun _ =>
          .atLine (.ofAtomic (slice_atomic target _))
    | member p object name =>
      exact .andThen (ih scope object (by simp [Expr.operands, Expr.parts])) fun _ =>
        .atLine (.ofReads (.inspect _))
    | list p items => exact .andThen (.evalEach (ih scope)) fun _ => .ofSure (.newList _)
    | dict p entries =>
      simp only [Expr.operands, Expr.parts, List.forall_mem_append, List.forall_mem_map] at ih
      obtain ⟨hkeys, hvalues⟩ := ih scope
      exact .andThen (.evalEntries fun entry h => ⟨hkeys entry h, hvalues entry h⟩) fun _ =>
        .ofSure (.newDict _)
    | listOf p item clause =>
      refine .andThen (.comprehend (fun inner part hpart => ?_) fun inner _ => ?_) fun _ =>
        .ofSure (.newList _)
      · exact ih inner part (.tail _ hpart)
      · exact .andThen (ih inner item (.head _)) fun _ => .pure _
    | dictOf p key value clause =>
      refine .andThen (.comprehend (fun inner part hpart => ?_) fun inner _ => ?_) fun _ =>
        .ofSure (.newDict _)
      · exact ih inner part (.tail _ (.tail _ hpart))
      · exact .andThen (ih inner key (by simp [Expr.operands, Expr.parts])) fun _ =>
          .andThen (.atLine (.ofReads (.ofExcept _))) fun _ =>
            .andThen (ih inner value (by simp [Expr.operands, Expr.parts])) fun _ => .pure _
    | lambda p params body =>
      exact .andThen (.evalParams (ih scope)) fun _ => .ofSure (.newFunction _)
    | fstring p parts => exact .andThen (.formatParts (ih scope)) fun _ => .pure _

/-- An expression without calls leaves everything that was there as it was, whether it gives a
value or fails, and it does one of the two if the budget lets it get to the bottom of the
expression. -/
theorem evalExpr_pure (env : Environment) (fuel : Nat) (scope : ScopeRef) {e : Expr}
    (he : e.CallFree) (w : World) :
    (∀ v w', evalExpr env fuel scope e w = .ok v w' → w.Spares .empty w') ∧
    (∀ f w', evalExpr env fuel scope e w = .fault f w' → w.Spares .empty w') ∧
    (sizeOf e ≤ fuel → evalExpr env fuel scope e w ≠ .exhausted) := by
  have hends : (evalExpr env fuel scope e w).Confined w (fuel < sizeOf e) :=
    evalExpr_confined env fuel scope he id w (.refl w)
  refine ⟨fun v w' h => ?_, fun f w' h => ?_, fun hfuel h => ?_⟩
  · rw [h] at hends
    exact hends
  · rw [h] at hends
    exact hends
  · rw [h] at hends
    exact Nat.not_lt.2 hfuel hends

/-- How many scopes and functions there are where a run has failed. -/
def Outcome.failedSizes {α : Type} : Outcome α → Option (Nat × Nat)
  | .ok _ _ => none
  | .fault _ w => some (w.heap.scopes.size, w.heap.functions.size)
  | .exhausted => none

theorem Outcome.of_failedSizes {α : Type} {o : Outcome α} {scopes functions : Nat}
    (h : o.failedSizes = some (scopes, functions)) : ∃ f w, o = .fault f w ∧
      w.heap.scopes.size = scopes ∧ w.heap.functions.size = functions := by
  cases o with
  | fault f w =>
    obtain ⟨hscopes, hfunctions⟩ := Prod.mk.inj (Option.some.inj h)
    exact ⟨f, w, rfl, hscopes, hfunctions⟩
  | _ => cases h

/-- A comprehension over rows binds `a` and `b` for the first row and fails on the second one.
It leaves a scope and a function behind; the `a` outside keeps its value. -/
theorem evalExpr_pure_unpacking :
    let p := Position.start
    let e : Expr := .listOf p (.lambda p [] (.call p (.name p "a") [] []))
      ⟨.group [.name "a", .name "b"], .name p "rows", none⟩
    let vars := (Table.empty.insert "a" (.int 7)).insert "rows" (.list ⟨0⟩)
    let heap : Heap := ⟨#[#[.list ⟨1⟩, .int 3], #[.int 1, .int 2]], #[], #[], #[⟨vars, none, true⟩]⟩
    let w : World := { World.fresh .live .capture with heap := heap }
    let env : Environment := ⟨⟨0⟩, .empty, .empty, fun _ _ _ _ => Run.exhausted, 200, .standard⟩
    e.CallFree ∧ ∃ f w', evalExpr env 5 ⟨0⟩ e w = .fault f w' ∧ w.Spares .empty w' ∧
      w'.heap.scopes.size = 2 ∧ w'.heap.functions.size = 1 ∧
      w'.heap.scope ⟨0⟩ = heap.scope ⟨0⟩ := by
  intro p e vars heap w env
  have he : e.CallFree := by
    refine .intro rfl fun part hpart => ?_
    rcases List.mem_cons.1 hpart with rfl | hpart
    · exact .intro rfl fun part hpart => nomatch hpart
    · cases List.mem_singleton.1 hpart
      exact .intro rfl fun part hpart => nomatch hpart
  have hsizes : (evalExpr env 5 ⟨0⟩ e w).failedSizes = some (2, 1) := by decide +kernel
  obtain ⟨f, w', hrun, hscopes, hfunctions⟩ := Outcome.of_failedSizes hsizes
  obtain ⟨-, hfault, -⟩ := evalExpr_pure env 5 ⟨0⟩ he w
  have hspares := hfault f w' hrun
  exact ⟨he, f, w', hrun, hspares, hscopes, hfunctions, (hspares.heap.scopes ⟨0⟩ (by decide)).2⟩

end Scripting
