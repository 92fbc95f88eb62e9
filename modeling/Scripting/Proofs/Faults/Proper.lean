/-
# What the language's own faults say

Two faults can only come from a script that the parser refuses: an operator with an
assignment to several targets, and a loop variable that is an item. All other faults of
the operators, the methods, the built-ins and the libraries are told apart from these two
by their kind or by their text: a type fault of theirs has a character, such as a quote or
a bracket, that is in neither of the two texts. Faults are made in many places, so this
goes through all of them; here are the values, the operators, the arguments and the
modules.
-/
import Scripting.Proofs.Run.Steady
import Scripting.Proofs.Syntax.Admissible

namespace Scripting

variable {op : BinaryOp} {r : Except Fault Value} {α : Type}

/-- A fault that only a script that the parser refuses could cause. -/
def Fault.Misuse (f : Fault) : Prop :=
  f.kind = .type ∧ (f.message = "augmented assignment needs a single target" ∨
    f.message = "loop variable must be a name")

def Fault.Proper (f : Fault) : Prop := ¬f.Misuse

/-! ### Faults -/

/-- Characters that are in neither of the two texts. -/
def tellingChars : List Char := ['c', 'f', 'k', '(', '\'']

/-- A text put together from pieces, one of which has a character that is in neither of the
two texts. -/
inductive Tells : String → Prop
  | text {chars : List Char} (h : chars.any tellingChars.contains = true) :
      Tells (String.ofList chars)
  | left {a b : String} (h : Tells a) : Tells (a ++ b)
  | right {a b : String} (h : Tells b) : Tells (a ++ b)

theorem Tells.exists_char {text : String} (h : Tells text) :
    ∃ c ∈ text.toList, c ∈ tellingChars := by
  induction h with
  | text h =>
    obtain ⟨c, hc, htells⟩ := List.any_eq_true.1 h
    exact ⟨c, by rwa [String.toList_ofList], List.contains_iff_mem.1 htells⟩
  | left _ ih =>
    obtain ⟨c, hc, htells⟩ := ih
    exact ⟨c, by simp [hc], htells⟩
  | right _ ih =>
    obtain ⟨c, hc, htells⟩ := ih
    exact ⟨c, by simp [hc], htells⟩

theorem Fault.proper_of_tells {f : Fault} (h : Tells f.message) : f.Proper := by
  obtain ⟨c, hc, htells⟩ := h.exists_char
  have hplain : ("augmented assignment needs a single target".toList ++
      "loop variable must be a name".toList).all (fun c => !tellingChars.contains c) = true := by
    decide +kernel
  rintro ⟨-, hm | hm⟩
  all_goals
    rw [hm] at hc
    have hnot := List.all_eq_true.1 hplain c (by simp only [List.mem_append, hc, true_or, or_true])
    rw [List.contains_iff_mem.2 htells] at hnot
    cases hnot

theorem Fault.Proper.atLine {f : Fault} (h : f.Proper) (line : Nat) : (f.atLine line).Proper := by
  unfold Fault.Proper Fault.Misuse at *
  rwa [Fault.kind_atLine, Fault.message_atLine]

@[simp] theorem Fault.of_proper {kind : FaultKind} (h : kind ≠ .type) (message : String) :
    (Fault.of kind message).Proper := fun hf => h hf.1

theorem typeFault_proper {message : String} (h : Tells message) : (typeFault message).Proper :=
  Fault.proper_of_tells h

@[simp] theorem argumentFault_proper (message : String) : (argumentFault message).Proper :=
  Fault.of_proper (by decide) message

@[simp] theorem overflowFault_proper (message : String) : (overflowFault message).Proper :=
  Fault.of_proper (by decide) message

@[simp] theorem indexFault_proper (message : String) : (indexFault message).Proper :=
  Fault.of_proper (by decide) message

@[simp] theorem importFault_proper (message : String) : (importFault message).Proper :=
  Fault.of_proper (by decide) message

@[simp] theorem divisionFault_proper (what : String) : (divisionFault what).Proper :=
  Fault.of_proper (by decide) _

@[simp] theorem integerOverflow_proper : integerOverflow.Proper := overflowFault_proper _

@[simp] theorem mismatch_proper (v : Value) (expected : String) : (v.mismatch expected).Proper :=
  typeFault_proper (.left (.left (.left (.text rfl))))

@[simp] theorem fails_ok {ε : Type} {E : ε → Prop} (a : α) : Fails E (.ok a : Except ε α) := .ok a

@[simp] theorem fails_error {ε : Type} {E : ε → Prop} (e : ε) :
    Fails E (.error e : Except ε α) ↔ E e := ⟨fun h => h e rfl, .error⟩

/-! ### Values -/

section Values

variable (h : Heap)

theorem wordOfFloat_proper (x : Float) : Fails Fault.Proper (Value.wordOfFloat x) := by
  unfold Value.wordOfFloat
  split
  · simp
  · split <;> simp

theorem asInt_proper (v : Value) : Fails Fault.Proper v.asInt := by
  unfold Value.asInt
  split <;> simp [wordOfFloat_proper]

theorem asFloat_proper (v : Value) : Fails Fault.Proper v.asFloat := by
  unfold Value.asFloat
  split <;> simp

theorem asStr_proper (v : Value) : Fails Fault.Proper v.asStr := by
  unfold Value.asStr
  split <;> simp

theorem asList_proper (v : Value) : Fails Fault.Proper v.asList := by
  unfold Value.asList
  split <;> simp

theorem asDict_proper (v : Value) : Fails Fault.Proper v.asDict := by
  unfold Value.asDict
  split <;> simp

@[simp] theorem notCallable_proper (v : Value) : v.notCallable.Proper :=
  typeFault_proper (.left (.left (.text rfl)))

theorem asFunction_proper (v : Value) : Fails Fault.Proper (h.asFunction v) := by
  unfold Heap.asFunction
  split
  · split <;> simp
  · simp

theorem iterate_proper (v : Value) : Fails Fault.Proper (h.iterate v) := by
  unfold Heap.iterate
  split
  case h_4 => exact .error (typeFault_proper (.left (.left (.text rfl))))
  all_goals exact .ok _

theorem compareFloats_proper (a b : Float) : Fails Fault.Proper (Value.compareFloats a b) :=
  .ite (.ok _) (.ite (.ok _) (.ite (.ok _) (.error (typeFault_proper (.text rfl)))))

theorem compare_proper (a b : Value) : Fails Fault.Proper (a.compare b) := by
  unfold Value.compare
  split
  case h_6 => exact .error (typeFault_proper (.left (.left (.left (.text rfl)))))
  all_goals first
    | exact .ok _
    | exact compareFloats_proper _ _

theorem allPairs_proper {α β : Type} {test : α → β → Except Fault Bool}
    (ht : ∀ a b, Fails Fault.Proper (test a b)) : ∀ pairs, Fails Fault.Proper (allPairs test pairs)
  | [] => .ok _
  | (a, b) :: rest => by
    rw [allPairs]
    split
    · exact allPairs_proper ht rest
    · exact ht a b

theorem allEntries_proper {α β : Type} {test : α → β → Except Fault Bool} {other : Table β}
    (ht : ∀ a b, Fails Fault.Proper (test a b)) :
    ∀ entries, Fails Fault.Proper (allEntries test other entries)
  | [] => .ok _
  | (name, a) :: rest => by
    rw [allEntries]
    split
    · exact .ok _
    next b _ =>
      split
      · exact allEntries_proper ht rest
      · exact ht a b

theorem equalsWithin_proper (levels : Nat) (a b : Value) :
    Fails Fault.Proper (h.equalsWithin levels a b) := by
  have hdeep : comparisonFault.Proper := Fault.of_proper (by decide) _
  induction levels generalizing a b with
  | zero =>
    unfold Heap.equalsWithin
    split
    all_goals first
      | exact .ok _
      | exact .ite (.ok _) (.ite (.ok _) (.error hdeep))
  | succ levels ih =>
    unfold Heap.equalsWithin
    split
    all_goals first
      | exact .ok _
      | exact .ite (.ok _) (.ite (.ok _) (allPairs_proper ih _))
      | exact .ite (.ok _) (.ite (.ok _) (allEntries_proper ih _))

theorem equals_proper (a b : Value) : Fails Fault.Proper (h.equals a b) :=
  equalsWithin_proper h comparisonDepth a b

theorem findItemFrom_proper (needle : Value) : ∀ (place : Nat) (items : List Value),
    Fails Fault.Proper (h.findItemFrom needle place items)
  | _, [] => .ok _
  | place, item :: rest => by
    rw [Heap.findItemFrom]
    split
    next f hf => exact .error (equals_proper h item needle f hf)
    · exact .ok _
    · exact findItemFrom_proper needle (place + 1) rest

theorem contains_proper (container needle : Value) : Fails Fault.Proper (h.contains container needle) := by
  unfold Heap.contains
  split
  · split
    · exact .ok _
    next f hf => exact .error (findItemFrom_proper h needle 0 _ f hf)
  · split <;> exact .ok _
  · split
    · exact .ok _
    · exact .error (typeFault_proper (.left (.text rfl)))
  · exact .error (typeFault_proper (.left (.left (.text rfl))))

theorem comesBefore_proper (reverse : Bool) (a b : Value) :
    Fails Fault.Proper (comesBefore reverse a b) := by
  unfold comesBefore
  split
  next f hf => exact .error (compare_proper a b f hf)
  · exact .ok _

theorem sortValues_proper (reverse : Bool) (xs : List Value) :
    Fails Fault.Proper (sortValues reverse xs) :=
  sortBy_fails (comesBefore_proper reverse) _ _ xs

theorem sortKeyed_proper (reverse : Bool) (keyed : List (Value × α)) :
    Fails Fault.Proper (sortKeyed reverse keyed) := by
  have hsort : Fails Fault.Proper
      (sortBy .eight 1000000 (fun a b => comesBefore reverse a.1 b.1) keyed) := by
    refine sortBy_fails (fun a b => ?_) _ _ keyed
    exact comesBefore_proper reverse a.1 b.1
  unfold sortKeyed
  split
  next f hf => exact .error (hsort f hf)
  · exact .ok _

theorem dictKey_proper (v : Value) : Fails Fault.Proper (dictKey v) := by
  unfold dictKey
  split
  · exact .ok _
  · exact .error (typeFault_proper (.left (.text rfl)))

@[simp] theorem notSubscriptable_proper (v : Value) : (notSubscriptable v).Proper :=
  typeFault_proper (.left (.left (.text rfl)))

theorem getItem_proper (container key : Value) : Fails Fault.Proper (h.getItem container key) := by
  unfold Heap.getItem
  split
  · split
    · split <;> simp
    · exact .error (typeFault_proper (.left (.text rfl)))
  · split
    next f hf => exact .error (dictKey_proper key f hf)
    · split <;> simp
  · split
    · split <;> simp
    · exact .error (typeFault_proper (.left (.text rfl)))
  · simp

theorem member_proper (object : Value) (name : String) : Fails Fault.Proper (h.member object name) := by
  unfold Heap.member
  split
  · split <;> simp
  · exact .error (typeFault_proper (.right (.text rfl)))

theorem unpack_proper (v : Value) (expected : Nat) : Fails Fault.Proper (h.unpack v expected) := by
  unfold Heap.unpack
  split
  · exact .error (typeFault_proper (.left (.left (.text rfl))))
  · exact .ite (.error (argumentFault_proper _)) (.ite (.error (argumentFault_proper _)) (.ok _))

theorem format_proper (v : Value) (spec : String) : Fails Fault.Proper (h.format v spec) := by
  refine .ite (.ok _) ?_
  split
  · exact .error (argumentFault_proper _)
  · split
    · exact .error (argumentFault_proper _)
    · exact .ok _

end Values

theorem setItem_proper (container key value : Value) :
    Run.Orderly Fault.Proper (setItem container key value) := by
  unfold setItem
  split
  · split
    · refine .bind (.view _) fun size => ?_
      split
      · exact .changeHeap fun h => .modifyList h _ _
      · exact .fail (indexFault_proper _)
    · exact .fail (typeFault_proper (.left (.text rfl)))
  · exact .bind (.ofExcept (dictKey_proper key)) fun _ => .changeHeap fun h => .modifyDict h _ _
  · exact .fail (typeFault_proper (.left (.left (.text rfl))))

theorem slicePositions_proper (length : Nat) (bounds : SliceBounds) :
    Fails Fault.Proper (slicePositions length bounds) := by
  rw [slicePositions, slicePositionsWith, apply_ite Id.run]
  exact .ite (.error (argumentFault_proper _)) (.ok _)

theorem slice_proper (v : Value) (bounds : SliceBounds) : Run.Orderly Fault.Proper (slice v bounds) := by
  unfold slice
  split
  · exact .bind (.view _) fun _ => .bind (.ofExcept (slicePositions_proper _ _)) fun _ => .newList _
  · exact .bind (.ofExcept (slicePositions_proper _ _)) fun _ => .pure _
  · exact .fail (notSubscriptable_proper v)

/-! ### Operators -/

theorem wordResult_proper (n : Option Int64) : Fails Fault.Proper (wordResult n) := by
  cases n <;> simp [wordResult]

theorem comparison_proper {a b : Value}
    (h : comparison? op a b = some r) : Fails Fault.Proper r := by
  unfold comparison? at h
  split at h
  case h_5 => cases h
  all_goals
    cases h
    split
    next f hf => exact .error (compare_proper a b f hf)
    · exact .ok _

theorem intPower_proper (a b : Int64) : Fails Fault.Proper (intPower a b) :=
  .ite (.error (Fault.of_proper (by decide) _)) <|
    .ite (.ok _) <| .ite (.ok _) <| .ite (.ok _) <| .ite (.ok _) (wordResult_proper _)

theorem intOperation_proper {a b : Int64}
    (h : intOperation? op a b = some r) : Fails Fault.Proper r := by
  unfold intOperation? at h
  split at h
  case h_8 => exact comparison_proper h
  case h_7 =>
    cases h
    exact intPower_proper a b
  all_goals
    cases h
    first
      | exact wordResult_proper _
      | exact .ite (.error (divisionFault_proper _)) (.ok _)
      | exact .ite (.error (divisionFault_proper _)) (wordResult_proper _)

theorem floatOperation_proper {a b : Float}
    (h : floatOperation? op a b = some r) : Fails Fault.Proper r := by
  unfold floatOperation? at h
  split at h
  case h_8 => exact comparison_proper h
  all_goals
    cases h
    first
      | exact .ok _
      | exact .ite (.error (divisionFault_proper _)) (.ok _)
      | exact .ite (.error (Fault.of_proper (by decide) _)) (.ok _)

theorem repeatCount_proper (unitBytes : Nat) (n : Int64) : Fails Fault.Proper (repeatCount unitBytes n) :=
  .ite (.ok _) (.error integerOverflow_proper)

theorem repeatedText_proper (s : String) (n : Int64) : Fails Fault.Proper (repeatedText s n) := by
  unfold repeatedText
  split
  next f hf => exact .error (repeatCount_proper _ n f hf)
  · exact .ok _

theorem repeatedList_proper (r : ListRef) (n : Int64) : Run.Orderly Fault.Proper (repeatedList r n) :=
  .bind (.view _) fun _ => .bind (.ofExcept (repeatCount_proper _ n)) fun _ => .newList _

theorem operation_proper {a b : Value} {act : Run Value}
    (h : operation? op a b = some act) : Run.Orderly Fault.Proper act := by
  unfold operation? at h
  split at h
  case h_1 =>
    obtain ⟨r, hr, rfl⟩ := Option.map_eq_some_iff.1 h
    exact .ofExcept (intOperation_proper hr)
  case h_2 | h_3 | h_4 =>
    obtain ⟨r, hr, rfl⟩ := Option.map_eq_some_iff.1 h
    exact .ofExcept (floatOperation_proper hr)
  case h_5 =>
    split at h
    · cases h
      exact .runPure _
    · obtain ⟨r, hr, rfl⟩ := Option.map_eq_some_iff.1 h
      exact .ofExcept (comparison_proper hr)
  case h_11 => cases h
  all_goals
    split at h
    · cases h
      first
        | exact .ofExcept (repeatedText_proper _ _)
        | exact .bind (.view _) fun _ => .newList _
        | exact repeatedList_proper _ _
    · cases h

theorem binary_proper (op : BinaryOp) (a b : Value) (line : Nat) :
    Run.Orderly Fault.Proper (binary op a b line) := by
  refine .atLine (fun f hf => hf.atLine line) ?_
  split
  · exact .inspect fun h => (equals_proper h a b).map _
  · exact .inspect fun h => (equals_proper h a b).map _
  · exact .inspect fun h => (contains_proper h b a).map _
  · exact .inspect fun h => (contains_proper h b a).map _
  · split
    next act hact => exact operation_proper hact
    · exact .fail (typeFault_proper (.right (.text rfl)))

theorem unary_proper (h : Heap) (op : UnaryOp) (v : Value) : Fails Fault.Proper (unary h op v) := by
  unfold unary
  split
  case h_6 | h_7 => exact .error (typeFault_proper (.right (.text rfl)))
  all_goals first
    | exact .ok _
    | exact wordResult_proper _

/-! ### Arguments -/

theorem only_proper (keywords : Keywords) (function : String) (allowed : List String) :
    Fails Fault.Proper (keywords.only function allowed) := by
  unfold Keywords.only
  split <;> simp [unexpectedKeyword]

theorem named_proper (name : String) (f : Fault) : (Keywords.named name f).Proper := by
  refine Fault.proper_of_tells ?_
  exact .left (.left (.left (.text rfl)))

theorem read_proper (keywords : Keywords) (name : String) (default : α)
    (convert : Value → Except Fault α) : Fails Fault.Proper (keywords.read name default convert) := by
  unfold Keywords.read
  split
  · exact .ok _
  next v _ =>
    cases convert v with
    | error f => exact .error (named_proper name f)
    | ok a => exact .ok _

theorem fillSlots_proper (function : String) : ∀ params args keywords,
    Fails Fault.Proper (fillSlots function params args keywords)
  | [], _, _ => .ok _
  | param :: params, args, keywords => by
    rw [fillSlots]
    split
    · exact .error (argumentFault_proper _)
    · split
      next f hf => exact .error (fillSlots_proper function params _ _ f hf)
      · exact .ok _

theorem fillDefaults_proper (function : String) : ∀ slots,
    Fails Fault.Proper (fillDefaults function slots)
  | [] => .ok _
  | (param, slot) :: rest => by
    rw [fillDefaults]
    split
    · exact .error (argumentFault_proper _)
    · split
      next f hf => exact .error (fillDefaults_proper function rest f hf)
      · exact .ok _

theorem bindArguments_proper (function : String) (params : List ParamSlot) (args : List Value)
    (keywords : Keywords) : Fails Fault.Proper (bindArguments function params args keywords) := by
  refine .ite (.error (argumentFault_proper _)) ?_
  split
  next f hf => exact .error (fillSlots_proper function params args keywords f hf)
  · split
    · exact .error (argumentFault_proper _)
    · exact fillDefaults_proper function _

/-! ### Names and modules -/

theorem resolveName_proper (env : Environment) (scope : ScopeRef) (name : String) (line : Nat) :
    Run.Orderly Fault.Proper (resolveName env scope name line) := by
  refine .bind (.view _) fun bound => ?_
  split
  · exact .pure _
  · split
    · exact .newHost _
    · exact .fail fun h => nomatch h.1

theorem packageOf_proper (part : String) (found : Option Value) {bind : Value → Run Unit}
    (hb : ∀ v, Run.Orderly Fault.Proper (bind v)) :
    Run.Orderly Fault.Proper (packageOf part found bind) := by
  unfold packageOf
  split
  · exact .pure _
  · exact .fail (importFault_proper _)
  · exact .bind (.allocate fun h => .newDict h _) fun _ => .bind (hb _) fun _ => .pure _

theorem bindModule_proper (name : String) (v : Value) :
    Run.Orderly Fault.Proper (bindModule name v) := fun _ => ⟨⟨.refl _, rfl, rfl, rfl⟩, rfl, rfl⟩

theorem bindEntry_proper (r : DictRef) (name : String) (v : Value) :
    Run.Orderly Fault.Proper (bindEntry r name v) := .changeHeap fun h => .modifyDict h r _

theorem importInto_proper (library : Library) : ∀ (r : DictRef) (path : List String),
    Run.Orderly Fault.Proper (importInto r library path)
  | _, [] => .pure _
  | r, [leaf] => by
    refine .bind (.view _) fun known => .ite ?_ (.pure _)
    exact .bind (.newDict _) fun _ => bindEntry_proper r leaf _
  | r, part :: next :: rest =>
    .bind (.view _) fun found => .bind (packageOf_proper part found (bindEntry_proper r part))
      fun package => importInto_proper library package (next :: rest)

theorem importModule_proper (env : Environment) (name : String) :
    Run.Orderly Fault.Proper (importModule env name) := by
  unfold importModule
  split
  · exact .fail (importFault_proper _)
  split
  · exact .pure _
  · refine .bind (.view _) fun known => .ite ?_ (.pure _)
    exact .bind (.newDict _) fun _ => bindModule_proper _ _
  · refine .bind (.view _) fun found => ?_
    exact .bind (packageOf_proper _ found (bindModule_proper _)) fun package =>
      importInto_proper _ package _

/-! ### Targets -/

mutual

/-- A target that a loop can bind has only names in it. What others fail with is a misuse. -/
theorem defineTarget_orderly {E : Fault → Prop} (hE : ∀ f : Fault, f.Proper → E f)
    (scope : ScopeRef) : ∀ {t : Target}, (t.Bindable ∨ ∀ f, E f) → ∀ v,
    Run.Orderly E (defineTarget scope t v)
  | .name name, _, v => by
    rw [defineTarget]
    exact .changeHeap fun h => .define h scope name v
  | .group targets, h, v => by
    rw [defineTarget]
    refine .bind (.inspect fun h f hf => hE f (unpack_proper h v _ f hf)) fun items => ?_
    refine defineTargets_orderly hE scope (fun t ht => h.imp_left fun hgroup => ?_) items
    cases hgroup with
    | group _ each => exact each t ht
  | .index _ _, h, _ => by
    rw [defineTarget]
    refine .fail (h.resolve_left (fun hindex => ?_) _)
    cases hindex

theorem defineTargets_orderly {E : Fault → Prop} (hE : ∀ f : Fault, f.Proper → E f)
    (scope : ScopeRef) : ∀ {ts : List Target}, (∀ t ∈ ts, t.Bindable ∨ ∀ f, E f) → ∀ vs,
    Run.Orderly E (defineTargets scope ts vs)
  | [], _, _ => by
    rw [defineTargets.eq_2 _ _ _ (by simp)]
    exact .pure _
  | _ :: _, _, [] => by
    rw [defineTargets.eq_2 _ _ _ (by simp)]
    exact .pure _
  | t :: ts, h, v :: vs => by
    rw [List.forall_mem_cons] at h
    rw [defineTargets]
    exact .bind (defineTarget_orderly hE scope h.1 v) fun _ => defineTargets_orderly hE scope h.2 vs

end

end Scripting
