/-
# What the faults of methods, built-ins and libraries say

The second part of the way through all faults: none of the methods, the built-ins and the
functions of the libraries makes one of the two faults of a script that the parser refuses.
-/
import Scripting.Proofs.Faults.Proper

namespace Scripting

variable (h : Heap)

/-! ### Methods -/

theorem fieldArgument_proper (args : List Value) (keywords : Keywords) (unnamed : Nat)
    (field : List Char) : Fails Fault.Proper (fieldArgument args keywords unnamed field) := by
  have hargument (n : Nat) : Fails Fault.Proper (templateArgument args n) := by
    unfold templateArgument
    split <;> simp
  refine .ite ((hargument unnamed).map _) ?_
  split
  · exact (hargument _).map _
  · dsimp only
    split <;> simp

theorem fillPieces_proper (h : Heap) (args : List Value) (keywords : Keywords) :
    ∀ (unnamed : Nat) (pieces : List TemplatePiece),
    Fails Fault.Proper (h.fillPieces args keywords unnamed pieces)
  | _, [] => .ok _
  | unnamed, .char _ :: rest => (fillPieces_proper h args keywords unnamed rest).map _
  | _, .broken _ :: _ => .error (argumentFault_proper _)
  | unnamed, .field _ :: rest =>
    (fieldArgument_proper args keywords unnamed _).bind fun found =>
      (format_proper h found.1 _).bind fun _ =>
        (fillPieces_proper h args keywords found.2 rest).bind fun _ => .pure _

theorem signatureCheck_proper (s : Signature) (method : String) (args : List Value)
    (keywords : Keywords) : Fails Fault.Proper (s.check method args keywords) := by
  refine .ite (.error (argumentFault_proper _)) ?_
  split
  · exact only_proper keywords method _
  · exact .ok _

namespace TextMethod

theorem stripped_proper (arg : Option Value) : Fails Fault.Proper (stripped arg) := by
  unfold stripped
  split
  · exact .ok _
  · exact .ok _
  · split
    next f hf => exact .error (asStr_proper _ f hf)
    · exact .ok _

theorem splitPieces_proper (s : String) (separator : Option Value) :
    Fails Fault.Proper (splitPieces s separator) := by
  unfold splitPieces
  split
  · exact .ok _
  · exact .ok _
  · split
    next f hf => exact .error (asStr_proper _ f hf)
    · exact .ite (.error (argumentFault_proper _)) (.ok _)

theorem textItems_proper : ∀ (place : Nat) (items : List Value),
    Fails Fault.Proper (textItems place items)
  | _, [] => .ok _
  | place, v :: rest => by
    unfold textItems
    split
    · exact .ok _
    next hcons =>
      cases hcons
      exact (textItems_proper (place + 1) rest).map _
    · exact .error (typeFault_proper (.left (.left (.left (.left (.text rfl))))))

theorem replaced_proper (s : String) (old new : Value) (count : Option Value) :
    Fails Fault.Proper (replaced s old new count) := by
  refine (asStr_proper old).bind fun _ => (asStr_proper new).bind fun _ => ?_
  split
  · exact .pure _
  · exact (asInt_proper _).bind fun _ => .ite (.pure _) (.pure _)

theorem run_proper (method : TextMethod) (s : String) (args : List Value) (keywords : Keywords) :
    Run.Orderly Fault.Proper (method.run s args keywords) := by
  cases method with
  | upper | lower | capitalize | title | isdigit | isalpha => exact .pure _
  | strip | lstrip | rstrip => exact .bind (.ofExcept (stripped_proper _)) fun _ => .pure _
  | split => exact .bind (.ofExcept (splitPieces_proper s _)) fun _ => .newList _
  | join =>
    rw [run]
    refine .inspect fun h => ?_
    exact (iterate_proper h _).bind fun _ => (textItems_proper 0 _).bind fun _ => .pure _
  | replace => exact .bind (.ofExcept (replaced_proper s _ _ _)) fun _ => .pure _
  | startswith | endswith | count => exact .bind (.ofExcept (asStr_proper _)) fun _ => .pure _
  | find =>
    refine .bind (.ofExcept (asStr_proper _)) fun _ => ?_
    split
    · exact .pure _
    · exact .pure _
  | format => exact .inspect fun h => ((fillPieces_proper h args keywords 0 _).map _).map _

end TextMethod

namespace ListMethod

theorem change_proper {α : Type} (r : ListRef) (f : Array Value → Array Value) (a : α) :
    Run.Orderly Fault.Proper (do Run.changeHeap fun h => h.modifyList r f; return a) :=
  .bind (.changeHeap fun h => .modifyList h r f) fun _ => .pure a

theorem appendAll_proper (r : ListRef) (items : List Value) :
    Run.Orderly Fault.Proper (appendAll r items) := change_proper r _ _

theorem popItem_proper (r : ListRef) (place : Option Value) :
    Run.Orderly Fault.Proper (popItem r place) := by
  unfold popItem
  split <;> refine .bind ?_ fun i => .bind (.inspect fun h => ?_) fun _ => change_proper r _ _
  · exact .ofExcept (asInt_proper _)
  · dsimp only
    split <;> simp
  · exact .pure _
  · dsimp only
    split <;> simp

theorem place_proper (r : ListRef) (item : Value) : Fails Fault.Proper (place h r item) := by
  unfold place
  split
  next f hf => exact .error (findItemFrom_proper h item 0 _ f hf)
  · exact .ok _
  · exact .error (indexFault_proper _)

theorem countItems_proper (h : Heap) (needle : Value) : ∀ (found : Nat) (items : List Value),
    Fails Fault.Proper (countItems h needle found items)
  | _, [] => .ok _
  | found, item :: rest => by
    rw [countItems]
    split
    next f hf => exact .error (equals_proper h item needle f hf)
    · exact countItems_proper h needle _ rest

theorem run_proper (method : ListMethod) (r : ListRef) (args : List Value) (keywords : Keywords) :
    Run.Orderly Fault.Proper (method.run r args keywords) := by
  cases method with
  | append => exact appendAll_proper r _
  | extend => exact .bind (.inspect fun h => iterate_proper h _) fun _ => appendAll_proper r _
  | pop => exact popItem_proper r _
  | insert => exact .bind (.ofExcept (asInt_proper _)) fun _ => change_proper r _ _
  | index => exact .inspect fun h => (place_proper h r _).map _
  | count =>
    rw [run]
    refine .inspect fun h => ?_
    exact (countItems_proper h _ 0 _).map _
  | remove => exact .bind (.inspect fun h => place_proper h r _) fun _ => change_proper r _ _
  | clear | reverse => exact change_proper r _ _
  | copy => exact .bind (.view _) fun _ => .newList _
  | sort =>
    refine .bind (.inspect fun h => ?_) fun _ => change_proper r _ _
    exact (read_proper keywords "reverse" false _).bind fun _ => sortValues_proper _ _

end ListMethod

namespace DictMethod

theorem change_proper {α : Type} (r : DictRef) (f : Table Value → Table Value) (a : α) :
    Run.Orderly Fault.Proper (do Run.changeHeap fun h => h.modifyDict r f; return a) :=
  .bind (.changeHeap fun h => .modifyDict h r f) fun _ => .pure a

theorem popEntry_proper (r : DictRef) (key : String) (default : Option Value) :
    Run.Orderly Fault.Proper (popEntry r key default) := by
  refine .bind (.inspect fun h => ?_) fun _ => change_proper r _ _
  split <;> simp

theorem updateEntries_proper (r : DictRef) (other : Option Value) (keywords : Keywords) :
    Run.Orderly Fault.Proper (updateEntries r other keywords) := by
  unfold updateEntries
  split
  · exact .bind (.inspect fun h => (asDict_proper _).map _) fun _ => change_proper r _ _
  · exact .bind (.pure _) fun _ => change_proper r _ _

theorem run_proper (method : DictMethod) (r : DictRef) (args : List Value) (keywords : Keywords) :
    Run.Orderly Fault.Proper (method.run r args keywords) := by
  have hkey : Run.Orderly Fault.Proper (Run.ofExcept (dictKey (args.headD .none))) :=
    .ofExcept (dictKey_proper _)
  refine .bind (.view _) fun entries => ?_
  cases method with
  | keys | values => exact .newList _
  | items => exact .newTable _
  | get => exact .bind hkey fun _ => .pure _
  | pop => exact .bind hkey fun _ => popEntry_proper r _ _
  | setdefault =>
    refine .bind hkey fun _ => .bind (.view _) fun found => ?_
    split
    · exact .pure _
    · exact change_proper r _ _
  | update => exact updateEntries_proper r _ keywords
  | clear => exact change_proper r _ _
  | copy => exact .newDict _

end DictMethod

theorem callMethod_proper {v : Value} {name : String} {args : List Value} {keywords : Keywords}
    {act : Run Value} (h : callMethod? v name args keywords = some act) :
    Run.Orderly Fault.Proper act := by
  unfold callMethod? at h
  cases v with
  | str | list | dict =>
    obtain ⟨m, -, rfl⟩ := Option.map_eq_some_iff.1 h
    exact .bind (.ofExcept (signatureCheck_proper _ _ _ _)) fun _ => m.run_proper _ args keywords
  | _ => cases h

/-! ### Built-ins -/

theorem argCount_proper (count : ArgCount) (function : String) (args : List Value) :
    Fails Fault.Proper (count.check function args) := by
  cases count with
  | exactly n => exact .ite (.ok _) (.error (argumentFault_proper _))
  | between least most => exact .ite (.ok _) (.error (argumentFault_proper _))
  | any => exact .ok _

theorem numberArgument_proper (function : String) (v : Value) :
    Fails Fault.Proper (numberArgument function v) := by
  unfold numberArgument
  split
  · exact .ok _
  · exact .error (typeFault_proper (.left (.right (.text rfl))))

theorem rangeItems_proper (start stop step : Int64) :
    Fails Fault.Proper (rangeItems start stop step) :=
  .ite (.error (argumentFault_proper _)) (.ite (.error (overflowFault_proper _)) (.ok _))

theorem rangeOf_proper (args : List Value) : Fails Fault.Proper (rangeOf args) := by
  refine (Fails.mapM asInt_proper args).bind fun bounds => ?_
  split
  · exact .ok _
  · exact rangeItems_proper _ _ _
  · exact rangeItems_proper _ _ _

theorem sumTwo_proper (a b : Value) : Fails Fault.Proper (sumTwo a b) := by
  unfold sumTwo
  split
  · split <;> simp
  · exact .ok _
  · exact .ok _
  · exact .ok _
  · exact .error (typeFault_proper (.right (.text rfl)))

theorem sumItems_proper : ∀ (total : Value) (items : List Value), Fails Fault.Proper (sumItems total items)
  | _, [] => .ok _
  | total, item :: rest => by
    rw [sumItems]
    split
    next f hf => exact .error (sumTwo_proper total item f hf)
    next total _ => exact sumItems_proper total rest

theorem extremeItem_proper (beats : Ordering) : ∀ (best : Value) (items : List Value),
    Fails Fault.Proper (extremeItem beats best items)
  | _, [] => .ok _
  | best, v :: rest => by
    rw [extremeItem]
    split
    next f hf => exact .error (compare_proper v best f hf)
    · exact extremeItem_proper beats _ rest

theorem extremeOf_proper (function : String) (beats : Ordering) (args : List Value) :
    Fails Fault.Proper (extremeOf h function beats args) := by
  unfold extremeOf
  split
  · exact .error (argumentFault_proper _)
  · refine (iterate_proper h _).bind fun items => ?_
    cases items with
    | nil => exact .error (argumentFault_proper _)
    | cons best rest => exact extremeItem_proper beats best rest
  · cases args with
    | nil => exact .error (argumentFault_proper _)
    | cons best rest => exact extremeItem_proper beats best rest

theorem absoluteNumber_proper (v : Value) : Fails Fault.Proper (absoluteNumber v) := by
  unfold absoluteNumber
  split
  · split <;> simp
  · exact .ok _
  · exact .error (typeFault_proper (.right (.text rfl)))

theorem roundedNumber_proper (v : Value) (places : Option Int64) :
    Fails Fault.Proper (roundedNumber v places) := by
  unfold roundedNumber
  split
  · exact .pure _
  · exact .ite (.pure _) ((wordOfFloat_proper _).bind fun _ => .pure _)
  · exact (numberArgument_proper _ _).bind fun _ => (wordOfFloat_proper _).bind fun _ => .pure _
  · exact (numberArgument_proper _ _).bind fun _ => .pure _

theorem intOf_proper (v : Value) : Fails Fault.Proper (intOf v) := by
  unfold intOf
  split
  · exact .ok _
  · split
    · exact .ok _
    · exact .error (typeFault_proper (.left (.text rfl)))
  · exact (asInt_proper _).map _

theorem floatOf_proper (v : Value) : Fails Fault.Proper (floatOf v) := by
  unfold floatOf
  split
  · exact .ok _
  · split
    · exact .ok _
    · exact .error (typeFault_proper (.left (.text rfl)))
  · exact (asFloat_proper _).map _

theorem lengthOf_proper (v : Value) : Fails Fault.Proper (lengthOf h v) := by
  unfold lengthOf
  split
  case h_4 => exact .error (typeFault_proper (.right (.text rfl)))
  all_goals exact .ok _

theorem characterOf_proper (v : Value) : Fails Fault.Proper (characterOf v) :=
  (asInt_proper v).bind fun _ => .ite (.pure _) (.error (argumentFault_proper _))

theorem codePointOf_proper (v : Value) : Fails Fault.Proper (codePointOf v) := by
  refine (asStr_proper v).bind fun s => ?_
  split
  · exact .pure _
  · exact .error (typeFault_proper (.left (.left (.text rfl))))

theorem pairEntries_proper (h : Heap) : ∀ (entries : Table Value) (pairs : List Value),
    Fails Fault.Proper (pairEntries h entries pairs)
  | _, [] => .ok _
  | entries, pair :: rest => by
    rw [pairEntries]
    split
    next f hf => exact .error (iterate_proper h pair f hf)
    next key value _ =>
      split
      next f hf => exact .error (asStr_proper key f hf)
      · exact pairEntries_proper h _ rest
    · exact .error (typeFault_proper (.text rfl))

theorem entriesOf_proper (v : Option Value) : Fails Fault.Proper (entriesOf h v) := by
  unfold entriesOf
  split
  · exact .ok _
  · exact .ok _
  · split
    next f hf => exact .error (iterate_proper h _ f hf)
    · exact pairEntries_proper h _ _

theorem numbered_proper (start : Int64) (items : List Value) :
    Fails Fault.Proper (numbered start items) := .ite (.ok _) (.error (overflowFault_proper _))

theorem columnsOf_proper (args : List Value) :
    Fails Fault.Proper (Builtin.columnsOf h args) := Fails.mapM (iterate_proper h) args

theorem checkCall_proper (b : Builtin) (args : List Value) (keywords : Keywords) :
    Fails Fault.Proper (b.checkCall args keywords) := by
  have hcount : Fails Fault.Proper (b.argCount.check b.text args) := argCount_proper _ _ _
  unfold Builtin.checkCall
  split
  · exact (only_proper keywords _ _).bind fun _ => hcount
  · exact (Fails.ok _).bind fun _ => hcount

theorem write_proper (text : String) : Run.Orderly Fault.Proper (Run.write text) := by
  have hsink (s : Sink) : Fails Fault.Proper (s.write text) := by
    unfold Sink.write
    split
    · exact .ok _
    · exact .ok _
    · exact .ok _
    · exact .ite (.ok _) (.error (Fault.of_proper (by decide) _))
  intro w
  unfold Run.write
  cases hw : w.output.write text with
  | ok sink => exact ⟨⟨.refl _, rfl, rfl, rfl⟩, rfl, rfl⟩
  | error f => exact ⟨.refl w, hsink w.output f hw⟩

theorem builtin_proper {call : Caller} {args : List Value} {keywords : Keywords} {b : Builtin}
    (quiet : Bool) (hs : b ≠ .sorted) (hm : b ≠ .map) (hf : b ≠ .filter) :
    Run.Orderly Fault.Proper (b.body quiet call args keywords) := by
  cases b with
  | sorted => exact absurd rfl hs
  | map => exact absurd rfl hm
  | filter => exact absurd rfl hf
  | print =>
    refine .bind (.ofExcept (read_proper keywords _ _ _)) fun separator =>
      .bind (.ofExcept (read_proper keywords _ _ _)) fun ending => .bind (.view _) fun texts => ?_
    exact .ite (.bind (write_proper _) fun _ => .pure _) (.pure _)
  | str | repr | bool | exception => exact .view _
  | type => exact .pure _
  | len => exact .inspect fun h => lengthOf_proper h _
  | int => exact .ofExcept (.ite (.ok _) (intOf_proper _))
  | float => exact .ofExcept (.ite (.ok _) (floatOf_proper _))
  | chr => exact .ofExcept (characterOf_proper _)
  | ord => exact .ofExcept (codePointOf_proper _)
  | range => exact .bind (.ofExcept (rangeOf_proper args)) fun _ => .newList _
  | sum =>
    rw [Builtin.body]
    refine .inspect fun h => ?_
    exact (iterate_proper h _).bind fun _ => sumItems_proper _ _
  | min | max => exact .inspect fun h => extremeOf_proper h _ _ args
  | abs => exact .ofExcept (absoluteNumber_proper _)
  | round =>
    refine .ofExcept ?_
    split
    · exact roundedNumber_proper _ _
    · exact roundedNumber_proper _ _
    · exact (asInt_proper _).bind fun _ => roundedNumber_proper _ _
  | reversed => exact .bind (.inspect fun h => iterate_proper h _) fun _ => .newList _
  | list => exact .bind (.inspect fun h => .ite (.ok _) (iterate_proper h _)) fun _ => .newList _
  | dict => exact .bind (.inspect fun h => entriesOf_proper h _) fun _ => .newDict _
  | enumerate =>
    refine .bind (.inspect fun h => ?_) fun _ => .newTable _
    exact (read_proper keywords _ _ _).bind fun _ => (iterate_proper h _).bind fun _ => numbered_proper _ _
  | zip => exact .bind (.inspect fun h => columnsOf_proper h args) fun _ => .newTable _
  | any | all =>
    rw [Builtin.body]
    refine .inspect fun h => ?_
    exact (iterate_proper h _).bind fun _ => .pure _
  | append => exact .bind (.ofExcept (asList_proper _)) fun _ => ListMethod.appendAll_proper _ _
  | extend =>
    exact .bind (.inspect fun h => iterate_proper h _) fun _ =>
      .bind (.ofExcept (asList_proper _)) fun _ => ListMethod.appendAll_proper _ _

/-! ### Libraries -/

theorem JsonFunction.run_proper (codec : Document.Codec) (f : JsonFunction) (args : List Value)
    (keywords : Keywords) : Run.Orderly Fault.Proper (f.run codec args keywords) := by
  have hread (name : String) : Run.Orderly Fault.Proper (reading codec name args) := by
    unfold reading
    split
    · split
      · exact .allocate fun h => ofDocument_steady h _
      · exact .pure _
    · exact .pure _
  have hwrite (name : String) : Run.Orderly Fault.Proper (writing codec name args keywords) := by
    unfold writing
    split
    · split
      · exact .pure _
      · exact .view _
    · exact .pure _
  cases f with
  | parse | loads => exact hread _
  | stringify | dumps => exact hwrite _

theorem failOnError_proper {act : Run Value} (h : act.Orderly Fault.Proper) :
    Run.Orderly Fault.Proper (failOnError act) := by
  refine .bind h fun v => ?_
  split
  · refine .bind (.view _) fun fired => .fail (Fault.of_proper ?_ _)
    split <;> decide
  · exact .pure _

namespace MathFunction

theorem argument_proper (f : MathFunction) (args : List Value) : Fails Fault.Proper (f.argument args) :=
  (argCount_proper _ _ _).bind fun _ => numberArgument_proper _ _

theorem rounding_proper (f : MathFunction) (mode : Rounding) (args : List Value) :
    Fails Fault.Proper (f.rounding mode args) := by
  unfold rounding
  split
  · exact .ok _
  · exact (argument_proper f args).bind fun _ => (wordOfFloat_proper _).bind fun _ => .pure _

theorem logarithm_proper (args : List Value) : Fails Fault.Proper (logarithm args) := by
  have hdomain : Fails Fault.Proper (throw (domainFault .log) : Except Fault PUnit) :=
    .error (argumentFault_proper _)
  refine (argCount_proper _ _ _).bind fun _ => (numberArgument_proper _ _).bind fun x => ?_
  refine .ite (hdomain.bind fun _ => ?_) ?_ <;> split
  all_goals first
    | exact .pure _
    | exact (numberArgument_proper _ _).bind fun base =>
        .ite (hdomain.bind fun _ => .pure _) (.pure _)

theorem run_proper (f : MathFunction) (args : List Value) : Fails Fault.Proper (f.run args) := by
  cases f with
  | sqrt => exact (argument_proper _ args).bind fun _ => .ite (.error (argumentFault_proper _)) (.pure _)
  | pow =>
    exact (argCount_proper _ _ _).bind fun _ => (numberArgument_proper _ _).bind fun _ =>
      (numberArgument_proper _ _).bind fun _ => .pure _
  | floor | ceil => exact rounding_proper _ _ args
  | fabs | sin | cos | tan | exp | isnan | isinf => exact (argument_proper _ args).bind fun _ => .pure _
  | log => exact logarithm_proper args

end MathFunction

end Scripting
