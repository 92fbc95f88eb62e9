/-
# What methods and built-ins change

The footprint of a run says what it may change: the contents of some lists and dicts, and the
output. Everything else that was there is as it was (`World.Spares`); lists, dicts, functions and
scopes may be added.

A run is atomic if it succeeds within its footprint or fails and leaves the world exactly as it
found it (`Run.Atomic`). Methods and built-ins are atomic because everything that can fail comes
before the first change. A run that only looks (`Run.Reads`) may stand in front of an atomic one,
and a run that cannot fail (`Run.Sure`) is atomic.
-/
import Scripting.Method
import Scripting.Builtin

namespace Scripting

variable {α : Type} {name : String} {i : Nat} {b : Builtin}

/-- What a run may change: the contents of the values that it touches, and the output if
it prints. -/
structure Footprint where
  touches : Value → Prop
  prints : Prop

/-- The footprint of a run that changes nothing. -/
def Footprint.empty : Footprint := ⟨fun _ => False, False⟩

/-! ### Heaps -/

/-- What was on a heap is still there, and it is as it was, except for the contents of the
lists and dicts that are touched. -/
structure Heap.Spares (touches : Value → Prop) (h h' : Heap) : Prop where
  lists : ∀ r : ListRef, r.id < h.lists.size →
    r.id < h'.lists.size ∧ (¬ touches (.list r) → h'.list r = h.list r)
  dicts : ∀ r : DictRef, r.id < h.dicts.size →
    r.id < h'.dicts.size ∧ (¬ touches (.dict r) → h'.dict r = h.dict r)
  functions : ∀ r : FunctionRef, r.id < h.functions.size →
    r.id < h'.functions.size ∧ h'.function? r = h.function? r
  scopes : ∀ r : ScopeRef, r.id < h.scopes.size →
    r.id < h'.scopes.size ∧ h'.scope r = h.scope r

theorem lt_size_push (xs : Array α) (x : α) (hi : i < xs.size) : i < (xs.push x).size := by
  rw [Array.size_push]
  omega

theorem getD_push_of_lt (xs : Array α) (x default : α) (hi : i < xs.size) :
    (xs.push x).getD i default = xs.getD i default := by
  rw [Array.getD_eq_getD_getElem?, Array.getD_eq_getD_getElem?, Array.getElem?_push_lt hi,
    Array.getElem?_eq_getElem hi]

theorem getD_modify_of_ne (xs : Array α) (f : α → α) (default : α) {j : Nat} (hij : i ≠ j) :
    (xs.modify i f).getD j default = xs.getD j default := by
  rw [Array.getD_eq_getD_getElem?, Array.getD_eq_getD_getElem?, Array.getElem?_modify, if_neg hij]

namespace Heap.Spares

variable {touches : Value → Prop}

theorem refl (h : Heap) : h.Spares touches h where
  lists _ hr := ⟨hr, fun _ => rfl⟩
  dicts _ hr := ⟨hr, fun _ => rfl⟩
  functions _ hr := ⟨hr, rfl⟩
  scopes _ hr := ⟨hr, rfl⟩

theorem trans {h₁ h₂ h₃ : Heap} (s : h₁.Spares touches h₂) (s' : h₂.Spares touches h₃) :
    h₁.Spares touches h₃ where
  lists r hr := by
    obtain ⟨hr₂, heq⟩ := s.lists r hr
    obtain ⟨hr₃, heq'⟩ := s'.lists r hr₂
    exact ⟨hr₃, fun ht => (heq' ht).trans (heq ht)⟩
  dicts r hr := by
    obtain ⟨hr₂, heq⟩ := s.dicts r hr
    obtain ⟨hr₃, heq'⟩ := s'.dicts r hr₂
    exact ⟨hr₃, fun ht => (heq' ht).trans (heq ht)⟩
  functions r hr := by
    obtain ⟨hr₂, heq⟩ := s.functions r hr
    obtain ⟨hr₃, heq'⟩ := s'.functions r hr₂
    exact ⟨hr₃, heq'.trans heq⟩
  scopes r hr := by
    obtain ⟨hr₂, heq⟩ := s.scopes r hr
    obtain ⟨hr₃, heq'⟩ := s'.scopes r hr₂
    exact ⟨hr₃, heq'.trans heq⟩

theorem newList (h : Heap) (items : Array Value) : h.Spares touches (h.newList items).2 where
  lists _ hr := ⟨lt_size_push _ _ hr, fun _ => getD_push_of_lt _ _ _ hr⟩
  dicts _ hr := ⟨hr, fun _ => rfl⟩
  functions _ hr := ⟨hr, rfl⟩
  scopes _ hr := ⟨hr, rfl⟩

theorem newDict (h : Heap) (entries : Table Value) : h.Spares touches (h.newDict entries).2 where
  lists _ hr := ⟨hr, fun _ => rfl⟩
  dicts _ hr := ⟨lt_size_push _ _ hr, fun _ => getD_push_of_lt _ _ _ hr⟩
  functions _ hr := ⟨hr, rfl⟩
  scopes _ hr := ⟨hr, rfl⟩

theorem newFunction (h : Heap) (f : Callable) : h.Spares touches (h.newFunction f).2 where
  lists _ hr := ⟨hr, fun _ => rfl⟩
  dicts _ hr := ⟨hr, fun _ => rfl⟩
  functions r hr := by
    refine ⟨lt_size_push _ _ hr, ?_⟩
    unfold Heap.function? Heap.newFunction
    rw [Array.getElem?_push_lt hr, Array.getElem?_eq_getElem hr]
  scopes _ hr := ⟨hr, rfl⟩

theorem newScope (h : Heap) (s : Scope) : h.Spares touches (h.newScope s).2 where
  lists _ hr := ⟨hr, fun _ => rfl⟩
  dicts _ hr := ⟨hr, fun _ => rfl⟩
  functions _ hr := ⟨hr, rfl⟩
  scopes _ hr := ⟨lt_size_push _ _ hr, getD_push_of_lt _ _ _ hr⟩

theorem modifyList (h : Heap) {r : ListRef} (f : Array Value → Array Value)
    (hr : touches (.list r)) : h.Spares touches (h.modifyList r f) where
  lists r' hr' := by
    refine ⟨by simpa [Heap.modifyList] using hr', fun ht => ?_⟩
    have hid : r.id ≠ r'.id := by
      intro hid
      cases r; cases r'; cases hid
      exact ht hr
    exact getD_modify_of_ne _ _ _ hid
  dicts _ hr' := ⟨hr', fun _ => rfl⟩
  functions _ hr' := ⟨hr', rfl⟩
  scopes _ hr' := ⟨hr', rfl⟩

theorem modifyDict (h : Heap) {r : DictRef} (f : Table Value → Table Value)
    (hr : touches (.dict r)) : h.Spares touches (h.modifyDict r f) where
  lists _ hr' := ⟨hr', fun _ => rfl⟩
  dicts r' hr' := by
    refine ⟨by simpa [Heap.modifyDict] using hr', fun ht => ?_⟩
    have hid : r.id ≠ r'.id := by
      intro hid
      cases r; cases r'; cases hid
      exact ht hr
    exact getD_modify_of_ne _ _ _ hid
  functions _ hr' := ⟨hr', rfl⟩
  scopes _ hr' := ⟨hr', rfl⟩

end Heap.Spares

/-! ### Worlds -/

/-- The world changed within a footprint only, apart from what was added to the heap and to
the log, and from the moments that passed. -/
structure World.Spares (fp : Footprint) (w w' : World) : Prop where
  heap : w.heap.Spares fp.touches w'.heap
  modules : w'.modules = w.modules
  output : fp.prints ∨ w'.output = w.output
  token : w'.token = w.token
  depth : w'.depth = w.depth
  handling : w'.handling = w.handling
  journal : w'.journal = w.journal
  warnings : w.warnings <:+ w'.warnings

namespace World.Spares

variable {fp : Footprint}

theorem refl (w : World) : w.Spares fp w :=
  ⟨.refl _, rfl, .inr rfl, rfl, rfl, rfl, rfl, List.suffix_rfl⟩

theorem trans {w₁ w₂ w₃ : World} (s : w₁.Spares fp w₂) (s' : w₂.Spares fp w₃) :
    w₁.Spares fp w₃ where
  heap := s.heap.trans s'.heap
  modules := s'.modules.trans s.modules
  output := by
    rcases s.output with hprints | hout
    · exact .inl hprints
    · exact s'.output.imp id fun hout' => hout'.trans hout
  token := s'.token.trans s.token
  depth := s'.depth.trans s.depth
  handling := s'.handling.trans s.handling
  journal := s'.journal.trans s.journal
  warnings := s.warnings.trans s'.warnings

theorem ofHeap (w : World) {h : Heap} (s : w.heap.Spares fp.touches h) :
    w.Spares fp { w with heap := h } :=
  ⟨s, rfl, .inr rfl, rfl, rfl, rfl, rfl, List.suffix_rfl⟩

end World.Spares

/-! ### Runs -/

section Runs

variable {β : Type}

/-- A run that only looks at the world. -/
def Run.Reads (act : Run α) : Prop := ∀ w, (∃ a, act w = .ok a w) ∨ ∃ f, act w = .fault f w

/-- A run that gives a value and stays within a footprint. -/
def Run.Sure (fp : Footprint) (act : Run α) : Prop :=
  ∀ w, ∃ a w', act w = .ok a w' ∧ w.Spares fp w'

/-- A run that stays within a footprint if it gives a value, and that changes nothing at all
if it fails. -/
def Run.Atomic (fp : Footprint) (act : Run α) : Prop :=
  ∀ w, (∃ a w', act w = .ok a w' ∧ w.Spares fp w') ∨ ∃ f, act w = .fault f w

namespace Run.Reads

theorem pure (a : α) : Run.Reads (Pure.pure a : Run α) := fun _ => .inl ⟨a, rfl⟩

theorem view (f : World → α) : Run.Reads (Run.view f) := fun w => .inl ⟨f w, rfl⟩

theorem fail (f : Fault) : Run.Reads (Run.fail f : Run α) := fun _ => .inr ⟨f, rfl⟩

theorem ofExcept (r : Except Fault α) : Run.Reads (Run.ofExcept r) := by
  intro w
  cases r with
  | ok a => exact .inl ⟨a, rfl⟩
  | error f => exact .inr ⟨f, rfl⟩

theorem inspect (f : Heap → Except Fault α) : Run.Reads (Run.inspect f) := by
  intro w
  unfold Run.inspect
  cases f w.heap with
  | ok a => exact .inl ⟨a, rfl⟩
  | error e => exact .inr ⟨e, rfl⟩

theorem bind {act : Run α} {next : α → Run β} (ha : act.Reads) (hn : ∀ a, (next a).Reads) :
    Run.Reads (act >>= next) := by
  intro w
  rcases ha w with ⟨a, hact⟩ | ⟨f, hact⟩
  · rw [Run.bind_of_ok hact]
    exact hn a w
  · exact .inr ⟨f, Run.bind_of_fault hact next⟩

end Run.Reads

namespace Run.Sure

variable {fp : Footprint}

theorem pure (a : α) : Run.Sure fp (Pure.pure a : Run α) := fun w => ⟨a, w, rfl, .refl w⟩

theorem changeHeap {f : Heap → Heap} (h : ∀ x : Heap, x.Spares fp.touches (f x)) :
    Run.Sure fp (Run.changeHeap f) := fun w => ⟨(), _, rfl, .ofHeap w (h w.heap)⟩

theorem allocate {f : Heap → α × Heap} (h : ∀ x : Heap, x.Spares fp.touches (f x).2) :
    Run.Sure fp (Run.allocate f) := fun w => ⟨_, _, rfl, .ofHeap w (h w.heap)⟩

theorem bind {act : Run α} {next : α → Run β} (ha : act.Sure fp) (hn : ∀ a, (next a).Sure fp) :
    Run.Sure fp (act >>= next) := by
  intro w
  obtain ⟨a, w₁, hact, hw₁⟩ := ha w
  obtain ⟨b, w₂, hnext, hw₂⟩ := hn a w₁
  exact ⟨b, w₂, (Run.bind_of_ok hact next).trans hnext, hw₁.trans hw₂⟩

theorem newList (items : Array Value) : Run.Sure fp (Run.newList items) :=
  bind (allocate fun h => .newList h items) fun _ => pure _

theorem newDict (entries : Table Value) : Run.Sure fp (Run.newDict entries) :=
  bind (allocate fun h => .newDict h entries) fun _ => pure _

theorem newFunction (f : Callable) : Run.Sure fp (Run.newFunction f) :=
  bind (allocate fun h => .newFunction h f) fun _ => pure _

theorem newRows : ∀ (rows : List (List Value)) (done : Array Value),
    Run.Sure fp (Run.newRows done rows)
  | [], _ => pure _
  | row :: rest, _ => bind (newList row.toArray) fun _ => newRows rest _

theorem newTable (rows : List (List Value)) : Run.Sure fp (Run.newTable rows) :=
  bind (newRows rows #[]) fun items => newList items

end Run.Sure

namespace Run.Atomic

variable {fp : Footprint}

theorem ofReads {act : Run α} (h : act.Reads) : act.Atomic fp := fun w =>
  (h w).imp (fun ⟨a, hact⟩ => ⟨a, w, hact, .refl w⟩) id

theorem ofSure {act : Run α} (h : act.Sure fp) : act.Atomic fp := fun w => .inl (h w)

/-- What may fail comes first: behind a look at the world an atomic run is still atomic. -/
theorem bind {act : Run α} {next : α → Run β} (ha : act.Reads)
    (hn : ∀ w a, act w = .ok a w → (next a).Atomic fp) : Run.Atomic fp (act >>= next) := by
  intro w
  rcases ha w with ⟨a, hact⟩ | ⟨f, hact⟩
  · rw [Run.bind_of_ok hact]
    exact hn w a hact w
  · exact .inr ⟨f, Run.bind_of_fault hact next⟩

theorem ofBind {act : Run α} {next : α → Run β} (ha : act.Reads) (hn : ∀ a, (next a).Sure fp) :
    Run.Atomic fp (act >>= next) :=
  bind ha fun _ a _ => ofSure (hn a)

theorem map {act : Run α} (h : act.Atomic fp) (g : α → β) :
    Run.Atomic fp (act >>= fun a => Pure.pure (g a)) := by
  intro w
  rcases h w with ⟨a, w', hact, hw'⟩ | ⟨f, hact⟩
  · exact .inl ⟨g a, w', Run.bind_of_ok hact _, hw'⟩
  · exact .inr ⟨f, Run.bind_of_fault hact _⟩

theorem write (text : String) (h : fp.prints) : Run.Atomic fp (Run.write text) := by
  intro w
  unfold Run.write
  cases w.output.write text with
  | ok sink => exact .inl ⟨(), _, rfl, .refl _, rfl, .inl h, rfl, rfl, rfl, rfl, List.suffix_rfl⟩
  | error f => exact .inr ⟨f, rfl⟩

end Run.Atomic

end Runs

/-! ### Methods -/

/-- The methods that change what they are called on. -/
def changesReceiver (receiver : Value) (name : String) : Bool :=
  match receiver with
  | .list _ =>
    ["append", "extend", "pop", "insert", "remove", "clear", "reverse", "sort"].contains name
  | .dict _ => ["pop", "setdefault", "update", "clear"].contains name
  | _ => false

/-- What a method may change: at most what it is called on. -/
def methodFootprint (receiver : Value) (name : String) : Footprint where
  touches v := v = receiver ∧ changesReceiver receiver name = true
  prints := False

theorem TextMethod.run_atomic (m : TextMethod) (s : String) (args : List Value)
    (keywords : Keywords) (fp : Footprint) : (m.run s args keywords).Atomic fp := by
  cases m with
  | split => exact .ofBind (.ofExcept _) fun _ => .newList _
  | find =>
    refine .ofReads (.bind (.ofExcept _) fun part => ?_)
    split <;> exact .pure _
  | join | format =>
    rw [TextMethod.run]
    exact .ofReads (.inspect _)
  | upper | lower | capitalize | title | isdigit | isalpha => exact .ofReads (.pure _)
  | strip | lstrip | rstrip | replace | startswith | endswith | count =>
    exact .ofReads (.bind (.ofExcept _) fun _ => .pure _)

section Lists

variable {fp : Footprint} {r : ListRef}

theorem modifyList_sure (h : fp.touches (.list r)) (f : Array Value → Array Value) (a : α) :
    Run.Sure fp (do Run.changeHeap fun x => x.modifyList r f; return a) :=
  .bind (.changeHeap fun x => .modifyList x f h) fun _ => .pure a

theorem popItem_atomic (h : fp.touches (.list r)) (place : Option Value) :
    (ListMethod.popItem r place).Atomic fp := by
  cases place with
  | none =>
    exact .bind (.pure _) fun _ _ _ => .ofBind (.inspect _) fun _ => modifyList_sure h _ _
  | some v =>
    exact .bind (.ofExcept _) fun _ _ _ => .ofBind (.inspect _) fun _ => modifyList_sure h _ _

theorem ListMethod.changes_of_ofText? {m : ListMethod} (hm : ListMethod.ofText? name = some m)
    (hwrites : m ∉ [.index, .count, .copy]) : changesReceiver (.list r) name = true := by
  unfold ListMethod.ofText? at hm
  split at hm <;> cases hm <;> first | rfl | exact absurd (by decide) hwrites

theorem ListMethod.run_atomic {m : ListMethod} (hm : ListMethod.ofText? name = some m)
    (args : List Value) (keywords : Keywords) :
    (m.run r args keywords).Atomic (methodFootprint (.list r) name) := by
  have touches (hwrites : m ∉ [.index, .count, .copy]) :
      (methodFootprint (.list r) name).touches (.list r) :=
    ⟨rfl, ListMethod.changes_of_ofText? hm hwrites⟩
  cases m with
  | append | clear | reverse => exact .ofSure (modifyList_sure (touches (by decide)) _ _)
  | extend | remove | sort =>
    exact .ofBind (.inspect _) fun _ => modifyList_sure (touches (by decide)) _ _
  | pop => exact popItem_atomic (touches (by decide)) _
  | insert => exact .ofBind (.ofExcept _) fun _ => modifyList_sure (touches (by decide)) _ _
  | index | count =>
    rw [ListMethod.run]
    exact .ofReads (.inspect _)
  | copy => exact .ofBind (.view _) fun _ => .newList _

end Lists

section Dicts

variable {fp : Footprint} {r : DictRef}

theorem modifyDict_sure (h : fp.touches (.dict r)) (f : Table Value → Table Value) (a : α) :
    Run.Sure fp (do Run.changeHeap fun x => x.modifyDict r f; return a) :=
  .bind (.changeHeap fun x => .modifyDict x f h) fun _ => .pure a

theorem updateEntries_atomic (h : fp.touches (.dict r)) (other : Option Value)
    (keywords : Keywords) : (DictMethod.updateEntries r other keywords).Atomic fp := by
  cases other with
  | none => exact .ofBind (.pure _) fun _ => modifyDict_sure h _ _
  | some v => exact .ofBind (.inspect _) fun _ => modifyDict_sure h _ _

theorem DictMethod.changes_of_ofText? {m : DictMethod} (hm : DictMethod.ofText? name = some m)
    (hwrites : m ∈ [.pop, .setdefault, .update, .clear]) :
    changesReceiver (.dict r) name = true := by
  unfold DictMethod.ofText? at hm
  split at hm <;> cases hm <;> first | rfl | exact absurd hwrites (by decide)

theorem DictMethod.run_atomic {m : DictMethod} (hm : DictMethod.ofText? name = some m)
    (args : List Value) (keywords : Keywords) :
    (m.run r args keywords).Atomic (methodFootprint (.dict r) name) := by
  have touches (hwrites : m ∈ [.pop, .setdefault, .update, .clear]) :
      (methodFootprint (.dict r) name).touches (.dict r) :=
    ⟨rfl, DictMethod.changes_of_ofText? hm hwrites⟩
  refine .bind (.view _) fun w entries _ => ?_
  cases m with
  | keys | values => exact .ofSure (.newList _)
  | items => exact .ofSure (.newTable _)
  | get => exact .ofReads (.bind (.ofExcept _) fun _ => .pure _)
  | pop =>
    exact .bind (.ofExcept _) fun _ _ _ => .ofBind (.inspect _) fun _ =>
      modifyDict_sure (touches (by decide)) _ _
  | setdefault =>
    refine .bind (.ofExcept _) fun _ key _ => .ofBind (.view _) fun found => ?_
    split
    · exact .pure _
    · exact modifyDict_sure (touches (by decide)) _ _
  | update => exact updateEntries_atomic (touches (by decide)) _ keywords
  | clear => exact .ofSure (modifyDict_sure (touches (by decide)) _ _)
  | copy => exact .ofSure (.newDict entries)

end Dicts

/-- A method changes at most what it is called on, and nothing if it fails. -/
theorem callMethod?_atomic {receiver : Value} {args : List Value} {keywords : Keywords}
    {act : Run Value} (h : callMethod? receiver name args keywords = some act) :
    act.Atomic (methodFootprint receiver name) := by
  have checked {signature : Signature} {qualified : String} {method : Run Value} {fp : Footprint}
      (hm : method.Atomic fp) : (checkedCall signature qualified args keywords method).Atomic fp :=
    .bind (.ofExcept _) fun _ _ _ => hm
  unfold callMethod? at h
  dsimp only at h
  split at h
  · obtain ⟨m, -, rfl⟩ := Option.map_eq_some_iff.1 h
    exact checked (m.run_atomic _ args keywords _)
  · obtain ⟨m, hm, rfl⟩ := Option.map_eq_some_iff.1 h
    exact checked (ListMethod.run_atomic hm args keywords)
  · obtain ⟨m, hm, rfl⟩ := Option.map_eq_some_iff.1 h
    exact checked (DictMethod.run_atomic hm args keywords)
  · cases h

/-! ### Built-ins -/

namespace Builtin

/-- The built-ins that call functions which they are given. -/
def takesCallback : Builtin → Bool
  | .sorted | .map | .filter => true
  | _ => false

/-- What a built-in may change: its first argument, if it puts items at the end of a list,
and the output, if it prints. -/
def footprint (b : Builtin) (args : List Value) : Footprint where
  touches v := (b = .append ∨ b = .extend) ∧ args.head? = some v
  prints := b = .print

theorem touches_of_asList {args : List Value} {r : ListRef} {w : World}
    (hb : b = .append ∨ b = .extend) (hr : Run.ofExcept (args.headD .none).asList w = .ok r w) :
    (b.footprint args).touches (.list r) := by
  refine ⟨hb, ?_⟩
  cases args with
  | nil => cases hr
  | cons first rest =>
    cases first with
    | list s => cases hr; rfl
    | _ => cases hr

theorem body_atomic (hb : b.takesCallback = false) (quiet : Bool) (call : Caller)
    (args : List Value) (keywords : Keywords) :
    (b.body quiet call args keywords).Atomic (b.footprint args) := by
  cases b with
  | sorted | map | filter => cases hb
  | print =>
    refine .bind (.ofExcept _) fun _ separator _ => .bind (.ofExcept _) fun _ ending _ =>
      .bind (.view _) fun _ texts _ => ?_
    split
    · exact .map (.write _ rfl) _
    · exact .ofReads (.pure _)
  | str | repr | bool | exception => exact .ofReads (.view _)
  | type => exact .ofReads (.pure _)
  | len | sum | min | max | any | all =>
    rw [Builtin.body]
    exact .ofReads (.inspect _)
  | int | float | chr | ord | abs | round =>
    rw [Builtin.body]
    exact .ofReads (.ofExcept _)
  | range => exact .ofBind (.ofExcept _) fun _ => .newList _
  | reversed | list => exact .ofBind (.inspect _) fun _ => .newList _
  | dict => exact .ofBind (.inspect _) fun _ => .newDict _
  | enumerate | zip => exact .ofBind (.inspect _) fun _ => .newTable _
  | append =>
    exact .bind (.ofExcept _) fun w r hr =>
      .ofSure (modifyList_sure (touches_of_asList (.inl rfl) hr) _ _)
  | extend =>
    exact .bind (.inspect _) fun _ items _ => .bind (.ofExcept _) fun w r hr =>
      .ofSure (modifyList_sure (touches_of_asList (.inr rfl) hr) _ _)

/-- A built-in that calls nothing changes at most its first argument, and nothing if it
fails. -/
theorem run_atomic (hb : b.takesCallback = false) (quiet : Bool) (call : Caller)
    (args : List Value) (keywords : Keywords) :
    (b.run quiet call args keywords).Atomic (b.footprint args) :=
  .bind (.ofExcept _) fun _ _ _ => body_atomic hb quiet call args keywords

end Builtin

/-- Methods and built-ins touch only what they should, and nothing when they fail. A method
leaves every list and dict alone except the one that it is called on, and that one too unless
it is a method that changes it. A built-in that calls nothing leaves all of them alone, but
for `append` and `extend`, which change their first argument. This holds on every heap, so
also where an argument is or holds the very list or dict that is changed. -/
theorem calls_spare_rest :
    (∀ (receiver : Value) (name : String) (args : List Value) (keywords : Keywords)
        (act : Run Value),
      callMethod? receiver name args keywords = some act → ∀ w : World,
        (∃ f, act w = .fault f w) ∨
          ∃ v w', act w = .ok v w' ∧ w.Spares (methodFootprint receiver name) w') ∧
    ∀ (b : Builtin) (quiet : Bool) (call : Caller) (args : List Value) (keywords : Keywords),
      b.takesCallback = false → ∀ w : World,
        (∃ f, b.run quiet call args keywords w = .fault f w) ∨
          ∃ v w', b.run quiet call args keywords w = .ok v w' ∧ w.Spares (b.footprint args) w' :=
  ⟨fun _ _ _ _ _ h w => (callMethod?_atomic h w).symm,
    fun _ quiet call args keywords hb w => (Builtin.run_atomic hb quiet call args keywords w).symm⟩

/-- A list that holds itself is extended by itself, and the other list stays as it is. Sorting
it fails, and so does putting an item at the end of a number. -/
theorem calls_spare_rest_cyclic :
    let xs : Value := .list ⟨0⟩
    let heap : Heap := { Heap.empty with lists := #[#[xs, .int 1], #[.int 2]] }
    let w : World := { World.fresh .live .capture with heap := heap }
    (∃ act v w', callMethod? xs "extend" [xs] .empty = some act ∧ act w = .ok v w' ∧
      w.Spares (methodFootprint xs "extend") w' ∧ (w'.heap.list ⟨0⟩).size = 4 ∧
      w'.heap.list ⟨1⟩ = heap.list ⟨1⟩) ∧
    (∃ act f, callMethod? xs "sort" [] .empty = some act ∧ act w = .fault f w) ∧
    ∃ f, Builtin.append.run false (fun _ _ => Run.exhausted) [.int 1, xs] .empty w =
      .fault f w := by
  intro xs heap w
  refine ⟨?_, ?_, ?_⟩
  · rcases calls_spare_rest.1 xs "extend" [xs] .empty _ rfl w with ⟨f, hf⟩ | ⟨v, w', hact, hspares⟩
    · cases hf
    have hne : (.list ⟨1⟩ : Value) ≠ .list ⟨0⟩ := nofun
    have hother := (hspares.heap.lists ⟨1⟩ (by decide)).2 fun htouch => hne htouch.1
    cases hact
    exact ⟨_, _, _, rfl, rfl, hspares, rfl, hother⟩
  · rcases calls_spare_rest.1 xs "sort" [] .empty _ rfl w with ⟨f, hf⟩ | ⟨v, w', hact, -⟩
    · exact ⟨_, f, rfl, hf⟩
    · cases hact
  rcases calls_spare_rest.2 .append false (fun _ _ => Run.exhausted) [.int 1, xs] .empty rfl
    w with hf | ⟨v, w', hact, -⟩
  · exact hf
  · cases hact

end Scripting
