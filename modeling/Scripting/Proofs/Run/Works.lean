/-
# The work of expressions, statements and host functions

A step of the evaluator evaluates parts, runs blocks and calls functions. What it does besides is
its work: it looks a name up, applies an operator, takes an item out of a container, binds a loop
variable. The work is listed here once, for every form. It ends with a fault that need not know
its line, and the step attaches the line on which it stands. Of a script that the parser takes
none of it fails with a misuse (`Expr.Work.orderly`, `Stmt.Work.orderly`,
`HostFunction.Work.orderly`).

A run is quiet if it works on data and cannot fail.
-/
import Scripting.Proofs.Faults.Library
import Scripting.Proofs.Syntax.Parts

namespace Scripting

variable {act : Run β}

variable {β : Type} {env : Environment} {line : Nat} {e : Expr} {s : Stmt}

/-! ### Runs that cannot fail -/

/-- A run that works on data and gives a value. -/
def Run.Quiet {α : Type} (act : Run α) : Prop :=
  ∀ w, ∃ a w', act w = .ok a w' ∧ w.Steady w'

namespace Run.Quiet

variable {α : Type}

theorem pure (a : α) : Run.Quiet (Pure.pure a : Run α) := fun w => ⟨a, w, rfl, .refl w⟩

theorem view (f : World → α) : Run.Quiet (Run.view f) := fun w => ⟨f w, w, rfl, .refl w⟩

theorem changeHeap {f : Heap → Heap} (h : ∀ x : Heap, x.Steady (f x)) :
    Run.Quiet (Run.changeHeap f) := fun w => ⟨(), _, rfl, .ofHeap w (h w.heap)⟩

theorem allocate {f : Heap → α × Heap} (h : ∀ x : Heap, x.Steady (f x).2) :
    Run.Quiet (Run.allocate f) := fun w => ⟨_, _, rfl, .ofHeap w (h w.heap)⟩

theorem newList (items : Array Value) : Run.Quiet (Run.newList items) :=
  fun w => ⟨_, _, rfl, .ofHeap w (.newList w.heap items)⟩

theorem newDict (entries : Table Value) : Run.Quiet (Run.newDict entries) :=
  fun w => ⟨_, _, rfl, .ofHeap w (.newDict w.heap entries)⟩

theorem steady {act : Run α} (h : act.Quiet) : act.Steady := by
  intro w
  obtain ⟨a, w', hact, hw⟩ := h w
  rw [hact]
  exact hw

end Run.Quiet

/-! ### Lines -/

theorem Fault.atLine_zero (f : Fault) : f.atLine 0 = f := by
  unfold Fault.atLine
  split
  next h => cases f; cases h; rfl
  · rfl

theorem Run.atLine_zero {α : Type} (act : Run α) : Run.atLine 0 act = act := by
  funext w
  unfold Run.atLine
  cases act w with
  | ok a w' => rfl
  | fault f w' => dsimp only; rw [Fault.atLine_zero]
  | exhausted => rfl

theorem atLine_binary (op : BinaryOp) (a b : Value) (line : Nat) :
    Run.atLine line (binary op a b 0) = binary op a b line := by
  unfold binary
  rw [Run.atLine_zero]

theorem atLine_resolveName (env : Environment) (scope : ScopeRef) (name : String) (line : Nat) :
    Run.atLine line (resolveName env scope name 0) = resolveName env scope name line := by
  funext w
  unfold resolveName
  dsimp only [bind, Run.bind, Run.atLine, Run.view]
  cases (w.heap.lookup scope name).or (w.modules.get? name) with
  | some v => rfl
  | none =>
    cases env.functions.get? name with
    | some f => rfl
    | none => rfl

/-! ### Expressions -/

def boundFault (v : Value) : Fault :=
  typeFault s!"slice indices must be integers or None, not {v.typeName}"

/-- What a step of an expression's evaluation does itself, and the line that it attaches to
the fault of that. The values are those of its parts, and so there is work for every
value. -/
inductive Expr.Work (env : Environment) : Expr → Nat → {β : Type} → Run β → Prop
  | name (p : Position) (name : String) (scope : ScopeRef) :
      Work env (.name p name) p.line (resolveName env scope name 0)
  | binary (p : Position) (op : BinaryOp) (left right : Expr) (a b : Value) :
      Work env (.binary p op left right) p.line (Scripting.binary op a b 0)
  | unary (p : Position) (op : UnaryOp) (operand : Expr) (v : Value) :
      Work env (.unary p op operand) p.line (Run.inspect fun h => Scripting.unary h op v)
  | index (p : Position) (container key : Expr) (c k : Value) :
      Work env (.index p container key) p.line (Run.inspect fun h => h.getItem c k)
  | bound (p : Position) (container : Expr) (start stop step : Option Expr) (part : Expr)
      (h : part ∈ start.toList ++ stop.toList ++ step.toList) (v : Value) :
      Work env (.slice p container start stop step) part.pos.line
        (Run.fail (boundFault v) : Run (Option Int64))
  | slice (p : Position) (container : Expr) (start stop step : Option Expr) (v : Value)
      (bounds : SliceBounds) :
      Work env (.slice p container start stop step) p.line (Scripting.slice v bounds)
  | member (p : Position) (object : Expr) (name : String) (v : Value) :
      Work env (.member p object name) p.line (Run.inspect fun h => h.member v name)
  | method (p : Position) (object : Expr) (name : String) (args : List Expr)
      (keywords : List Keyword) (v : Value) (vs : List Value) (ks : Keywords) (act : Run Value)
      (h : callMethod? v name vs ks = some act) :
      Work env (.method p object name args keywords) p.line act
  | noMethod (p : Position) (object : Expr) (name : String) (args : List Expr)
      (keywords : List Keyword) (v : Value) :
      Work env (.method p object name args keywords) p.line
        (Run.fail (Scripting.noMethod v name 0) : Run Value)
  | entry (p : Position) (entries : List DictEntry) (v : Value) :
      Work env (.dict p entries) p.line (Run.ofExcept (dictKey v))
  | key (p : Position) (key value : Expr) (clause : Clause) (v : Value) :
      Work env (.dictOf p key value clause) p.line (Run.ofExcept (dictKey v))
  | iterate {e : Expr} {clause : Clause} (h : e.clause? = some clause) (v : Value) :
      Work env e e.pos.line (Run.inspect fun h => h.iterate v)
  | target {e : Expr} {clause : Clause} (h : e.clause? = some clause) (scope : ScopeRef)
      (item : Value) : Work env e e.pos.line (defineTarget scope clause.target item)
  | field (p : Position) (parts : List FStringPart) (v : Value) (repr : Bool)
      (spec : Option String) :
      Work env (.fstring p parts) p.line (Run.inspect fun h => formatPart h v repr spec)

theorem Expr.Work.orderly {E : Fault → Prop} (hE : ∀ f : Fault, f.Proper → E f)
    (he : e.Admissible ∨ ∀ f, E f) (h : e.Work env line act) : act.Orderly E := by
  cases h with
  | name p name scope => exact (resolveName_proper env scope name 0).imp hE
  | binary p op left right a b => exact (binary_proper op a b 0).imp hE
  | unary p op operand v => exact .imp hE (.inspect fun h => unary_proper h op v)
  | index p container key c k => exact .imp hE (.inspect fun h => getItem_proper h c k)
  | bound p container start stop step part _ v =>
    exact .fail (hE _ (typeFault_proper (.left (.text rfl))))
  | slice p container start stop step v bounds => exact (slice_proper v bounds).imp hE
  | member p object name v => exact .imp hE (.inspect fun h => member_proper h v name)
  | method p object name args keywords v vs ks act hact => exact (callMethod_proper hact).imp hE
  | noMethod p object name args keywords v =>
    exact .fail (hE _ (Fault.proper_of_tells (.right (.text rfl))))
  | entry p entries v => exact .imp hE (.ofExcept (dictKey_proper v))
  | key p key value clause v => exact .imp hE (.ofExcept (dictKey_proper v))
  | iterate _ v => exact .imp hE (.inspect fun h => iterate_proper h v)
  | target hclause scope item =>
    refine defineTarget_orderly hE scope (he.imp_left fun he => ?_) item
    cases e with
    | listOf | dictOf =>
      cases hclause
      exact he
    | _ => cases hclause
  | field p parts v repr spec => exact .imp hE (.inspect fun h => format_proper h _ _)

theorem Expr.Work.steady (h : e.Work env line act) : act.Steady :=
  .of (h.orderly (fun _ _ => trivial) (.inr fun _ => trivial))

theorem Expr.Work.proper (he : e.Admissible) (h : e.Work env line act) :
    act.Faults Fault.Proper :=
  (h.orderly (fun _ => id) (.inl he)).faults

/-! ### Statements -/

def groupFault : Fault := typeFault "augmented assignment needs a single target"

/-- What a step of a statement does itself, and the line that it attaches to the fault of
that. -/
inductive Stmt.Work (env : Environment) : Stmt → Nat → {β : Type} → Run β → Prop
  | unpack (p : Position) (target : Target) (value : Expr) (v : Value) (n : Nat) :
      Work env (.assign p target value) p.line (Run.inspect fun h => h.unpack v n)
  | store (p : Position) (target : Target) (value : Expr) (c k v : Value) :
      Work env (.assign p target value) p.line (setItem c k v)
  | read (p : Position) (op : BinaryOp) (name : String) (value : Expr) (scope : ScopeRef) :
      Work env (.augment p op (.name name) value) p.line (resolveName env scope name 0)
  | fetch (p : Position) (op : BinaryOp) (target : Target) (value : Expr) (c k : Value) :
      Work env (.augment p op target value) p.line (Run.inspect fun h => h.getItem c k)
  | operate (p : Position) (op : BinaryOp) (target : Target) (value : Expr) (a b : Value) :
      Work env (.augment p op target value) p.line (binary op a b 0)
  | update (p : Position) (op : BinaryOp) (target : Target) (value : Expr) (c k v : Value) :
      Work env (.augment p op target value) p.line (setItem c k v)
  | group (p : Position) (op : BinaryOp) (targets : List Target) (value : Expr) :
      Work env (.augment p op (.group targets) value) p.line (Run.fail groupFault : Run Flow)
  | iterate (p : Position) (target : Target) (iterable : Expr) (body : List Stmt) (v : Value) :
      Work env (.forEach p target iterable body) p.line (Run.inspect fun h => h.iterate v)
  | target (p : Position) (target : Target) (iterable : Expr) (body : List Stmt)
      (scope : ScopeRef) (item : Value) :
      Work env (.forEach p target iterable body) p.line (defineTarget scope target item)
  | importing (p : Position) (name : String) :
      Work env (.importModule p name) p.line (Scripting.importModule env name)
  | raise (p : Position) (value : Expr) (message : String) :
      Work env (.raise p (some value)) p.line (Run.fail (.of .raised message) : Run Flow)

theorem Stmt.Work.orderly {E : Fault → Prop} (hE : ∀ f : Fault, f.Proper → E f) {n : Nesting}
    (hs : s.Admissible n ∨ ∀ f, E f) (h : s.Work env line act) : act.Orderly E := by
  cases h with
  | unpack p target value v n => exact .imp hE (.inspect fun h => unpack_proper h v n)
  | store p target value c k v => exact (setItem_proper c k v).imp hE
  | read p op name value scope => exact (resolveName_proper env scope name 0).imp hE
  | fetch p op target value c k => exact .imp hE (.inspect fun h => getItem_proper h c k)
  | operate p op target value a b => exact (binary_proper op a b 0).imp hE
  | update p op target value c k v => exact (setItem_proper c k v).imp hE
  | group p op targets value => exact .fail (hs.elim (fun hs => absurd rfl (hs targets)) (· _))
  | iterate p target iterable body v => exact .imp hE (.inspect fun h => iterate_proper h v)
  | target p target iterable body scope item => exact defineTarget_orderly hE scope hs item
  | importing p name => exact (importModule_proper env name).imp hE
  | raise p value message => exact .fail (hE _ (Fault.of_proper (by decide) message))

theorem Stmt.Work.steady (h : s.Work env line act) : act.Steady :=
  .of (h.orderly (n := .top) (fun _ _ => trivial) (.inr fun _ => trivial))

theorem Stmt.Work.proper {n : Nesting} (hs : s.Admissible n)
    (h : s.Work env line act) : act.Faults Fault.Proper :=
  (h.orderly (fun _ => id) (.inl hs)).faults

/-! ### Host functions -/

def mapFault : Fault := argumentFault "map() must have at least two arguments"

/-- What a host function that comes with the language does itself, called with some
arguments. Only `sorted`, `map` and `filter` call functions. -/
inductive HostFunction.Work (codec : Document.Codec) (args : List Value) (keywords : Keywords) :
    HostCode → {β : Type} → Run β → Prop
  | check (b : Builtin) (quiet : Bool) :
      Work codec args keywords (.builtin b quiet) (Run.ofExcept (b.checkCall args keywords))
  | plain (b : Builtin) (quiet : Bool) (call : Caller) (hs : b ≠ .sorted) (hm : b ≠ .map)
      (hf : b ≠ .filter) :
      Work codec args keywords (.builtin b quiet) (b.body quiet call args keywords)
  | items (b : Builtin) (quiet : Bool) (v : Value) :
      Work codec args keywords (.builtin b quiet) (Run.inspect fun h => h.iterate v)
  | columns (quiet : Bool) (rest : List Value) :
      Work codec args keywords (.builtin .map quiet) (Run.inspect fun h => Builtin.columnsOf h rest)
  | noColumns (quiet : Bool) :
      Work codec args keywords (.builtin .map quiet) (Run.fail mapFault : Run Value)
  | reverse (quiet : Bool) :
      Work codec args keywords (.builtin .sorted quiet) (Run.ofExcept (keywords.bool "reverse" false))
  | sort (quiet reverse : Bool) (items : List Value) :
      Work codec args keywords (.builtin .sorted quiet) (Run.ofExcept (sortValues reverse items))
  | sortBy (quiet reverse : Bool) (keyed : List (Value × Value)) :
      Work codec args keywords (.builtin .sorted quiet) (Run.ofExcept (sortKeyed reverse keyed))
  | json (f : JsonFunction) :
      Work codec args keywords (.json f) (failOnError (f.run codec args keywords))
  | math (f : MathFunction) : Work codec args keywords (.math f) (Run.ofExcept (f.run args))

theorem HostFunction.Work.orderly {codec : Document.Codec} {args : List Value}
    {keywords : Keywords} {code : HostCode}
    (h : HostFunction.Work codec args keywords code act) : act.Orderly Fault.Proper := by
  cases h with
  | check b quiet => exact .ofExcept (checkCall_proper b args keywords)
  | plain b quiet call hs hm hf => exact builtin_proper quiet hs hm hf
  | items b quiet v => exact .inspect fun h => iterate_proper h v
  | columns quiet rest => exact .inspect fun h => columnsOf_proper h rest
  | noColumns => exact .fail (argumentFault_proper _)
  | reverse => exact .ofExcept (read_proper keywords _ _ _)
  | sort quiet reverse items => exact .ofExcept (sortValues_proper reverse items)
  | sortBy quiet reverse keyed => exact .ofExcept (sortKeyed_proper reverse keyed)
  | json f => exact failOnError_proper (f.run_proper codec args keywords)
  | math f => exact .ofExcept (f.run_proper args)

end Scripting
