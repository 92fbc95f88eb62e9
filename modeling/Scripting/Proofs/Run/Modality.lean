/-
# Pairs of runs and properties of runs that the evaluator keeps

A pairing is a relation between runs that holds of a quiet run and itself, and of one run after
another if it holds of both parts. What an expression or a statement does is put together from its
parts, the calls it makes, the functions it defines, its blocks and its own work. So two
evaluations are related as soon as these are.

A discipline is a property of runs, a pairing that looks at the first run only. A modality is a
discipline that all work on data has, whatever its faults, and that neither a line number nor a
checkpoint spoils.

Only the values that a first run can really give back matter to the second (`Pairing.bind`); so a
call is known to get as many arguments as are written.
-/
import Scripting.Proofs.Run.Works

namespace Scripting

variable {codec : Document.Codec}

def Run.MayGive {α : Type} (act : Run α) (a : α) : Prop := ∃ w w', act w = .ok a w'

/-- A relation between runs that the evaluator's ways of putting runs together keep. -/
structure Pairing where
  rel : {α : Type} → Run α → Run α → Prop
  quiet : ∀ {α : Type} {act : Run α}, act.Quiet → rel act act
  bind : ∀ {α β : Type} {act act' : Run α} {next next' : α → Run β}, rel act act' →
    (∀ a, act.MayGive a ∨ act'.MayGive a → rel (next a) (next' a)) →
    rel (act >>= next) (act' >>= next')

/-- A property of runs that the evaluator's ways of putting runs together keep. -/
structure Discipline where
  holds : {α : Type} → Run α → Prop
  quiet : ∀ {α : Type} {act : Run α}, act.Quiet → holds act
  bind : ∀ {α β : Type} {act : Run α} {next : α → Run β}, holds act →
    (∀ w a w', act w = .ok a w' → holds (next a)) → holds (act >>= next)

/-- A discipline of all runs that work on data, of checkpoints and of runs with a line
attached. -/
structure Modality extends Discipline where
  steady : ∀ {α : Type} {act : Run α}, act.Steady → holds act
  atLine : ∀ {α : Type} {line : Nat} {act : Run α}, holds act → holds (Run.atLine line act)
  checkpoint : ∀ line moments : Nat, holds (checkpoint line moments)
  quiet := fun h => steady h.steady

/-- How many arguments a host function may hand to the functions that it calls: a built-in
passes fewer than it was given, except that `sorted` calls its key, which it is given as a
keyword, with one. -/
def Discipline.CallsBack (args : List Value) (keywords : Keywords) (passed : List Value) : Prop :=
  passed.length < args.length ∨ (passed.length ≤ 1 ∧ keywords.entries ≠ [])

/-- A property of the first of two runs. -/
def Discipline.pairing (D : Discipline) : Pairing where
  rel act _ := D.holds act
  quiet h := D.quiet h
  bind ha hn := D.bind ha fun w a w' h => hn a (.inl ⟨w, w', h⟩)

theorem Run.bind_eq_ok {α β : Type} {act : Run α} {next : α → Run β} {w w' : World} {b : β}
    (h : (act >>= next) w = .ok b w') : ∃ a w₁, act w = .ok a w₁ ∧ next a w₁ = .ok b w' := by
  change Run.bind act next w = .ok b w' at h
  unfold Run.bind at h
  cases hw : act w with
  | ok a w₁ => rw [hw] at h; exact ⟨a, w₁, rfl, h⟩
  | fault f w₁ => rw [hw] at h; cases h
  | exhausted => rw [hw] at h; cases h

theorem evalEach_size (eval : Expr → Run Value) : ∀ (es : List Expr) (done : Array Value)
    {w w' : World} {vs : Array Value}, evalEach eval done es w = .ok vs w' →
    vs.size = done.size + es.length
  | [], done, w, w', vs, h => by
    cases h
    rfl
  | e :: es, done, w, w', vs, h => by
    obtain ⟨v, w₁, -, h⟩ := Run.bind_eq_ok h
    rw [evalEach_size eval es _ h, Array.size_push, List.length_cons]
    omega

theorem Run.MayGive.length_evalEach {eval : Expr → Run Value} {es : List Expr} {vs : Array Value}
    (h : (evalEach eval #[] es).MayGive vs) : vs.toList.length = es.length := by
  obtain ⟨w, w', h⟩ := h
  simpa using evalEach_size eval es #[] h

namespace Pairing

variable (R : Pairing) {α β : Type}

def Fits (act : Run α) : Prop := R.rel act act

theorem andThen {act act' : Run α} {next next' : α → Run β} (ha : R.rel act act')
    (hn : ∀ a, R.rel (next a) (next' a)) : R.rel (act >>= next) (act' >>= next') :=
  R.bind ha fun a _ => hn a

theorem pure (a : α) : R.Fits (Pure.pure a : Run α) := R.quiet (.pure a)

theorem view (f : World → α) : R.Fits (Run.view f) := R.quiet (.view f)

/-! ### Expressions -/

section Expressions

variable {eval eval' : Expr → Run Value} {call call' : FullCaller} {line : Nat}

theorem evalTest {e : Expr} (h : R.rel (eval e) (eval' e)) :
    R.rel (evalTest eval e) (evalTest eval' e) :=
  R.andThen h fun _ => R.view _

theorem evalEach : ∀ {es : List Expr} {done : Array Value}, (∀ e ∈ es, R.rel (eval e) (eval' e)) →
    R.rel (evalEach eval done es) (evalEach eval' done es)
  | [], _, _ => R.pure _
  | e :: _, _, h => R.andThen (h e (.head _)) fun _ =>
    evalEach fun e he => h e (.tail _ he)

theorem evalKeywords : ∀ {ks : List Keyword} {done : Keywords},
    (∀ k ∈ ks, R.rel (eval k.value) (eval' k.value)) →
    R.rel (evalKeywords eval done ks) (evalKeywords eval' done ks)
  | [], _, _ => R.pure _
  | k :: _, _, h => R.andThen (h k (.head _)) fun _ =>
    evalKeywords fun k hk => h k (.tail _ hk)

theorem evalEntries (hkey : ∀ v, R.Fits (Run.atLine line (Run.ofExcept (dictKey v)))) :
    ∀ {es : List DictEntry} {done : Table Value},
    (∀ e ∈ es, R.rel (eval e.key) (eval' e.key) ∧ R.rel (eval e.value) (eval' e.value)) →
    R.rel (evalEntries eval line done es) (evalEntries eval' line done es)
  | [], _, _ => R.pure _
  | e :: _, _, h => R.andThen (h e (.head _)).1 fun v => R.andThen (hkey v) fun _ =>
    R.andThen (h e (.head _)).2 fun _ =>
      evalEntries hkey fun e he => h e (.tail _ he)

theorem evalBinary {op : BinaryOp} {left right : Expr} (hl : R.rel (eval left) (eval' left))
    (hr : R.rel (eval right) (eval' right))
    (hop : ∀ a b, R.Fits (Run.atLine line (binary op a b 0))) :
    R.rel (evalBinary eval line op left right) (evalBinary eval' line op left right) :=
  R.andThen hl fun a => R.andThen hr fun b => atLine_binary op a b line ▸ hop a b

theorem evalLogic {op : LogicOp} {left right : Expr} (hl : R.rel (eval left) (eval' left))
    (hr : R.rel (eval right) (eval' right)) :
    R.rel (evalLogic eval op left right) (evalLogic eval' op left right) := by
  refine R.andThen hl fun a => R.andThen (R.view _) fun truthy => ?_
  split
  · exact R.pure _
  · exact R.pure _
  · exact hr

theorem evalConditional {condition thenValue elseValue : Expr}
    (hc : R.rel (eval condition) (eval' condition)) (ht : R.rel (eval thenValue) (eval' thenValue))
    (he : R.rel (eval elseValue) (eval' elseValue)) :
    R.rel (evalConditional eval condition thenValue elseValue)
      (evalConditional eval' condition thenValue elseValue) := by
  refine R.andThen (R.evalTest hc) fun test => ?_
  split
  · exact ht
  · exact he

theorem evalCall {callee : Expr} {args : List Expr} {keywords : List Keyword}
    (hf : R.rel (eval callee) (eval' callee)) (ha : ∀ e ∈ args, R.rel (eval e) (eval' e))
    (hk : ∀ k ∈ keywords, R.rel (eval k.value) (eval' k.value))
    (hc : ∀ f vs ks, vs.length = args.length → R.rel (call f vs ks line) (call' f vs ks line)) :
    R.rel (evalCall eval call line callee args keywords)
      (evalCall eval' call' line callee args keywords) := by
  refine R.andThen hf fun f => R.bind (R.evalEach ha) fun vs hvs => ?_
  refine R.andThen (R.evalKeywords hk) fun ks => hc f _ ks ?_
  exact hvs.elim (·.length_evalEach) (·.length_evalEach)

theorem evalMethod {object : Expr} {name : String} {args : List Expr} {keywords : List Keyword}
    (ho : R.rel (eval object) (eval' object)) (ha : ∀ e ∈ args, R.rel (eval e) (eval' e))
    (hk : ∀ k ∈ keywords, R.rel (eval k.value) (eval' k.value))
    (hc : ∀ f vs ks, vs.length = args.length → R.rel (call f vs ks line) (call' f vs ks line))
    (hm : ∀ v vs ks act, callMethod? v name vs ks = some act → R.Fits (Run.atLine line act))
    (hn : ∀ v, R.Fits (Run.atLine line (Run.fail (noMethod v name 0) : Run Value))) :
    R.rel (evalMethod eval call line object name args keywords)
      (evalMethod eval' call' line object name args keywords) := by
  refine R.andThen ho fun receiver => R.bind (R.evalEach ha) fun vs hvs => ?_
  refine R.andThen (R.evalKeywords hk) fun ks => R.andThen (R.view _) fun member => ?_
  split
  · exact hc _ _ ks (hvs.elim (·.length_evalEach) (·.length_evalEach))
  · split
    next act hact => exact hm _ _ _ act hact
    · exact hn receiver

theorem evalBound {bound : Option Expr} (h : ∀ e, bound = some e → R.rel (eval e) (eval' e))
    (hb : ∀ e, bound = some e → ∀ v,
      R.Fits (Run.atLine e.pos.line (Run.fail (boundFault v) : Run (Option Int64)))) :
    R.rel (evalBound eval bound) (evalBound eval' bound) := by
  cases bound with
  | none => exact R.pure _
  | some e =>
    refine R.andThen (h e rfl) fun v => ?_
    split
    · exact R.pure _
    · exact R.pure _
    · exact hb e rfl _

theorem evalSlice {container : Expr} {start stop step : Option Expr}
    (hc : R.rel (eval container) (eval' container))
    (h : ∀ e ∈ start.toList ++ stop.toList ++ step.toList, R.rel (eval e) (eval' e) ∧
      ∀ v, R.Fits (Run.atLine e.pos.line (Run.fail (boundFault v) : Run (Option Int64))))
    (hs : ∀ v bounds, R.Fits (Run.atLine line (slice v bounds))) :
    R.rel (evalSlice eval line container start stop step)
      (evalSlice eval' line container start stop step) := by
  have hbound {o : Option Expr}
      (ho : ∀ e, o = some e → e ∈ start.toList ++ stop.toList ++ step.toList) :
      R.rel (Scripting.evalBound eval o) (Scripting.evalBound eval' o) :=
    R.evalBound (fun e he => (h e (ho e he)).1) fun e he => (h e (ho e he)).2
  refine R.andThen hc fun _ => ?_
  refine R.andThen (hbound fun e he => by simp [he]) fun _ => ?_
  refine R.andThen (hbound fun e he => by simp [he]) fun _ => ?_
  exact R.andThen (hbound fun e he => by simp [he]) fun _ => hs _ _

theorem evalParams : ∀ {ps : List Param} {done : Array ParamSlot},
    (∀ e ∈ ps.filterMap Param.default, R.rel (eval e) (eval' e)) →
    R.rel (evalParams eval done ps) (evalParams eval' done ps)
  | [], _, _ => R.pure _
  | p :: ps, _, h => by
    have ih {done : Array ParamSlot} :
        R.rel (Scripting.evalParams eval done ps) (Scripting.evalParams eval' done ps) :=
      evalParams fun e he => h e (by
        obtain ⟨q, hq, hqe⟩ := List.mem_filterMap.1 he
        exact List.mem_filterMap.2 ⟨q, List.mem_cons_of_mem p hq, hqe⟩)
    rw [Scripting.evalParams, Scripting.evalParams]
    split
    · exact ih
    next e he =>
      exact R.andThen (h e (List.mem_filterMap.2 ⟨p, .head _, he⟩)) fun _ => ih

theorem makeClosure {scope : ScopeRef} {name : String} {ps : List Param} {body : List Stmt}
    (hp : ∀ e ∈ ps.filterMap Param.default, R.rel (eval e) (eval' e))
    (hn : ∀ c : Closure, c.body = body → R.Fits (Run.newFunction (.script c))) :
    R.rel (makeClosure eval scope name ps body) (makeClosure eval' scope name ps body) :=
  R.andThen (R.evalParams hp) fun _ => hn _ rfl

theorem formatParts (hf : ∀ v repr spec,
      R.Fits (Run.atLine line (Run.inspect fun h => formatPart h v repr spec))) :
    ∀ {parts : List FStringPart} {done : String},
    (∀ e ∈ parts.filterMap FStringPart.value?, R.rel (eval e) (eval' e)) →
    R.rel (formatParts eval line done parts) (formatParts eval' line done parts)
  | [], _, _ => R.pure _
  | .text _ :: _, _, h => by
    rw [Scripting.formatParts, Scripting.formatParts]
    exact formatParts hf h
  | .field e repr spec :: _, _, h => R.andThen (h e (.head _)) fun v =>
    R.andThen (hf v repr spec) fun _ => formatParts hf fun e he => h e (.tail _ he)

end Expressions

/-! ### Comprehensions -/

section Comprehensions

variable {eval eval' : ScopeRef → Expr → Run Value} {line : Nat} {scope : ScopeRef}
  {clause : Clause}

theorem foldItems {step step' : α → Value → Run α}
    (h : ∀ acc item, R.rel (step acc item) (step' acc item)) : ∀ {items : List Value} {acc : α},
    R.rel (foldItems step acc items) (foldItems step' acc items)
  | [], _ => R.pure _
  | item :: _, acc => R.andThen (h acc item) fun _ => foldItems h

/-- What a comprehension's loop consists of, apart from what it emits: the expressions
of its clause, a checkpoint in every round, the items, and the target that is bound. -/
structure Comprehends (eval eval' : ScopeRef → Expr → Run Value) (line : Nat) (clause : Clause) :
    Prop where
  parts : ∀ inner, ∀ e ∈ clause.parts, R.rel (eval inner e) (eval' inner e)
  checkpoint : R.Fits (checkpoint line)
  iterate : ∀ v, R.Fits (Run.atLine line (Run.inspect fun h => h.iterate v))
  target : ∀ inner item, R.Fits (Run.atLine line (defineTarget inner clause.target item))

variable {R} (h : R.Comprehends eval eval' line clause)
include h

theorem comprehendItem {inner : ScopeRef} {emit emit' : α → Run α} {acc : α} {item : Value}
    (he : ∀ acc, R.rel (emit acc) (emit' acc)) :
    R.rel (comprehendItem (eval inner) line inner clause emit acc item)
      (comprehendItem (eval' inner) line inner clause emit' acc item) := by
  refine R.andThen h.checkpoint fun _ => R.andThen (h.target inner item) fun _ => ?_
  split
  · exact he acc
  next e hcond =>
    have hpart : e ∈ clause.parts := by simp [Clause.parts, hcond]
    refine R.andThen (R.evalTest (h.parts inner e hpart)) fun test => ?_
    split
    · exact he acc
    · exact R.pure _

theorem comprehend {emit emit' : ScopeRef → α → Run α} {start : α}
    (he : ∀ inner acc, R.rel (emit inner acc) (emit' inner acc)) :
    R.rel (comprehend eval line scope clause emit start)
      (comprehend eval' line scope clause emit' start) := by
  have hiterable : clause.iterable ∈ clause.parts := .head _
  refine R.andThen (h.parts scope _ hiterable) fun v => R.andThen (h.iterate v) fun items => ?_
  refine R.andThen (R.quiet (.allocate fun x => .newScope x _)) fun inner => ?_
  exact R.foldItems fun acc item => comprehendItem h (he inner)

theorem evalListOf {item : Expr} (he : ∀ inner, R.rel (eval inner item) (eval' inner item)) :
    R.rel (evalListOf eval line scope item clause)
      (evalListOf eval' line scope item clause) :=
  R.andThen (comprehend h fun inner _ => R.andThen (he inner) fun _ => R.pure _) fun _ =>
    R.quiet (.newList _)

theorem evalDictOf {key value : Expr} (hk : ∀ inner, R.rel (eval inner key) (eval' inner key))
    (hv : ∀ inner, R.rel (eval inner value) (eval' inner value))
    (hkey : ∀ v, R.Fits (Run.atLine line (Run.ofExcept (dictKey v)))) :
    R.rel (evalDictOf eval line scope key value clause)
      (evalDictOf eval' line scope key value clause) :=
  R.andThen (comprehend h fun inner _ => R.andThen (hk inner) fun v => R.andThen (hkey v) fun _ =>
    R.andThen (hv inner) fun _ => R.pure _) fun _ => R.quiet (.newDict _)

end Comprehensions

/-! ### Statements -/

section Statements

variable {eval eval' : Expr → Run Value} {line : Nat} {scope : ScopeRef}

theorem runBlock {exec exec' : Stmt → Run Flow} : ∀ {body : List Stmt},
    (∀ s ∈ body, R.rel (exec s) (exec' s)) →
    R.rel (runBlock exec body) (runBlock exec' body)
  | [], _ => R.pure _
  | s :: rest, h => by
    have ih : R.rel (Scripting.runBlock exec rest) (Scripting.runBlock exec' rest) :=
      runBlock fun t ht => h t (.tail _ ht)
    refine R.andThen (h s (.head _)) fun flow => ?_
    split
    · exact ih
    · exact R.pure _

theorem runBranches {block block' : List Stmt → Run Flow} {otherwise : Option (List Stmt)}
    (ho : ∀ body, otherwise = some body → R.rel (block body) (block' body)) :
    ∀ {branches : List Branch},
    (∀ b ∈ branches, R.rel (eval b.condition) (eval' b.condition) ∧
      R.rel (block b.body) (block' b.body)) →
    R.rel (runBranches eval block otherwise branches)
      (runBranches eval' block' otherwise branches)
  | [], _ => by
    cases otherwise with
    | none => exact R.pure _
    | some body => exact ho body rfl
  | b :: rest, h => by
    have ih : R.rel (Scripting.runBranches eval block otherwise rest)
        (Scripting.runBranches eval' block' otherwise rest) :=
      runBranches ho fun t ht => h t (.tail _ ht)
    refine R.andThen (R.evalTest (h b (.head _)).1) fun test => ?_
    split
    · exact (h b (.head _)).2
    · exact ih

theorem loopOver {body body' : Value → Run Flow} (h : ∀ item, R.rel (body item) (body' item)) :
    ∀ {items : List Value}, R.rel (loopOver body items) (loopOver body' items)
  | [] => R.pure _
  | item :: rest => by
    have ih : R.rel (Scripting.loopOver body rest) (Scripting.loopOver body' rest) := loopOver h
    refine R.andThen (h item) fun flow => ?_
    split
    · exact R.pure _
    · exact R.pure _
    · exact ih
    · exact ih

theorem runFor {block block' : ScopeRef → List Stmt → Run Flow} {target : Target}
    {iterable : Expr} {body : List Stmt} (hi : R.rel (eval iterable) (eval' iterable))
    (hb : ∀ inner, R.rel (block inner body) (block' inner body)) (hcheck : R.Fits (checkpoint line))
    (hit : ∀ v, R.Fits (Run.atLine line (Run.inspect fun h => h.iterate v)))
    (ht : ∀ inner item, R.Fits (Run.atLine line (defineTarget inner target item))) :
    R.rel (runFor eval block line scope target iterable body)
      (runFor eval' block' line scope target iterable body) := by
  refine R.andThen hi fun v => R.andThen (hit v) fun items => R.loopOver ?_
  intro item
  refine R.andThen hcheck fun _ => ?_
  refine R.andThen (R.quiet (.allocate fun h => .newScope h _)) fun inner => ?_
  exact R.andThen (ht inner item) fun _ => hb inner

theorem whileTest {condition : Expr} (hcheck : R.Fits (checkpoint line))
    (h : R.rel (eval condition) (eval' condition)) :
    R.rel (whileTest eval line condition) (whileTest eval' line condition) :=
  R.andThen hcheck fun _ => R.evalTest h

theorem loopWhile {test test' : Run Bool} {body body' : Run Flow} {more : Nat}
    (hx : R.rel (Run.exhausted : Run Flow) (loopWhile test' body' more)) (ht : R.rel test test')
    (hb : R.rel body body') : ∀ fuel : Nat,
    R.rel (loopWhile test body fuel) (loopWhile test' body' (fuel + more))
  | 0 => by
    rw [Nat.zero_add]
    exact hx
  | fuel + 1 => by
    have ih := loopWhile hx ht hb fuel
    rw [Nat.add_right_comm]
    refine R.andThen ht fun go => ?_
    split
    · refine R.andThen hb fun flow => ?_
      split
      · exact R.pure _
      · exact R.pure _
      · exact ih
      · exact ih
    · exact R.pure _

mutual

theorem assignTarget (hset : ∀ c k v, R.Fits (Run.atLine line (setItem c k v)))
    (hun : ∀ v n, R.Fits (Run.atLine line (Run.inspect fun h => h.unpack v n))) :
    ∀ {t : Target} {v : Value}, (∀ e ∈ t.exprs, R.rel (eval e) (eval' e)) →
    R.rel (assignTarget eval scope line t v) (assignTarget eval' scope line t v)
  | .name name, v, _ => by
    rw [Scripting.assignTarget, Scripting.assignTarget]
    exact R.quiet (.changeHeap fun x => .assign x scope name v)
  | .index container key, v, h => by
    rw [Target.exprs] at h
    rw [Scripting.assignTarget, Scripting.assignTarget]
    exact R.andThen (h container (by simp)) fun c => R.andThen (h key (by simp)) fun k => hset c k v
  | .group targets, v, h => by
    rw [Target.exprs] at h
    rw [Scripting.assignTarget, Scripting.assignTarget]
    exact R.andThen (hun v _) fun items => assignTargets hset hun h

theorem assignTargets (hset : ∀ c k v, R.Fits (Run.atLine line (setItem c k v)))
    (hun : ∀ v n, R.Fits (Run.atLine line (Run.inspect fun h => h.unpack v n))) :
    ∀ {ts : List Target} {vs : List Value}, (∀ e ∈ Target.exprsAll ts, R.rel (eval e) (eval' e)) →
    R.rel (assignTargets eval scope line ts vs) (assignTargets eval' scope line ts vs)
  | [], _, _ => by
    rw [Scripting.assignTargets.eq_2 _ _ _ _ _ (by simp),
      Scripting.assignTargets.eq_2 _ _ _ _ _ (by simp)]
    exact R.pure _
  | _ :: _, [], _ => by
    rw [Scripting.assignTargets.eq_2 _ _ _ _ _ (by simp),
      Scripting.assignTargets.eq_2 _ _ _ _ _ (by simp)]
    exact R.pure _
  | t :: ts, v :: vs, h => by
    rw [Target.exprsAll, List.forall_mem_append] at h
    rw [Scripting.assignTargets, Scripting.assignTargets]
    exact R.andThen (assignTarget hset hun h.1) fun _ => assignTargets hset hun h.2

end

theorem augment {env : Environment} {op : BinaryOp} {target : Target} {value : Expr}
    (h : ∀ e ∈ value :: target.exprs, R.rel (eval e) (eval' e))
    (hname : ∀ name, target = .name name → R.Fits (Run.atLine line (resolveName env scope name 0)))
    (hget : ∀ c k, R.Fits (Run.atLine line (Run.inspect fun h => h.getItem c k)))
    (hop : ∀ a b, R.Fits (Run.atLine line (binary op a b 0)))
    (hset : ∀ c k v, R.Fits (Run.atLine line (setItem c k v)))
    (hgroup : ∀ targets, target = .group targets →
      R.Fits (Run.atLine line (Run.fail groupFault : Run Flow))) :
    R.rel (augment eval env scope line op target value)
      (augment eval' env scope line op target value) := by
  have hvalue : R.rel (eval value) (eval' value) := h value (.head _)
  have hop (a b : Value) : R.Fits (binary op a b line) := atLine_binary op a b line ▸ hop a b
  cases target with
  | name name =>
    have hname := hname name rfl
    rw [atLine_resolveName] at hname
    refine R.andThen hname fun current => R.andThen hvalue fun v => ?_
    refine R.andThen (hop current v) fun u => ?_
    exact R.andThen (R.quiet (.changeHeap fun x => .assign x scope name u)) fun _ => R.pure _
  | index container key =>
    have hcontainer : R.rel (eval container) (eval' container) := h container (by simp [Target.exprs])
    have hkey : R.rel (eval key) (eval' key) := h key (by simp [Target.exprs])
    refine R.andThen hcontainer fun c => R.andThen hkey fun k => R.andThen (hget c k) fun current => ?_
    refine R.andThen hvalue fun v => R.andThen (hop current v) fun u => ?_
    exact R.andThen (hset c k u) fun _ => R.pure _
  | group targets => exact hgroup targets rfl

theorem runDefine {name : String} {ps : List Param} {body : List Stmt}
    (hp : ∀ e ∈ ps.filterMap Param.default, R.rel (eval e) (eval' e))
    (hn : ∀ c : Closure, c.body = body → R.Fits (Run.newFunction (.script c))) :
    R.rel (runDefine eval scope name ps body) (runDefine eval' scope name ps body) :=
  R.andThen (R.makeClosure hp hn) fun f =>
    R.andThen (R.quiet (.changeHeap fun x => .define x _ name f)) fun _ => R.pure _

theorem runGiveBack {value : Option Expr} (h : ∀ e ∈ value.toList, R.rel (eval e) (eval' e)) :
    R.rel (runGiveBack eval value) (runGiveBack eval' value) := by
  cases value with
  | none => exact R.pure _
  | some e => exact R.andThen (h e (.head _)) fun _ => R.pure _

theorem raiseFault {e : Expr} (h : R.rel (eval e) (eval' e))
    (hr : ∀ message, R.Fits (Run.atLine line (Run.fail (.of .raised message) : Run Flow))) :
    R.rel (raiseFault eval line (some e)) (raiseFault eval' line (some e)) :=
  R.andThen h fun _ => R.andThen (R.view _) fun _ => hr _

end Statements

/-! ### Caught faults -/

/-- A pairing that stays when a fault is caught. -/
structure Catches : Prop where
  fail : ∀ {α : Type} (f : Fault), R.Fits (Run.fail f : Run α)
  attempt : ∀ {α : Type} {act act' : Run α}, R.rel act act' →
    R.rel (Run.attempt act) (Run.attempt act')
  handling : ∀ {α : Type} {f : Fault} {act act' : Run α}, R.rel act act' →
    R.rel (whileHandling f act) (whileHandling f act')

section Caught

variable {block block' : List Stmt → Run Flow} {scope : ScopeRef} {handlers : List Handler}

theorem handleFault {f : Fault} (hf : R.Fits (Run.fail f : Run Flow))
    (hh : ∀ k ∈ handlers,
      R.rel (whileHandling f (block k.body)) (whileHandling f (block' k.body))) :
    R.rel (handleFault block scope handlers f) (handleFault block' scope handlers f) := by
  unfold Scripting.handleFault
  split
  · exact hf
  split
  · exact hf
  next k hk =>
    have hrun := hh k (List.mem_of_find?_eq_some hk)
    cases k.binding with
    | none => exact hrun
    | some name => exact R.andThen (R.quiet (.changeHeap fun x => .assign x scope name _)) fun _ => hrun

theorem attempt_of_catches (hc : R.Catches) {p : Position} {body : List Stmt}
    {otherwise always : Option (List Stmt)}
    (hb : ∀ b ∈ (Stmt.attempt p body handlers otherwise always).blocks,
      R.rel (block b) (block' b)) :
    R.rel (attempt block scope body handlers otherwise always)
      (attempt block' scope body handlers otherwise always) := by
  simp only [Stmt.blocks, List.mem_append, List.mem_cons, List.mem_map, Option.mem_toList] at hb
  have hbody : R.rel (attemptBody block scope body handlers otherwise)
      (attemptBody block' scope body handlers otherwise) := by
    refine R.andThen (hc.attempt (hb body (.inl (.inl (.inl rfl))))) fun outcome => ?_
    split
    · split
      next rest => exact hb rest (.inl (.inr rfl))
      · exact R.pure _
    · exact R.pure _
    next f =>
      exact R.handleFault (hc.fail f) fun k hk =>
        hc.handling (hb k.body (.inl (.inl (.inr ⟨k, hk, rfl⟩))))
  unfold Scripting.attempt
  split
  · exact hbody
  next last =>
    refine R.andThen (hc.attempt hbody) fun outcome => R.andThen (hb last (.inr rfl)) fun flow => ?_
    split
    · cases outcome with
      | ok flow => exact R.pure flow
      | error f => exact hc.fail f
    · exact R.pure _

end Caught

/-! ### Host functions -/

theorem callRows {call call' : List Value → Run Value} : ∀ {rows : List (List Value)}
    {done : Array Value}, (∀ row ∈ rows, R.rel (call row) (call' row)) →
    R.rel (callRows call done rows) (callRows call' done rows)
  | [], _, _ => R.pure _
  | row :: _, _, h => R.andThen (h row (.head _)) fun _ =>
    callRows fun r hr => h r (.tail _ hr)

theorem keepItems {test test' : Value → Run Bool} (h : ∀ item, R.rel (test item) (test' item)) :
    ∀ {items : List Value} {kept : Array Value},
    R.rel (keepItems test kept items) (keepItems test' kept items)
  | [], _ => R.pure _
  | item :: _, _ => R.andThen (h item) fun _ => keepItems h

theorem columnsOf_length {h : Heap} : ∀ {args : List Value} {columns : List (List Value)},
    Builtin.columnsOf h args = .ok columns → columns.length = args.length
  | [], columns, hc => by
    cases hc
    rfl
  | a :: args, columns, hc => by
    unfold Builtin.columnsOf at hc
    rw [List.mapM_cons] at hc
    cases hi : h.iterate a with
    | error f => rw [hi] at hc; cases hc
    | ok items =>
      rw [hi] at hc
      cases hr : args.mapM h.iterate with
      | error f => rw [hr] at hc; cases hc
      | ok rest =>
        rw [hr] at hc
        cases hc
        simp [columnsOf_length hr]

theorem length_of_mem_rowsOf {columns : List (List Value)} {row : List Value}
    (h : row ∈ rowsOf columns) : row.length = columns.length := by
  unfold rowsOf at h
  obtain ⟨i, -, rfl⟩ := List.mem_map.1 h
  simp

section Builtins

variable {call call' : Caller} {args : List Value} {keywords : Keywords}

theorem mappedRows
    (h : ∀ f passed, passed.length < args.length → R.rel (call f passed) (call' f passed))
    (hc : ∀ rest, R.Fits (Run.inspect fun h => Builtin.columnsOf h rest))
    (hn : R.Fits (Run.fail mapFault : Run Value)) :
    R.rel (Builtin.mappedRows call args) (Builtin.mappedRows call' args) := by
  unfold Builtin.mappedRows
  split
  next f first rest =>
    refine R.bind (hc _) fun columns hcolumns => ?_
    refine R.andThen (R.callRows fun row hrow => h f row ?_) fun _ => R.quiet (.newList _)
    have hlen : columns.length = (first :: rest).length := by
      obtain ⟨w, w', hrun⟩ := (or_self_iff.1 hcolumns)
      unfold Run.inspect at hrun
      split at hrun <;> cases hrun
      next hcols => exact columnsOf_length hcols
    rw [length_of_mem_rowsOf hrow, hlen]
    simp
  · exact hn

theorem filteredItems {test v : Value} (h : ∀ f item, R.rel (call f [item]) (call' f [item]))
    (hi : R.Fits (Run.inspect fun h => h.iterate v)) :
    R.rel (Builtin.filteredItems call test v) (Builtin.filteredItems call' test v) := by
  refine R.andThen hi fun items => ?_
  have hkeep (kept : Array Value) : R.Fits (Run.newList kept) := R.quiet (.newList kept)
  cases test with
  | none => exact R.andThen (R.keepItems fun _ => R.view _) hkeep
  | _ => exact R.andThen (R.keepItems fun _ => R.andThen (h _ _) fun _ => R.view _) hkeep

theorem sortedItems {v : Value}
    (h : keywords.entries ≠ [] → ∀ f item, R.rel (call f [item]) (call' f [item]))
    (hr : R.Fits (Run.ofExcept (keywords.bool "reverse" false)))
    (hi : R.Fits (Run.inspect fun h => h.iterate v))
    (hs : ∀ reverse items, R.Fits (Run.ofExcept (sortValues reverse items)))
    (hk : ∀ reverse (keyed : List (Value × Value)), R.Fits (Run.ofExcept (sortKeyed reverse keyed))) :
    R.rel (Builtin.sortedItems call v keywords) (Builtin.sortedItems call' v keywords) := by
  refine R.andThen hr fun reverse => R.andThen hi fun items => ?_
  split
  · exact R.andThen (hs reverse items) fun _ => R.quiet (.newList _)
  · exact R.andThen (hs reverse items) fun _ => R.quiet (.newList _)
  next key _ hkey =>
    have hne : keywords.entries ≠ [] := by
      intro he
      simp [Table.get?, he, Table.find] at hkey
    refine R.andThen (R.callRows fun row hrow => ?_) fun keys =>
      R.andThen (hk reverse _) fun _ => R.quiet (.newList _)
    obtain ⟨item, -, rfl⟩ := List.mem_map.1 hrow
    exact h hne key item

theorem filter_args (h : Builtin.filter.checkCall args keywords = .ok ()) : args.length = 2 := by
  unfold Builtin.checkCall at h
  simp only [Builtin.keywords] at h
  cases hk : Keywords.only keywords Builtin.filter.text [] with
  | error f => rw [hk] at h; cases h
  | ok u =>
    rw [hk] at h
    change (ArgCount.exactly 2).check _ args = .ok () at h
    unfold ArgCount.check at h
    simp only at h
    split at h
    · assumption
    · cases h

/-- A built-in that calls nothing does not know its caller. -/
theorem builtin_body_congr {b : Builtin} (quiet : Bool) (hs : b ≠ .sorted) (hm : b ≠ .map)
    (hf : b ≠ .filter) : b.body quiet call args keywords = b.body quiet call' args keywords := by
  cases b with
  | sorted => exact absurd rfl hs
  | map => exact absurd rfl hm
  | filter => exact absurd rfl hf
  | _ => rfl

theorem builtin {b : Builtin} {quiet : Bool}
    (h : ∀ f passed, Discipline.CallsBack args keywords passed → R.rel (call f passed) (call' f passed))
    (hw : ∀ {β : Type} {act : Run β}, HostFunction.Work codec args keywords (.builtin b quiet) act →
      R.Fits act) : R.rel (b.run quiet call args keywords) (b.run quiet call' args keywords) := by
  refine R.bind (hw (.check b quiet)) fun _ hcheck => ?_
  by_cases hs : b = .sorted
  · subst hs
    exact R.sortedItems (fun hne f item => h f [item] (.inr ⟨by simp, hne⟩)) (hw (.reverse quiet))
      (hw (.items _ quiet _)) (fun _ _ => hw (.sort quiet _ _)) fun _ _ => hw (.sortBy quiet _ _)
  by_cases hm : b = .map
  · subst hm
    exact R.mappedRows (fun f passed hlt => h f passed (.inl hlt)) (fun _ => hw (.columns quiet _))
      (hw (.noColumns quiet))
  by_cases hf : b = .filter
  · subst hf
    refine R.filteredItems (fun f item => h f [item] (.inl ?_)) (hw (.items _ quiet _))
    have hargs : args.length = 2 := by
      obtain ⟨w, w', hrun⟩ := (or_self_iff.1 hcheck)
      unfold Run.ofExcept at hrun
      split at hrun <;> cases hrun
      exact filter_args ‹_›
    rw [hargs]
    simp
  have hsame : b.body quiet call' args keywords = b.body quiet call args keywords :=
    builtin_body_congr quiet hs hm hf
  change R.rel (b.body quiet call args keywords) (b.body quiet call' args keywords)
  rw [hsame]
  exact hw (.plain b quiet call hs hm hf)

/-- Host functions are related if their callbacks, their own work and the functions of the
embedding program are. -/
theorem invoke {natives natives' : String → HostBody} {f : HostFunction}
    (h : ∀ g passed, Discipline.CallsBack args keywords passed → R.rel (call g passed) (call' g passed))
    (hw : ∀ {β : Type} {act : Run β}, HostFunction.Work codec args keywords f.code act → R.Fits act)
    (hn : ∀ code, f.code = .native code →
      R.rel (natives code call args keywords) (natives' code call' args keywords)) :
    R.rel (f.invoke natives call args keywords codec) (f.invoke natives' call' args keywords codec) := by
  unfold HostFunction.invoke
  split
  next b quiet hcode => exact R.builtin h fun hact => hw (hcode ▸ hact)
  next f hcode => exact hw (hcode ▸ .json f)
  next f hcode => exact hw (hcode ▸ .math f)
  next code hcode => exact hn code hcode

end Builtins

end Pairing

namespace Discipline

variable (D : Discipline) {α β : Type}

theorem andThen {act : Run α} {next : α → Run β} (ha : D.holds act) (hn : ∀ a, D.holds (next a)) :
    D.holds (act >>= next) :=
  D.bind ha fun _ a _ _ => hn a

theorem pure (a : α) : D.holds (Pure.pure a : Run α) := D.quiet (.pure a)

theorem view (f : World → α) : D.holds (Run.view f) := D.quiet (.view f)

theorem runBlock {exec : Stmt → Run Flow} {body : List Stmt} (h : ∀ s ∈ body, D.holds (exec s)) :
    D.holds (runBlock exec body) := by
  have hpair : D.pairing.Fits (Scripting.runBlock exec body) := D.pairing.runBlock h
  exact hpair

theorem whileTest {eval : Expr → Run Value} {line : Nat} {condition : Expr}
    (hcheck : D.holds (checkpoint line)) (h : D.holds (eval condition)) :
    D.holds (whileTest eval line condition) := by
  have hpair : D.pairing.Fits (Scripting.whileTest eval line condition) :=
    D.pairing.whileTest hcheck h
  exact hpair

theorem loopWhile {test : Run Bool} {body : Run Flow} (hx : D.holds (Run.exhausted : Run Flow))
    (ht : D.holds test) (hb : D.holds body) (fuel : Nat) : D.holds (loopWhile test body fuel) := by
  have hpair : D.pairing.rel (Scripting.loopWhile test body fuel)
      (Scripting.loopWhile test body (fuel + 0)) := D.pairing.loopWhile hx ht hb fuel
  exact hpair

theorem invoke {call : Caller} {args : List Value} {keywords : Keywords}
    {natives : String → HostBody} {f : HostFunction}
    (h : ∀ g passed, CallsBack args keywords passed → D.holds (call g passed))
    (hw : ∀ {β : Type} {act : Run β}, HostFunction.Work codec args keywords f.code act → D.holds act)
    (hn : ∀ code, f.code = .native code → D.holds (natives code call args keywords)) :
    D.holds (f.invoke natives call args keywords codec) := by
  have hpair : D.pairing.Fits (f.invoke natives call args keywords codec) := D.pairing.invoke h hw hn
  exact hpair

end Discipline

namespace Modality

variable (M : Modality) {α : Type}

theorem fail (f : Fault) : M.holds (Run.fail f : Run α) := M.steady (.of (.fail trivial))

theorem inspect (f : Heap → Except Fault α) : M.holds (Run.inspect f) :=
  M.steady (.of (.inspect fun _ _ _ => trivial))

theorem ofExcept (r : Except Fault α) : M.holds (Run.ofExcept r) :=
  M.steady (.of (.ofExcept fun _ _ => trivial))

end Modality

end Scripting
