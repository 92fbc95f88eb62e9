/-
# The parts of a script

Which expressions and blocks stand directly in an expression or a statement, and from
that what stands in a script at any depth. A statement stands in a nesting: the body of a
loop is in a loop, and the body of a function is in a function and in no loop yet. The
body of a lambda is a statement that gives back its expression.

All parts are smaller than what they stand in, which is what an induction on the size of
the syntax needs.
-/
import Scripting.Grammar.Stmt

namespace Scripting

variable {body : List Stmt} {e : Expr}

mutual

def Target.exprs : Target → List Expr
  | .name _ => []
  | .index container key => [container, key]
  | .group targets => Target.exprsAll targets

def Target.exprsAll : List Target → List Expr
  | [] => []
  | target :: rest => target.exprs ++ Target.exprsAll rest

end

theorem Target.mem_exprsAll {e : Expr} : ∀ {targets : List Target},
    e ∈ Target.exprsAll targets ↔ ∃ t ∈ targets, e ∈ t.exprs
  | [] => by simp [Target.exprsAll]
  | target :: rest => by
    rw [Target.exprsAll, List.mem_append, @mem_exprsAll e rest]
    simp

/-- The expressions of a comprehension's loop. -/
def Clause.parts (c : Clause) : List Expr := c.iterable :: c.condition.toList ++ c.target.exprs

def FStringPart.value? : FStringPart → Option Expr
  | .text _ => none
  | .field value _ _ => some value

/-- The expressions that stand directly in an expression. -/
def Expr.parts : Expr → List Expr
  | .int .. | .float .. | .str .. | .bool .. | .none _ | .name .. => []
  | .binary _ _ left right => [left, right]
  | .logic _ _ left right => [left, right]
  | .unary _ _ operand => [operand]
  | .conditional _ condition thenValue elseValue => [condition, thenValue, elseValue]
  | .call _ callee args keywords => callee :: args ++ keywords.map Keyword.value
  | .index _ container key => [container, key]
  | .slice _ container start stop step =>
    container :: start.toList ++ stop.toList ++ step.toList
  | .member _ object _ => [object]
  | .method _ object _ args keywords => object :: args ++ keywords.map Keyword.value
  | .list _ items => items
  | .dict _ entries => entries.map DictEntry.key ++ entries.map DictEntry.value
  | .listOf _ item clause => item :: clause.parts
  | .dictOf _ key value clause => key :: value :: clause.parts
  | .lambda _ params body => body :: params.filterMap Param.default
  | .fstring _ parts => parts.filterMap FStringPart.value?

def Expr.clause? : Expr → Option Clause
  | .listOf _ _ clause => some clause
  | .dictOf _ _ _ clause => some clause
  | _ => .none

/-- Whether an expression calls something: a function, or a method. -/
def Expr.isCall : Expr → Bool
  | .call .. | .method .. => true
  | _ => false

namespace Stmt

def exprs : Stmt → List Expr
  | .assign _ target value => value :: target.exprs
  | .augment _ _ target value => value :: target.exprs
  | .branch _ branches _ => branches.map Branch.condition
  | .forEach _ target iterable _ => iterable :: target.exprs
  | .whileTrue _ condition _ => [condition]
  | .define _ _ params _ => params.filterMap Param.default
  | .giveBack _ value => value.toList
  | .raise _ value => value.toList
  | .expr value => [value]
  | _ => []

def blocks : Stmt → List (List Stmt)
  | .branch _ branches otherwise => branches.map Branch.body ++ otherwise.toList
  | .forEach _ _ _ body => [body]
  | .whileTrue _ _ body => [body]
  | .define _ _ _ body => [body]
  | .attempt _ body handlers otherwise always =>
    body :: handlers.map Handler.body ++ otherwise.toList ++ always.toList
  | _ => []

/-- The blocks that a statement runs: all but the body of a function. -/
def runs : Stmt → List (List Stmt)
  | .define .. => []
  | s => s.blocks

theorem mem_blocks_of_runs {s : Stmt} (h : body ∈ s.runs) : body ∈ s.blocks := by
  cases s with
  | define => cases h
  | _ => exact h

/-- What encloses the blocks of a statement that stands in a nesting. -/
def inner (n : Nesting) : Stmt → Nesting
  | .forEach .. | .whileTrue .. => n.loop
  | .define .. => .function
  | _ => n

end Stmt

mutual

/-- A statement stands somewhere in a script, at any depth, and this encloses it. -/
inductive Stmt.Stands (program : Program) : Nesting → Stmt → Prop
  | top {s : Stmt} (h : s ∈ program) : Stmt.Stands program .top s
  | block {n : Nesting} {s t : Stmt} {body : List Stmt} (h : Stmt.Stands program n s)
      (hbody : body ∈ s.blocks) (ht : t ∈ body) : Stmt.Stands program (s.inner n) t
  | lambda {pos : Position} {params : List Param} {body : Expr}
      (h : Expr.Stands program (.lambda pos params body)) :
      Stmt.Stands program .function (.giveBack pos (some body))

/-- An expression stands somewhere in a script, at any depth. -/
inductive Expr.Stands (program : Program) : Expr → Prop
  | stmt {n : Nesting} {s : Stmt} {e : Expr} (h : Stmt.Stands program n s) (he : e ∈ s.exprs) :
      Expr.Stands program e
  | part {e part : Expr} (h : Expr.Stands program e) (hpart : part ∈ e.parts) :
      Expr.Stands program part

end

/-! ### Sizes of syntax -/

theorem length_lt_sizeOf {α : Type} [SizeOf α] : ∀ xs : List α, xs.length < sizeOf xs
  | [] => by simp
  | x :: xs => by
    have := length_lt_sizeOf xs
    rw [List.length_cons, List.cons.sizeOf_spec]
    omega

theorem Keyword.sizeOf_value_lt (k : Keyword) : sizeOf k.value < sizeOf k := by
  cases k
  simp only [Keyword.mk.sizeOf_spec]
  omega

theorem DictEntry.sizeOf_lt (e : DictEntry) :
    sizeOf e.key < sizeOf e ∧ sizeOf e.value < sizeOf e := by
  cases e
  simp only [DictEntry.mk.sizeOf_spec]
  omega

theorem Param.sizeOf_default_lt {p : Param} (h : p.default = some e) :
    sizeOf e < sizeOf p := by
  cases p
  simp only at h
  subst h
  rw [Param.mk.sizeOf_spec, Option.some.sizeOf_spec]
  omega

theorem FStringPart.sizeOf_value_lt {part : FStringPart} (h : part.value? = some e) :
    sizeOf e < sizeOf part := by
  cases part with
  | text s => cases h
  | field value repr spec =>
    cases h
    rw [FStringPart.field.sizeOf_spec]
    omega

mutual

theorem Target.sizeOf_expr_lt : ∀ {t : Target} {e : Expr}, e ∈ t.exprs → sizeOf e < sizeOf t
  | .name _, _, h => by
    rw [Target.exprs] at h
    cases h
  | .index container key, e, h => by
    rw [Target.exprs] at h
    rw [Target.index.sizeOf_spec]
    rcases List.mem_cons.1 h with rfl | h
    · omega
    · cases List.mem_singleton.1 h
      omega
  | .group targets, e, h => by
    rw [Target.exprs] at h
    have := Target.sizeOf_exprsAll_lt h
    rw [Target.group.sizeOf_spec]
    omega

theorem Target.sizeOf_exprsAll_lt : ∀ {ts : List Target} {e : Expr}, e ∈ Target.exprsAll ts →
    sizeOf e < sizeOf ts
  | [], _, h => by
    rw [Target.exprsAll] at h
    cases h
  | t :: ts, e, h => by
    rw [Target.exprsAll] at h
    rw [List.cons.sizeOf_spec]
    rcases List.mem_append.1 h with h | h
    · have := Target.sizeOf_expr_lt h
      omega
    · have := Target.sizeOf_exprsAll_lt h
      omega

end

theorem sizeOf_lt_of_mem_toList {o : Option Expr} (h : e ∈ o.toList) :
    sizeOf e < sizeOf o := by
  cases o with
  | none => cases h
  | some x =>
    cases List.mem_singleton.1 h
    simp

theorem sizeOf_lt_of_mem_defaults {ps : List Param} (h : e ∈ ps.filterMap Param.default) :
    sizeOf e < sizeOf ps := by
  obtain ⟨p, hp, he⟩ := List.mem_filterMap.1 h
  exact Nat.lt_trans (Param.sizeOf_default_lt he) (List.sizeOf_lt_of_mem hp)

theorem sizeOf_lt_of_mem_values {ks : List Keyword} (h : e ∈ ks.map Keyword.value) :
    sizeOf e < sizeOf ks := by
  obtain ⟨k, hk, rfl⟩ := List.mem_map.1 h
  exact Nat.lt_trans k.sizeOf_value_lt (List.sizeOf_lt_of_mem hk)

theorem Clause.sizeOf_part_lt {c : Clause} (h : e ∈ c.parts) : sizeOf e < sizeOf c := by
  obtain ⟨target, iterable, condition⟩ := c
  rw [Clause.mk.sizeOf_spec]
  simp only [Clause.parts, List.cons_append, List.mem_cons, List.mem_append] at h
  rcases h with rfl | h | h
  · omega
  · have := sizeOf_lt_of_mem_toList h
    omega
  · have := Target.sizeOf_expr_lt h
    omega

theorem Expr.sizeOf_part_lt {e part : Expr} (h : part ∈ e.parts) : sizeOf part < sizeOf e := by
  cases e with
  | int | float | str | bool | none | name => cases h
  | binary | logic | index =>
    simp only [Expr.binary.sizeOf_spec, Expr.logic.sizeOf_spec, Expr.index.sizeOf_spec]
    simp only [Expr.parts, List.mem_cons, List.not_mem_nil, or_false] at h
    rcases h with rfl | rfl <;> omega
  | unary | member =>
    cases List.mem_singleton.1 h
    simp only [Expr.unary.sizeOf_spec, Expr.member.sizeOf_spec]
    omega
  | conditional =>
    rw [Expr.conditional.sizeOf_spec]
    simp only [Expr.parts, List.mem_cons, List.not_mem_nil, or_false] at h
    rcases h with rfl | rfl | rfl <;> omega
  | call | method =>
    simp only [Expr.call.sizeOf_spec, Expr.method.sizeOf_spec]
    simp only [Expr.parts, List.cons_append, List.mem_cons, List.mem_append] at h
    rcases h with rfl | h | h
    · omega
    · have := List.sizeOf_lt_of_mem h
      omega
    · have := sizeOf_lt_of_mem_values h
      omega
  | slice p container start stop step =>
    rw [Expr.slice.sizeOf_spec]
    simp only [Expr.parts, List.cons_append, List.mem_cons, List.mem_append] at h
    rcases h with rfl | (h | h) | h
    · omega
    all_goals
      have := sizeOf_lt_of_mem_toList h
      omega
  | list p items =>
    rw [Expr.list.sizeOf_spec]
    rw [Expr.parts] at h
    have := List.sizeOf_lt_of_mem h
    omega
  | dict p entries =>
    rw [Expr.dict.sizeOf_spec]
    rcases List.mem_append.1 h with h | h
    all_goals
      obtain ⟨entry, hentry, rfl⟩ := List.mem_map.1 h
      have := List.sizeOf_lt_of_mem hentry
      have := entry.sizeOf_lt
      omega
  | listOf p item clause =>
    rw [Expr.listOf.sizeOf_spec]
    rcases List.mem_cons.1 h with rfl | h
    · omega
    · have := Clause.sizeOf_part_lt h
      omega
  | dictOf p key value clause =>
    rw [Expr.dictOf.sizeOf_spec]
    simp only [Expr.parts, List.mem_cons] at h
    rcases h with rfl | rfl | h
    · omega
    · omega
    · have := Clause.sizeOf_part_lt h
      omega
  | lambda p params body =>
    rw [Expr.lambda.sizeOf_spec]
    rcases List.mem_cons.1 h with rfl | h
    · omega
    · have := sizeOf_lt_of_mem_defaults h
      omega
  | fstring p parts =>
    rw [Expr.fstring.sizeOf_spec]
    obtain ⟨q, hq, hqe⟩ := List.mem_filterMap.1 h
    have := List.sizeOf_lt_of_mem hq
    have := FStringPart.sizeOf_value_lt hqe
    omega

theorem Branch.sizeOf_lt (b : Branch) : sizeOf b.condition < sizeOf b ∧ sizeOf b.body < sizeOf b := by
  cases b
  simp only [Branch.mk.sizeOf_spec]
  omega

theorem Handler.sizeOf_body_lt (k : Handler) : sizeOf k.body < sizeOf k := by
  cases k
  simp only [Handler.mk.sizeOf_spec]
  omega

namespace Stmt

theorem sizeOf_lt_of_toList {o : Option (List Stmt)} (h : body ∈ o.toList) :
    sizeOf body < sizeOf o := by
  cases o with
  | none => cases h
  | some b =>
    cases List.mem_singleton.1 h
    simp

theorem sizeOf_block_lt {s : Stmt} (h : body ∈ s.blocks) :
    sizeOf body < sizeOf s := by
  cases s with
  | branch p branches otherwise =>
    rw [branch.sizeOf_spec]
    rcases List.mem_append.1 h with h | h
    · obtain ⟨b, hb, rfl⟩ := List.mem_map.1 h
      have hb := List.sizeOf_lt_of_mem hb
      have := b.sizeOf_lt
      omega
    · have := sizeOf_lt_of_toList h
      omega
  | forEach | whileTrue | define =>
    cases List.mem_singleton.1 h
    simp only [forEach.sizeOf_spec, whileTrue.sizeOf_spec, define.sizeOf_spec]
    omega
  | attempt p b handlers otherwise always =>
    rw [attempt.sizeOf_spec]
    rcases List.mem_append.1 h with h | h
    · rcases List.mem_append.1 h with h | h
      · rcases List.mem_cons.1 h with rfl | h
        · omega
        obtain ⟨k, hk, rfl⟩ := List.mem_map.1 h
        have hk := List.sizeOf_lt_of_mem hk
        have := k.sizeOf_body_lt
        omega
      · have := sizeOf_lt_of_toList h
        omega
    · have := sizeOf_lt_of_toList h
      omega
  | _ => cases h

theorem sizeOf_expr_lt {s : Stmt} {e : Expr} (h : e ∈ s.exprs) : sizeOf e < sizeOf s := by
  cases s with
  | assign | augment | forEach =>
    simp only [assign.sizeOf_spec, augment.sizeOf_spec, forEach.sizeOf_spec]
    rcases List.mem_cons.1 h with rfl | h
    · omega
    · have := Target.sizeOf_expr_lt h
      omega
  | branch p branches otherwise =>
    rw [branch.sizeOf_spec]
    obtain ⟨b, hb, rfl⟩ := List.mem_map.1 h
    have := List.sizeOf_lt_of_mem hb
    have := b.sizeOf_lt
    omega
  | define p name params body =>
    rw [define.sizeOf_spec]
    have := sizeOf_lt_of_mem_defaults h
    omega
  | whileTrue p condition body =>
    cases List.mem_singleton.1 h
    rw [whileTrue.sizeOf_spec]
    omega
  | expr value =>
    cases List.mem_singleton.1 h
    simp
  | giveBack | raise =>
    simp only [giveBack.sizeOf_spec, raise.sizeOf_spec]
    have := sizeOf_lt_of_mem_toList h
    omega
  | _ => cases h

end Stmt

end Scripting
