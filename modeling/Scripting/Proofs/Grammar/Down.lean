/-
# Syntax further down in a text

What stands some lines further down has the same tokens and the same trees, with
every position moved. Columns stay as they are.
-/
import Scripting.Grammar.Stmt

namespace Scripting

variable (k : Nat)

/-- The position so many lines further down. -/
def Position.down (p : Position) : Position := ⟨p.line + k, p.column⟩

/-- The token so many lines further down. -/
def Token.down (k : Nat) (t : Token) : Token := ⟨t.kind, t.pos.down k⟩

mutual

/-- An expression so many lines further down. -/
def Expr.down (k : Nat) : Expr → Expr
  | .int p n => .int (p.down k) n
  | .float p x => .float (p.down k) x
  | .str p s => .str (p.down k) s
  | .bool p b => .bool (p.down k) b
  | .none p => .none (p.down k)
  | .name p name => .name (p.down k) name
  | .binary p op left right => .binary (p.down k) op (left.down k) (right.down k)
  | .logic p op left right => .logic (p.down k) op (left.down k) (right.down k)
  | .unary p op operand => .unary (p.down k) op (operand.down k)
  | .conditional p condition thenValue elseValue =>
    .conditional (p.down k) (condition.down k) (thenValue.down k) (elseValue.down k)
  | .call p callee args keywords =>
    .call (p.down k) (callee.down k) (args.map (Expr.down k)) (keywords.map (Keyword.down k))
  | .index p container key => .index (p.down k) (container.down k) (key.down k)
  | .slice p container start stop step =>
    .slice (p.down k) (container.down k) (Expr.downIf k start) (Expr.downIf k stop)
      (Expr.downIf k step)
  | .member p object name => .member (p.down k) (object.down k) name
  | .method p object name args keywords =>
    .method (p.down k) (object.down k) name (args.map (Expr.down k))
      (keywords.map (Keyword.down k))
  | .list p items => .list (p.down k) (items.map (Expr.down k))
  | .dict p entries => .dict (p.down k) (entries.map (DictEntry.down k))
  | .listOf p item clause => .listOf (p.down k) (item.down k) (clause.down k)
  | .dictOf p key value clause => .dictOf (p.down k) (key.down k) (value.down k) (clause.down k)
  | .lambda p params body => .lambda (p.down k) (params.map (Param.down k)) (body.down k)
  | .fstring p parts => .fstring (p.down k) (parts.map (FStringPart.down k))
termination_by e => sizeOf e

def Expr.downIf (k : Nat) : Option Expr → Option Expr
  | none => none
  | some e => some (e.down k)
termination_by e => sizeOf e

def Keyword.down (k : Nat) : Keyword → Keyword
  | ⟨name, value⟩ => ⟨name, value.down k⟩
termination_by e => sizeOf e

def DictEntry.down (k : Nat) : DictEntry → DictEntry
  | ⟨key, value⟩ => ⟨key.down k, value.down k⟩
termination_by e => sizeOf e

def Clause.down (k : Nat) : Clause → Clause
  | ⟨target, iterable, condition⟩ =>
    ⟨target.down k, iterable.down k, Expr.downIf k condition⟩
termination_by c => sizeOf c

def Param.down (k : Nat) : Param → Param
  | ⟨name, pos, default⟩ => ⟨name, pos.down k, Expr.downIf k default⟩
termination_by p => sizeOf p

def FStringPart.down (k : Nat) : FStringPart → FStringPart
  | .text s => .text s
  | .field value repr spec => .field (value.down k) repr spec
termination_by p => sizeOf p

def Target.down (k : Nat) : Target → Target
  | .name name => .name name
  | .index container key => .index (container.down k) (key.down k)
  | .group targets => .group (targets.map (Target.down k))
termination_by t => sizeOf t

end

mutual

/-- A statement so many lines further down. -/
def Stmt.down (k : Nat) : Stmt → Stmt
  | .assign p target value => .assign (p.down k) (target.down k) (value.down k)
  | .augment p op target value => .augment (p.down k) op (target.down k) (value.down k)
  | .branch p branches otherwise =>
    .branch (p.down k) (branches.map (Branch.down k)) (Stmt.downIf k otherwise)
  | .forEach p target iterable body =>
    .forEach (p.down k) (target.down k) (iterable.down k) (body.map (Stmt.down k))
  | .whileTrue p condition body => .whileTrue (p.down k) (condition.down k) (body.map (Stmt.down k))
  | .define p name params body =>
    .define (p.down k) name (params.map (Param.down k)) (body.map (Stmt.down k))
  | .giveBack p value => .giveBack (p.down k) (value.map (Expr.down k))
  | .importModule p name => .importModule (p.down k) name
  | .attempt p body handlers otherwise always =>
    .attempt (p.down k) (body.map (Stmt.down k)) (handlers.map (Handler.down k))
      (Stmt.downIf k otherwise) (Stmt.downIf k always)
  | .raise p value => .raise (p.down k) (value.map (Expr.down k))
  | .pass p => .pass (p.down k)
  | .breakLoop p => .breakLoop (p.down k)
  | .continueLoop p => .continueLoop (p.down k)
  | .expr value => .expr (value.down k)
termination_by s => sizeOf s

def Stmt.downIf (k : Nat) : Option (List Stmt) → Option (List Stmt)
  | none => none
  | some body => some (body.map (Stmt.down k))
termination_by b => sizeOf b

def Branch.down (k : Nat) : Branch → Branch
  | ⟨condition, body⟩ => ⟨condition.down k, body.map (Stmt.down k)⟩
termination_by b => sizeOf b

def Handler.down (k : Nat) : Handler → Handler
  | ⟨pos, kind, binding, body⟩ => ⟨pos.down k, kind, binding, body.map (Stmt.down k)⟩
termination_by h => sizeOf h

end

@[simp] theorem Token.kind_down (t : Token) : (t.down k).kind = t.kind := rfl

@[simp] theorem Token.pos_down (t : Token) : (t.down k).pos = t.pos.down k := rfl

@[simp] theorem Expr.downIf_none : Expr.downIf k Option.none = Option.none := by
  rw [Expr.downIf]

@[simp] theorem Expr.downIf_some (e : Expr) :
    Expr.downIf k (some e) = some (e.down k) := by
  rw [Expr.downIf]

@[simp] theorem Expr.isNone_downIf (e : Option Expr) :
    (Expr.downIf k e).isNone = e.isNone := by
  cases e <;> simp

@[simp] theorem Stmt.downIf_none : Stmt.downIf k none = none := by
  rw [Stmt.downIf]

@[simp] theorem Stmt.downIf_some (body : List Stmt) :
    Stmt.downIf k (some body) = some (body.map (Stmt.down k)) := by
  rw [Stmt.downIf]

@[simp] theorem Stmt.isNone_downIf (body : Option (List Stmt)) :
    (Stmt.downIf k body).isNone = body.isNone := by
  cases body <;> simp

@[simp] theorem Expr.pos_down (e : Expr) : (e.down k).pos = e.pos.down k := by
  cases e <;> rw [Expr.down] <;> rfl

@[simp] theorem Param.name_down (p : Param) : (p.down k).name = p.name := by
  cases p
  rw [Param.down]

@[simp] theorem Param.isSome_default_down (p : Param) :
    (p.down k).default.isSome = p.default.isSome := by
  obtain ⟨name, pos, default⟩ := p
  rw [Param.down]
  cases default <;> simp

@[simp] theorem Keyword.name_down (w : Keyword) : (w.down k).name = w.name := by
  cases w
  rw [Keyword.down]

theorem Param.any_name_down (name : String) (params : List Param) :
    (params.map (Param.down k)).any (fun p => p.name == name) =
      params.any fun p => p.name == name := by
  simp [List.any_map, Function.comp_def]

theorem Param.any_default_down (params : List Param) :
    (params.map (Param.down k)).any (fun p => p.default.isSome) =
      params.any fun p => p.default.isSome := by
  simp [List.any_map, Function.comp_def]

theorem Keyword.any_name_down (name : String) (keywords : List Keyword) :
    (keywords.map (Keyword.down k)).any (fun w => w.name == name) =
      keywords.any fun w => w.name == name := by
  simp [List.any_map, Function.comp_def]

theorem Connective.join_down (left right : Expr) (c : Connective) :
    Connective.join (left.down k) c (right.down k) = (Connective.join left c right).down k := by
  cases c with
  | logic op => rw [Connective.join, Connective.join, Expr.down, Expr.pos_down]
  | binary op => rw [Connective.join, Connective.join, Expr.down, Expr.pos_down]

namespace Grammar

mutual

theorem asTarget_down (k : Nat) : ∀ {e : Expr} {t : Target}, asTarget e = .ok t →
    asTarget (e.down k) = .ok (t.down k)
  | .name p name, t, h => by
    rw [asTarget] at h
    cases h
    rw [Expr.down, asTarget, Target.down]
  | .index p container key, t, h => by
    rw [asTarget] at h
    cases h
    rw [Expr.down, asTarget, Target.down]
  | .list p [], t, h => by
    rw [asTarget] at h
    cases h
  | .list p (first :: rest), t, h => by
    rw [asTarget] at h
    cases hfirst : asTarget first with
    | error d => rw [hfirst] at h; cases h
    | ok t₁ =>
      cases hrest : asTargets rest with
      | error d => rw [hfirst, hrest] at h; cases h
      | ok ts =>
        rw [hfirst, hrest] at h
        cases h
        rw [Expr.down, List.map_cons, asTarget, asTarget_down k hfirst, asTargets_down k hrest,
          Target.down]
        rfl
  | .int .., _, h | .float .., _, h | .str .., _, h | .bool .., _, h | .none .., _, h
  | .binary .., _, h | .logic .., _, h | .unary .., _, h | .conditional .., _, h | .call .., _, h
  | .slice .., _, h | .member .., _, h | .method .., _, h | .dict .., _, h | .listOf .., _, h
  | .dictOf .., _, h | .lambda .., _, h | .fstring .., _, h => by
    rw [asTarget] at h
    · cases h
    all_goals nofun

theorem asTargets_down (k : Nat) : ∀ {es : List Expr} {ts : List Target}, asTargets es = .ok ts →
    asTargets (es.map (Expr.down k)) = .ok (ts.map (Target.down k))
  | [], _, h => by
    rw [asTargets] at h
    cases h
    rfl
  | e :: rest, _, h => by
    rw [asTargets] at h
    cases hfirst : asTarget e with
    | error d => rw [hfirst] at h; cases h
    | ok t₁ =>
      cases hrest : asTargets rest with
      | error d => rw [hfirst, hrest] at h; cases h
      | ok ts =>
        rw [hfirst, hrest] at h
        cases h
        rw [List.map_cons, asTargets, asTarget_down k hfirst, asTargets_down k hrest]
        rfl

end

end Grammar

end Scripting
