/-
# Parts that keep to the rules

What the readers of the grammar hand to each other, and when it keeps to the rules: the
arguments of a call, the parameters of a function, the loop of a comprehension, the target
of an assignment and the handlers of an attempt. Readers add to such lists at their end,
and a check that no name is there yet keeps the names apart.
-/
import Scripting.Grammar.Stmt
import Scripting.Proofs.Syntax.Admissible

namespace Scripting

variable {low : Nat}

/-- An expression that is sound if it is there. -/
def Expr.SoundIf (low : Nat) (e : Option Expr) : Prop := ∀ part, e = some part → part.Sound low

/-- The arguments of a call that keeps to the rules. -/
structure Expr.SoundArgs (low : Nat) (args : List Expr) (keywords : List Keyword) : Prop where
  args : ∀ e ∈ args, e.Sound low
  values : ∀ k ∈ keywords, k.value.Sound low
  distinct : (keywords.map Keyword.name).Nodup

/-- Parameters that keep to the rules, with sound defaults. -/
structure Param.Sound (low : Nat) (params : List Param) : Prop extends Param.Listed params where
  defaults : ∀ e ∈ params.filterMap Param.default, e.Sound low

/-- An entry of a dict literal whose key and value are sound. -/
def DictEntry.Sound (low : Nat) (e : DictEntry) : Prop := e.key.Sound low ∧ e.value.Sound low

/-- The loop of a comprehension that keeps to the rules. -/
structure Clause.Sound (low : Nat) (c : Clause) : Prop where
  target : c.target.Bindable
  iterable : c.iterable.Sound low
  condition : Expr.SoundIf low c.condition

theorem Expr.soundIf_none : Expr.SoundIf low .none := by
  intro _ h
  cases h

theorem Expr.Sound.soundIf {e : Expr} (h : e.Sound low) : Expr.SoundIf low (some e) := by
  rintro _ ⟨⟩
  exact h

mutual

theorem Target.Bindable.exprs_eq_nil : ∀ {t : Target}, t.Bindable → t.exprs = []
  | .name _, _ => by rw [Target.exprs]
  | .index _ _, h => by cases h
  | .group targets, h => by
    cases h with
    | group _ each => rw [Target.exprs, Target.exprsAll_eq_nil each]

theorem Target.exprsAll_eq_nil : ∀ {targets : List Target}, (∀ t ∈ targets, t.Bindable) →
    Target.exprsAll targets = []
  | [], _ => by rw [Target.exprsAll]
  | t :: rest, h => by
    rw [Target.exprsAll, (h t (.head _)).exprs_eq_nil,
      Target.exprsAll_eq_nil fun u hu => h u (List.mem_cons_of_mem t hu), List.append_nil]

end

theorem Clause.Sound.parts {c : Clause} (h : c.Sound low) : ∀ e ∈ c.parts, e.Sound low := by
  intro e he
  rw [Clause.parts, h.target.exprs_eq_nil, List.append_nil, List.mem_cons, Option.mem_toList] at he
  rcases he with rfl | he
  · exact h.iterable
  · exact h.condition e he

theorem nodup_map_snoc {α : Type} {name : α → String} {l : List α} {a : α}
    (h : (l.map name).Nodup) (hnew : l.any (fun b => name b == name a) = false) :
    ((l ++ [a]).map name).Nodup := by
  have hne : ∀ b ∈ l, name b ≠ name a := by simpa using hnew
  rw [List.map_append, List.map_singleton, List.nodup_append]
  exact ⟨h, by simp, by simpa using hne⟩

namespace Param.Sound

theorem nil : Param.Sound low [] := ⟨⟨List.nodup_nil, List.Pairwise.nil⟩, nofun⟩

theorem snoc {params : List Param} (h : Param.Sound low params) {p : Param}
    (hname : params.any (fun q => q.name == p.name) = false)
    (hdefault : (p.default.isNone && params.any fun q => q.default.isSome) = false)
    (hvalue : Expr.SoundIf low p.default) : Param.Sound low (params ++ [p]) := by
  refine ⟨⟨nodup_map_snoc h.distinct hname, ?_⟩, ?_⟩
  · rw [List.pairwise_append]
    refine ⟨h.defaultsLast, List.pairwise_singleton _ _, fun q hq r hr hsome => ?_⟩
    rw [List.mem_singleton.1 hr]
    have hany : params.any (fun q => q.default.isSome) = true := List.any_eq_true.2 ⟨q, hq, hsome⟩
    rw [hany, Bool.and_true] at hdefault
    rw [← Option.not_isNone, hdefault]
    rfl
  rw [List.filterMap_append, List.forall_mem_append]
  refine ⟨h.defaults, fun e he => ?_⟩
  obtain ⟨q, hq, hqe⟩ := List.mem_filterMap.1 he
  rw [List.mem_singleton.1 hq] at hqe
  exact hvalue e hqe

end Param.Sound

namespace Expr.SoundArgs

variable {args : List Expr} {keywords : List Keyword}

theorem nil : Expr.SoundArgs low [] [] := ⟨nofun, nofun, List.nodup_nil⟩

theorem snoc (h : Expr.SoundArgs low args keywords) {k : Keyword}
    (hname : keywords.any (fun l => l.name == k.name) = false) (hvalue : k.value.Sound low) :
    Expr.SoundArgs low args (keywords ++ [k]) :=
  ⟨h.args, List.forall_mem_append.2 ⟨h.values, List.forall_mem_singleton.2 hvalue⟩,
    nodup_map_snoc h.distinct hname⟩

theorem arg (h : Expr.SoundArgs low args keywords) {e : Expr} (he : e.Sound low) :
    Expr.SoundArgs low (args ++ [e]) keywords :=
  ⟨List.forall_mem_append.2 ⟨h.args, List.forall_mem_singleton.2 he⟩, h.values, h.distinct⟩

theorem parts (h : Expr.SoundArgs low args keywords) {f : Expr} (hf : f.Sound low) :
    ∀ e ∈ f :: args ++ keywords.map Keyword.value, e.Sound low := by
  rw [List.forall_mem_append, List.forall_mem_cons, List.forall_mem_map]
  exact ⟨⟨hf, h.args⟩, h.values⟩

end Expr.SoundArgs

theorem Expr.sound_list {pos : Position} (hpos : low ≤ pos.line) {first : Expr} {rest : List Expr}
    (hfirst : first.Sound low) (hrest : ∀ e ∈ rest, e.Sound low) :
    (Expr.list pos (first :: rest)).Sound low :=
  .intro trivial hpos (List.forall_mem_cons.2 ⟨hfirst, hrest⟩)

theorem Connective.sound_join {left right : Expr} (c : Connective) (hl : left.Sound low)
    (hr : right.Sound low) : (c.join left right).Sound low := by
  have hparts : ∀ part ∈ [left, right], part.Sound low := by simp [hl, hr]
  cases c with
  | logic op => exact .intro trivial hl.located hparts
  | binary op => exact .intro trivial hl.located hparts

theorem ok_of_bind {ε α β : Type} {first : Except ε α} {next : α → Except ε β} {b : β}
    (h : (first >>= next) = .ok b) : ∃ a, first = .ok a ∧ next a = .ok b := by
  cases first with
  | error e => cases h
  | ok a => exact ⟨a, rfl, h⟩

namespace Grammar

/-- A target with no empty group, whose expressions are sound. -/
def SoundTarget (low : Nat) (t : Target) : Prop := t.Filled ∧ ∀ part ∈ t.exprs, part.Sound low

mutual

/-- The target that an expression stands for has no empty group, and its expressions are
parts of that one. -/
theorem sound_of_asTarget : ∀ {e : Expr} {t : Target}, asTarget e = .ok t → e.Sound low →
    SoundTarget low t
  | .name _ name, t, h, _ => by
    rw [asTarget] at h
    cases h
    exact ⟨.name name, by simp [Target.exprs]⟩
  | .index _ container key, t, h, he => by
    rw [asTarget] at h
    cases h
    refine ⟨.index container key, ?_⟩
    rw [Target.exprs]
    exact he.inside
  | .list _ [], t, h, _ => by
    rw [asTarget] at h
    cases h
  | .list _ (first :: rest), t, h, he => by
    rw [asTarget] at h
    obtain ⟨t₁, h₁, h⟩ := ok_of_bind h
    obtain ⟨ts, hs, h⟩ := ok_of_bind h
    cases h
    have hinside := List.forall_mem_cons.1 he.inside
    have hall : ∀ u ∈ t₁ :: ts, SoundTarget low u :=
      List.forall_mem_cons.2 ⟨sound_of_asTarget h₁ hinside.1, sound_of_asTargets hs hinside.2⟩
    refine ⟨.group nofun fun u hu => (hall u hu).1, fun part hpart => ?_⟩
    rw [Target.exprs] at hpart
    obtain ⟨u, hu, hpart⟩ := Target.mem_exprsAll.1 hpart
    exact (hall u hu).2 part hpart
  | .int .., _, h, _ | .float .., _, h, _ | .str .., _, h, _ | .bool .., _, h, _
  | .none .., _, h, _ | .binary .., _, h, _ | .logic .., _, h, _ | .unary .., _, h, _
  | .conditional .., _, h, _ | .call .., _, h, _ | .slice .., _, h, _ | .member .., _, h, _
  | .method .., _, h, _ | .dict .., _, h, _ | .listOf .., _, h, _ | .dictOf .., _, h, _
  | .lambda .., _, h, _ | .fstring .., _, h, _ => by
    simp [asTarget] at h

theorem sound_of_asTargets : ∀ {es : List Expr} {ts : List Target}, asTargets es = .ok ts →
    (∀ e ∈ es, e.Sound low) → ∀ t ∈ ts, SoundTarget low t
  | [], ts, h, _ => by
    rw [asTargets] at h
    cases h
    exact nofun
  | e :: es, ts, h, hes => by
    rw [asTargets] at h
    obtain ⟨t₁, h₁, h⟩ := ok_of_bind h
    obtain ⟨rest, hs, h⟩ := ok_of_bind h
    cases h
    rw [List.forall_mem_cons] at hes ⊢
    exact ⟨sound_of_asTarget h₁ hes.1, sound_of_asTargets hs hes.2⟩

end

/-- A block in which every statement is sound. -/
def SoundBlock (low : Nat) (n : Nesting) (body : List Stmt) : Prop := ∀ t ∈ body, t.Sound low n

/-- A block that is sound if it is there. -/
def SoundBlockIf (low : Nat) (n : Nesting) (body : Option (List Stmt)) : Prop :=
  ∀ block ∈ body.toList, SoundBlock low n block

/-- Branches with sound conditions and sound blocks. -/
def SoundBranches (low : Nat) (n : Nesting) (branches : List Branch) : Prop :=
  ∀ x ∈ branches, x.condition.Sound low ∧ SoundBlock low n x.body

/-- Handlers that keep to the rules: one for every error comes last, and none comes behind
such a one. -/
structure HandlersSound (low : Nat) (afterBare : Bool) (n : Nesting) (handlers : List Handler) :
    Prop where
  bodies : ∀ k ∈ handlers, SoundBlock low n k.body
  bareLast : ∀ k ∈ handlers.dropLast, k.kind ≠ none
  closed : afterBare = true → handlers = []

theorem HandlersSound.nil {n : Nesting} {afterBare : Bool} : HandlersSound low afterBare n [] :=
  ⟨nofun, nofun, fun _ => rfl⟩

theorem HandlersSound.cons {n : Nesting} {k : Handler} {rest : List Handler}
    (hbody : SoundBlock low n k.body) (hrest : HandlersSound low k.kind.isNone n rest) :
    HandlersSound low false n (k :: rest) := by
  refine ⟨List.forall_mem_cons.2 ⟨hbody, hrest.bodies⟩, fun l hl => ?_, nofun⟩
  cases hkind : k.kind with
  | none =>
    rw [hrest.closed (by rw [hkind]; rfl)] at hl
    cases hl
  | some name =>
    cases rest with
    | nil => cases hl
    | cons next rest =>
      rw [List.dropLast_cons_cons] at hl
      rcases List.mem_cons.1 hl with rfl | hl
      · rw [hkind]
        nofun
      · exact hrest.bareLast l hl

end Grammar

end Scripting
