/-
# Programs without `while` come to an end

A run that nests deeper than its budget ends without an answer. For a program without `while`, on
a heap whose functions have none either, some budget is enough, whatever the limit on call depth:
beyond it every run ends with a value or a fault.

An expression or a statement hands on to its parts, which are smaller. A host function hands on to
functions that get fewer arguments than it got itself; only `sorted` does not, whose key is a
keyword, and a callback has no keywords. A function written in the language hands on to its body,
one call deeper, and beyond the limit such a call fails at once. The items of a loop are taken
before its first round, so a loop nests nothing. If no body is larger than `n` and `D` more calls
may be nested, the bodies need a budget of `D * (2 * n + 3)` (`bodies_end`).
-/
import Scripting.Proofs.Run.Evaluator
import Scripting.Proofs.Run.Sample

namespace Scripting

variable {args : List Value} {fuel line : Nat} {keywords : Keywords}

/-- There is no `while` in a statement, at any depth. -/
inductive Stmt.WhileFree : Stmt → Prop
  | intro {s : Stmt} (head : ∀ p condition body, s ≠ .whileTrue p condition body)
      (inside : ∀ body ∈ s.blocks, ∀ t ∈ body, t.WhileFree) : s.WhileFree

/-- A run that ended, in a world of which something holds. -/
def Outcome.EndsIn {α : Type} (I : World → Prop) : Outcome α → Prop
  | .ok _ w => I w
  | .fault _ w => I w
  | .exhausted => False

/-- What is asked of a function of the embedding program: it ends if the calls end
that it makes with fewer arguments than it was given. It cannot reach what belongs
to the evaluator, so an invariant of that, which its calls keep, it keeps as well. -/
def HostBody.Ends (body : HostBody) : Prop :=
  ∀ I : World → Prop, (∀ w w', w.Intact w' → I w → I w') →
    ∀ (call : Caller) (args : List Value) (keywords : Keywords),
      (∀ f passed, passed.length < args.length → ∀ w, I w → (call f passed w).EndsIn I) →
      ∀ w, I w → (body call args keywords w).EndsIn I

/-- At a call depth, and with functions that have no `while` and are not larger
than a bound. -/
structure World.Bounded (n d : Nat) (w : World) : Prop where
  depth : w.depth = d
  closures : ∀ c ∈ w.heap.closures, (∀ t ∈ c.body, t.WhileFree) ∧ sizeOf c.body ≤ n

namespace World.Bounded

variable {n d : Nat} {w w' : World}

theorem intact (hw : w.Bounded n d) (h : w.Intact w') : w'.Bounded n d :=
  ⟨h.depth.trans hw.depth, fun c hc => hw.closures c (h.heap.closures ▸ hc)⟩

theorem withControl (hw : w.Bounded n d) (warnings : List Warning) (handling : List Fault) :
    World.Bounded n d { w with warnings := warnings, handling := handling } :=
  ⟨hw.depth, hw.closures⟩

theorem atDepth (hw : w.Bounded n d) (d' : Nat) : World.Bounded n d' { w with depth := d' } :=
  ⟨rfl, hw.closures⟩

theorem back (hw : w.Bounded n (d + 1)) :
    World.Bounded n d { w with depth := w.depth - 1 } :=
  ⟨by rw [hw.depth, Nat.add_sub_cancel], hw.closures⟩

end World.Bounded

/-- Ending, in a bounded world, if the run begins in one. -/
def ending (n d : Nat) : Modality where
  holds act := ∀ w, w.Bounded n d → (act w).EndsIn (World.Bounded n d)
  steady {_ act} h w hw := by
    have h' := h w
    cases hact : act w with
    | ok a w' => rw [hact] at h'; exact hw.intact h'.toIntact
    | fault f w' => rw [hact] at h'; exact hw.intact h'.toIntact
    | exhausted => rw [hact] at h'; exact h'.elim
  bind {_ _ act next} ha hn w hw := by
    have h := ha w hw
    change (Run.bind act next w).EndsIn _
    unfold Run.bind
    cases hact : act w with
    | ok a w' => rw [hact] at h; exact hn w a w' hact w' h
    | fault f w' => rw [hact] at h; exact h
    | exhausted => rw [hact] at h; exact h.elim
  atLine {_ line act} ha w hw := by
    have h := ha w hw
    unfold Run.atLine
    cases hact : act w <;> rw [hact] at h <;> exact h
  checkpoint line moments w hw := by
    unfold checkpoint
    split
    · exact ⟨hw.depth, hw.closures⟩
    · exact hw.withControl _ _

theorem ending_catches (n d : Nat) : (ending n d).Catches where
  attempt {_ act} ha w hw := by
    have h := ha w hw
    unfold Run.attempt
    cases hact : act w <;> rw [hact] at h <;> exact h
  handling {_ f act} ha w hw := by
    have h := ha { w with handling := f :: w.handling } (hw.withControl _ _)
    unfold whileHandling
    cases hact : act { w with handling := f :: w.handling } with
    | ok a w' => rw [hact] at h; exact World.Bounded.withControl h _ _
    | fault f w' => rw [hact] at h; exact World.Bounded.withControl h _ _
    | exhausted => rw [hact] at h; exact h.elim

theorem newFunction_ends {n d : Nat} {c : Closure} (hfree : ∀ t ∈ c.body, t.WhileFree)
    (hsize : sizeOf c.body ≤ n) : (ending n d).holds (Run.newFunction (.script c)) := by
  intro w hw
  refine ⟨hw.depth, fun c' hc' => ?_⟩
  change c' ∈ (w.heap.newFunction (.script c)).2.closures at hc'
  rw [w.heap.closures_newFunction_script, List.mem_append, List.mem_singleton] at hc'
  rcases hc' with hc' | rfl
  · exact hw.closures c' hc'
  · exact ⟨hfree, hsize⟩

/-! ### Calls -/

theorem oneDeeper_ends {n d : Nat} {α : Type} {act : Run α} (h : (ending n (d + 1)).holds act) :
    (ending n d).holds (oneDeeper act) := by
  intro w hw
  have hdeep := h { w with depth := w.depth + 1 } (hw.depth ▸ hw.atDepth (w.depth + 1))
  unfold oneDeeper
  cases hact : act { w with depth := w.depth + 1 } with
  | ok a w' => rw [hact] at hdeep; exact hdeep.back
  | fault f w' => rw [hact] at hdeep; exact hdeep.back
  | exhausted => rw [hact] at hdeep; exact hdeep.elim

/-- A call of a function written in the language ends if its body ends one call
deeper. Where no deeper call is allowed it fails, whatever its body. -/
theorem enterCall_ends {n d maxDepth : Nat} {block : ScopeRef → List Stmt → Run Flow}
    {closure : Closure}
    (hbody : d < maxDepth → ∀ scope, (ending n (d + 1)).holds (block scope closure.body)) :
    (ending n d).holds (enterCall block maxDepth closure args keywords line) := by
  intro w hw
  change ((if maxDepth ≤ w.depth then refuseCall maxDepth w.depth closure.name line
    else runBody block closure args keywords line) w).EndsIn _
  rw [hw.depth]
  split
  · exact hw.withControl _ _
  next hlimit =>
    exact (ending n d).runBody (fun scope => oneDeeper_ends (hbody (by omega) scope)) w hw

section Calls

variable {env : Environment} {n d x : Nat}

/-- Bodies that are not too large end one call deeper, with a budget of `x` or more. -/
def BodiesEnd (env : Environment) (n d x : Nat) : Prop :=
  d < env.maxDepth → ∀ fuel, x ≤ fuel → ∀ scope body, (∀ t ∈ body, t.WhileFree) →
    sizeOf body ≤ n → (ending n (d + 1)).holds (runBlock (execStmt env fuel scope) body)

theorem callValue_succ_ends (hnatives : ∀ code, (env.natives code).Ends)
    (hbodies : BodiesEnd env n d x) (hx : x ≤ fuel) {f : Value}
    (hback : ∀ g passed, Discipline.CallsBack args keywords passed →
      (ending n d).holds (callValue env fuel g passed .empty 0)) :
    (ending n d).holds (callValue env (fuel + 1) f args keywords line) := by
  intro w hw
  rw [Modality.callValue_succ]
  cases hf : w.heap.asFunction f with
  | error e => exact hw
  | ok callable =>
    cases callable with
    | host g =>
      refine (ending n d).atLine ((ending n d).invoke hback
        (fun hact => (ending n d).steady hact.orderly.steady) fun code _ => ?_) w hw
      exact hnatives code _ (fun w w' h hw => hw.intact h) _ args keywords
        fun g passed hlt => hback g passed (.inl hlt)
    | script closure =>
      obtain ⟨hfree, hsize⟩ := hw.closures closure (Heap.mem_closures_of_asFunction hf)
      exact enterCall_ends (fun hlt scope => hbodies hlt fuel hx scope _ hfree hsize) w hw

/-- A call without keywords nests at most as many host functions as it has
arguments. -/
theorem callback_ends (hnatives : ∀ code, (env.natives code).Ends)
    (hbodies : BodiesEnd env n d x) : ∀ {fuel : Nat} {f : Value} {args : List Value} {line : Nat},
    args.length + 1 + x ≤ fuel → (ending n d).holds (callValue env fuel f args .empty line)
  | 0, _, _, _, h => by omega
  | fuel + 1, f, args, line, h => by
    refine callValue_succ_ends hnatives hbodies (by omega) fun g passed hpassed => ?_
    have hlt : passed.length < args.length := by
      rcases hpassed with hlt | ⟨-, hne⟩
      · exact hlt
      · exact absurd rfl hne
    exact callback_ends hnatives hbodies (by omega)

/-- A call with keywords can also call its key function back, which takes one
argument. -/
theorem callValue_ends (hnatives : ∀ code, (env.natives code).Ends)
    (hbodies : BodiesEnd env n d x) {f : Value} (h : args.length + 3 + x ≤ fuel) :
    (ending n d).holds (callValue env fuel f args keywords line) := by
  rcases fuel with _ | fuel
  · omega
  refine callValue_succ_ends hnatives hbodies (by omega) fun g passed hpassed => ?_
  refine callback_ends hnatives hbodies ?_
  rcases hpassed with hlt | ⟨hle, -⟩ <;> omega

/-! ### Expressions, statements and blocks -/

theorem evalExpr_ends (hnatives : ∀ code, (env.natives code).Ends)
    (hbodies : BodiesEnd env n d x) : ∀ {fuel : Nat} {scope : ScopeRef} {e : Expr},
    sizeOf e + 2 ≤ n → sizeOf e + (n + 3 + x) ≤ fuel →
    (ending n d).holds (evalExpr env fuel scope e)
  | 0, _, _, _, hfuel => by omega
  | fuel + 1, scope, e, hsize, hfuel => by
    refine (ending n d).evalExpr_succ (fun inner part hpart => ?_) (fun f vs ks line hvs => ?_)
      fun c p value hbody hc => ?_
    · exact evalExpr_ends hnatives hbodies (by omega) (by omega)
    · exact callValue_ends hnatives hbodies (by omega)
    refine newFunction_ends (fun t ht => ?_) (by omega)
    rw [hbody, List.mem_singleton] at ht
    subst ht
    exact .intro (fun _ _ _ h => nomatch h) (fun _ h => nomatch h)

theorem execStmt_ends (hnatives : ∀ code, (env.natives code).Ends)
    (hbodies : BodiesEnd env n d x) : ∀ {fuel : Nat} {scope : ScopeRef} {s : Stmt},
    s.WhileFree → sizeOf s + 1 ≤ n → sizeOf s + (n + 3 + x) ≤ fuel →
    (ending n d).holds (execStmt env fuel scope s)
  | 0, _, _, _, _, hfuel => by omega
  | fuel + 1, scope, s, .intro hhead hinside, hsize, hfuel => by
    have hblock (scope : ScopeRef) : ∀ body ∈ s.blocks,
        (ending n d).holds (runBlock (execStmt env fuel scope) body) := by
      intro body hbody
      have hlt := Stmt.sizeOf_block_lt hbody
      refine (ending n d).runBlock fun t ht => ?_
      have := List.sizeOf_lt_of_mem ht
      exact execStmt_ends hnatives hbodies (hinside body hbody t ht) (by omega) (by omega)
    refine (ending n d).execStmt_succ (fun inner e he => ?_) hblock (fun p condition body hs => ?_)
      (fun p body handlers otherwise always hs => ?_) fun c hc => ?_
    · exact evalExpr_ends hnatives hbodies (by omega) (by omega)
    · exact absurd hs (hhead p condition body)
    · subst hs
      exact (ending n d).attempt_of_catches (ending_catches n d) (hblock scope)
    · have := Stmt.sizeOf_block_lt hc
      exact newFunction_ends (hinside c.body hc) (by omega)

theorem runBlock_ends (hnatives : ∀ code, (env.natives code).Ends)
    (hbodies : BodiesEnd env n d x) {scope : ScopeRef} {body : List Stmt}
    (hfree : ∀ t ∈ body, t.WhileFree) (hsize : sizeOf body ≤ n) (hfuel : 2 * n + 3 + x ≤ fuel) :
    (ending n d).holds (runBlock (execStmt env fuel scope) body) := by
  refine (ending n d).runBlock fun t ht => ?_
  have := List.sizeOf_lt_of_mem ht
  exact execStmt_ends hnatives hbodies (hfree t ht) (by omega) (by omega)

/-- The bodies end where at most `D` more calls can be nested. The induction is on
`D`: one call deeper, one call less is left. -/
theorem bodies_end (hnatives : ∀ code, (env.natives code).Ends) (n : Nat) :
    ∀ (D : Nat) {d : Nat}, env.maxDepth ≤ d + D → BodiesEnd env n d (D * (2 * n + 3))
  | 0, _, hlimit, hlt, _, _, _, _, _, _ => by omega
  | D + 1, d, hlimit, _, fuel, hx, scope, body, hfree, hsize => by
    rw [Nat.succ_mul] at hx
    exact runBlock_ends hnatives (bodies_end hnatives n D (by omega)) hfree hsize (by omega)

theorem runProgram_ends (hnatives : ∀ code, (env.natives code).Ends)
    (hbodies : BodiesEnd env n d x) (hfuel : 2 * n + 3 + x ≤ fuel)
    {program : Program} (hfree : ∀ t ∈ program, t.WhileFree) (hsize : sizeOf program ≤ n) :
    (ending n d).holds (runProgram env fuel program) := by
  refine (ending n d).runProgram (fun t ht => ?_) fun e he => ⟨(ending n d).checkpoint _ _, ?_⟩
  · have := List.sizeOf_lt_of_mem ht
    exact execStmt_ends hnatives hbodies (hfree t ht) (by omega) (by omega)
  · have := List.sizeOf_lt_of_mem he
    simp only [Stmt.expr.sizeOf_spec] at this
    exact evalExpr_ends hnatives hbodies (by omega) (by omega)

end Calls

/-! ### Whole programs -/

theorem exists_bodies_bound : ∀ closures : List Closure,
    ∃ n, ∀ c ∈ closures, sizeOf c.body ≤ n
  | [] => ⟨0, fun _ h => nomatch h⟩
  | c :: rest => by
    obtain ⟨n, hn⟩ := exists_bodies_bound rest
    refine ⟨sizeOf c.body + n, fun c' hc' => ?_⟩
    rcases List.mem_cons.1 hc' with rfl | hc'
    · omega
    · have := hn c' hc'
      omega

/-- A program without `while`, on a heap whose functions have none, comes to an end:
beyond some budget every run gives a value or a fault. -/
theorem runProgram_halts (env : Environment) (hnatives : ∀ code, (env.natives code).Ends)
    (w : World) (hheap : ∀ c ∈ w.heap.closures, ∀ t ∈ c.body, t.WhileFree)
    (program : Program) (hprogram : ∀ t ∈ program, t.WhileFree) :
    ∃ least, ∀ fuel, least ≤ fuel →
      (∃ v w', runProgram env fuel program w = .ok v w') ∨
      (∃ f w', runProgram env fuel program w = .fault f w') := by
  obtain ⟨m, hm⟩ := exists_bodies_bound w.heap.closures
  let n := sizeOf program + m
  have hbounded : w.Bounded n w.depth :=
    ⟨rfl, fun c hc => ⟨hheap c hc, Nat.le_trans (hm c hc) (Nat.le_add_left m _)⟩⟩
  have hbodies := bodies_end hnatives n env.maxDepth (Nat.le_add_left _ w.depth)
  refine ⟨2 * n + 3 + env.maxDepth * (2 * n + 3), fun fuel hfuel => ?_⟩
  have hends := runProgram_ends hnatives hbodies hfuel hprogram (Nat.le_add_right _ m) w hbounded
  cases hrun : runProgram env fuel program w with
  | ok v w' => exact .inl ⟨v, w', rfl⟩
  | fault f w' => exact .inr ⟨f, w', rfl⟩
  | exhausted => rw [hrun] at hends; exact hends.elim

/-- The sample functions end: the one that calls back passes on one argument less. -/
theorem Sample.body_ends (code : String) : (Sample.body code).Ends := by
  intro I hintact call args keywords hcall w hw
  rcases Sample.body_tame code call args keywords with htame | ⟨f, rest, rfl, hbody⟩
  · have htame := htame w
    cases hrun : Sample.body code call args keywords w with
    | ok v w' => rw [hrun] at htame; exact hintact w w' htame.toIntact hw
    | fault f w' => rw [hrun] at htame; exact hintact w w' htame.toIntact hw
    | exhausted => rw [hrun] at htame; exact htame
  · rw [hbody]
    exact hcall f rest (by simp) w hw

/-- The body of a function `f` that calls itself without end, and once more when the
calls nest too deep. -/
def Sample.endlessBody (p : Position) : List Stmt :=
  let again : Expr := .call p (.name p "f") [] []
  [.attempt p [.expr again] [⟨p, none, none, [.giveBack p (some again)]⟩] none none]

theorem Sample.endlessBody_whileFree (p : Position) : ∀ t ∈ endlessBody p, t.WhileFree := by
  have hleaf {s : Stmt} (hs : ∀ p condition body, s ≠ .whileTrue p condition body)
      (hblocks : s.blocks = []) : s.WhileFree := .intro hs (by simp [hblocks])
  intro t ht
  cases List.mem_singleton.1 ht
  refine .intro (fun _ _ _ => Stmt.noConfusion) fun body hbody t ht => ?_
  simp only [Stmt.blocks, List.map_cons, List.map_nil, Option.toList_none, List.append_nil,
    List.mem_cons, List.not_mem_nil, or_false] at hbody
  rcases hbody with rfl | rfl <;> cases List.mem_singleton.1 ht
  · exact hleaf (fun _ _ _ => Stmt.noConfusion) rfl
  · exact hleaf (fun _ _ _ => Stmt.noConfusion) rfl

/-- Calls without end come to an end: the limit on their depth stops them. Here `f`
is on the heap already, and the script defines it again and calls it. -/
theorem runProgram_halts_endless :
    let p : Position := ⟨1, 1⟩
    let s := Session.build Sample.body {}
    let heap := (s.world.heap.newFunction
      (.script ⟨"f", [], Sample.endlessBody p, s.env.globals⟩)).2
    ∃ least, ∀ fuel, least ≤ fuel →
      let run := runProgram s.env fuel
        [.define p "f" [] (Sample.endlessBody p), .expr (.call p (.name p "f") [] [])]
        { s.world with heap := heap }
      (∃ v w', run = .ok v w') ∨ (∃ f w', run = .fault f w') := by
  intro p s heap
  refine runProgram_halts s.env Sample.body_ends { s.world with heap := heap } ?_ _ ?_
  · intro c hc
    have hfresh : s.world.heap.closures = [] := rfl
    change c ∈ heap.closures at hc
    rw [Heap.closures_newFunction_script, hfresh, List.nil_append, List.mem_singleton] at hc
    subst hc
    exact Sample.endlessBody_whileFree p
  intro t ht
  rcases List.mem_cons.1 ht with rfl | ht
  · refine .intro (fun _ _ _ h => nomatch h) fun body hbody => ?_
    cases List.mem_singleton.1 hbody
    exact Sample.endlessBody_whileFree p
  · cases List.mem_singleton.1 ht
    exact .intro (fun _ _ _ h => nomatch h) fun _ h => nomatch h

end Scripting
