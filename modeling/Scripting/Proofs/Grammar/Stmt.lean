/-
# Statements side by side

A statement begins within a line and ends with one, so behind it the seam may come. The words that
go on with a statement never stand there (`Seam.clean`), and so a statement that might have gone
on ends in both texts. The statements of a block go up to the end of their block; at the seam that
is a step further on if an extra newline comes first.

As for expressions, `StmtTracks` says of all readers that they track themselves with two bounds.
The second bound leaves room for the extra newlines. A statement may go on differently behind a
seam, so that a reading that fails says nothing of the tokens beside.
-/
import Scripting.Proofs.Grammar.Expr

namespace Scripting

open Parse

namespace Grammar

variable {k low b b' : Nat}

/-! ### Statements on a line -/

theorem target_tracks {need : Nat} {R : List Token → List Token → Prop} {e : Expr}
    (he : e.Sound low) : Tracks False b need 0 R R (Target.down k) (SoundTarget low) (target e)
      (target (e.down k)) := by
  unfold target
  cases h : asTarget e with
  | ok t =>
    rw [asTarget_down k h]
    exact .pure rfl (sound_of_asTarget h he)
  | error d => exact .fails (fun ts => ⟨d, rfl⟩) False.elim

theorem augmentOp?_isSolid {kind : Token.Kind} {op : BinaryOp} (h : augmentOp? kind = some op) :
    kind.isSolid = true ∧ ∀ depth, kind.depthBehind depth = depth := by
  unfold augmentOp? at h
  split at h <;> first | exact ⟨rfl, fun _ => rfl⟩ | cases h

theorem exprList_inLine (h : b ≤ b') :
    ExprInLine False k low b 17 32 (exprList b) (exprList b') := by
  have ih : ExprTracks False k low b b' := exprTracks False.elim h
  refine ⟨.bind ih.expr.tracks fun first hfirst => .bind (.check _) fun _ _ => ?_⟩
  refine .ite (fun _ => .bind (ih.moreItems _).tracks fun rest hrest => .pure ?_ ?_)
    fun _ => ?_
  · rw [Expr.down, Expr.pos_down, List.map_cons]
  · exact Expr.sound_list hfirst.located hfirst hrest
  · exact .pure rfl hfirst

theorem exprOrAssign_inLine (h : b ≤ b') (n : Nesting) :
    InLine False k low b 17 32 0 (Stmt.down k) (Stmt.Sound low n) (exprOrAssign b)
      (exprOrAssign b') := by
  refine ⟨fun {ending level depth} => .bind .here fun pos hpos => ?_⟩
  refine .bind (exprList_inLine h).tracks fun e he => .peek fun t _ => ?_
  rw [Token.kind_down]
  refine .ite (fun hassign => ?_) fun _ => ?_
  · refine .bind (target_tracks he) fun target htarget => ?_
    refine .take (Token.Kind.eq_of_same hassign) rfl ?_
    refine .bind (exprList_inLine h).tracks fun value hvalue => ?_
    refine .pure (by rw [Stmt.down]) ?_
    exact .intro htarget.1 hpos (List.forall_mem_cons.2 ⟨hvalue, htarget.2⟩) (List.forall_mem_nil _)
  cases hop : augmentOp? t.kind with
  | none =>
    refine .at_front (.pure (by rw [Stmt.down]) ?_)
    exact .intro trivial he.located (List.forall_mem_singleton.2 he) (List.forall_mem_nil _)
  | some op =>
    obtain ⟨hsolid, hdepth⟩ := augmentOp?_isSolid hop
    have htake {target : Target} (htarget : SoundTarget low target)
        (hgroup : ∀ targets, target ≠ .group targets) :
        Tracks False b 49 0 (Tracks.At (Abreast k low ending true level depth) t)
          (Abreast k low ending true level depth) (Stmt.down k) (Stmt.Sound low n)
          (do advance; let value ← expr b; pure (.augment pos op target value))
          (do
            advance
            let value ← expr b'
            pure (.augment (pos.down k) op (target.down k) value)) := by
      refine .take rfl hsolid ?_
      rw [hdepth]
      refine .bind ((exprTracks False.elim h).expr.tracks) fun value hvalue => ?_
      refine .pure (by rw [Stmt.down]) ?_
      refine .intro hgroup hpos ?_ (List.forall_mem_nil _)
      exact List.forall_mem_cons.2 ⟨hvalue, htarget.2⟩
    refine .bind (target_tracks he) fun target htarget => ?_
    cases target with
    | group targets => exact .fails (fun ts => ⟨_, rfl⟩) False.elim
    | name name =>
      have hname := htake htarget fun _ h => by cases h
      rw [Target.down] at hname ⊢
      exact hname
    | index container key =>
      have hindex := htake htarget fun _ h => by cases h
      rw [Target.down] at hindex ⊢
      exact hindex

theorem atLineEnd_inLine {strict : Prop} {need : Nat} :
    InLine strict k low b need 0 0 id (fun _ => True) atLineEnd atLineEnd := by
  refine ⟨⟨fun {ts ts'} hR => ?_⟩⟩
  unfold atLineEnd
  rw [hR.front_eq]
  exact .ok trivial (.refl ts) hR

theorem optionalValue_inLine {value value' : Parse Expr}
    (h : ExprInLine False k low b 17 32 value value') :
    InLine False k low b 17 0 0 (Option.map (Expr.down k)) (∀ e ∈ ·.toList, Expr.Sound low e)
      (optionalValue value) (optionalValue value') :=
  ⟨.bind atLineEnd_inLine.reads fun _ _ => .ite (fun _ => .pure rfl (List.forall_mem_nil _))
    fun _ => .bind h.tracks fun _ he => .pure rfl (List.forall_mem_singleton.2 he)⟩

theorem sound_leaf {n : Nesting} {s : Stmt} (hrule : s.Admissible n) (hpos : low ≤ s.pos.line)
    (hexprs : s.exprs = []) (hblocks : s.blocks = []) : s.Sound low n :=
  .intro hrule hpos (by simp [hexprs]) (by simp [hblocks])

theorem simpleStmt_inLine (h : b ≤ b') (n : Nesting) :
    InLine False k low b 17 32 0 (Stmt.down k) (Stmt.Sound low n) (simpleStmt b n)
      (simpleStmt b' n) := by
  refine ⟨.peek fun t ht => ?_⟩
  dsimp only
  rw [Token.kind_down, Token.pos_down]
  split
  next hkind =>
    refine .ite (fun hn => .take hkind rfl ?_) fun _ => .failHere
    refine .bind (optionalValue_inLine (exprList_inLine h)).tracks
      fun value hvalue => ?_
    exact .pure (by rw [Stmt.down]) (.intro hn ht hvalue (List.forall_mem_nil _))
  next hkind =>
    refine .take hkind rfl (.bind .expectName fun name _ => ?_)
    refine .bind (dottedRest_inLine h name).tracks fun name _ => ?_
    exact .pure (by rw [Stmt.down, id]) (sound_leaf trivial ht rfl rfl)
  next hkind =>
    have ih : ExprTracks False k low b b' := exprTracks False.elim h
    refine .take hkind rfl ?_
    refine .bind (optionalValue_inLine ih.expr).tracks fun value hvalue => ?_
    exact .pure (by rw [Stmt.down]) (.intro trivial ht hvalue (List.forall_mem_nil _))
  next hkind =>
    exact .take hkind rfl (.pure (by rw [Stmt.down]) (sound_leaf trivial ht rfl rfl))
  next hkind =>
    refine .ite (fun hn => .take hkind rfl ?_) fun _ => .failHere
    exact .pure (by rw [Stmt.down]) (sound_leaf hn ht rfl rfl)
  next hkind =>
    refine .ite (fun hn => .take hkind rfl ?_) fun _ => .failHere
    exact .pure (by rw [Stmt.down]) (sound_leaf hn ht rfl rfl)
  · exact (exprOrAssign_inLine h n).reads.at_front

theorem handlerKind_inLine (h : b ≤ b') :
    InLine False k low b 1 0 0 id (fun _ => True) (handlerKind b) (handlerKind b') :=
  ⟨.bind (.check _) fun _ _ => .ite (fun _ => .pure rfl trivial) fun _ => .bind .expectName
    fun name _ => .bind (dottedRest_inLine h name).tracks fun _ _ => .pure rfl trivial⟩

theorem handlerBinding_inLine {strict : Prop} {need : Nat} :
    InLine strict k low b need 0 0 id (fun _ => True) handlerBinding handlerBinding :=
  ⟨.accept rfl (.bind .expectName fun _ _ => .pure rfl trivial) (.pure rfl trivial)⟩

theorem simpleLine_tracks (h : b ≤ b') {n : Nesting} {ending : Ending} {level depth b₁ need : Nat}
    (hle : b₁ + 17 ≤ b + need) : Tracks False b₁ need 32 (Abreast k low ending true level depth)
      (Abreast k low ending false level depth) (Stmt.down k) (Stmt.Sound low n) (simpleLine b n)
      (simpleLine b' n) :=
  .bind ((simpleStmt_inLine h n).tracks hle) fun _ hs => .bind .expectLineEnd
    fun _ _ => .pure rfl hs

end Grammar

/-! ### Between the lines -/

namespace Abreast

variable {k low : Nat} {ending : Ending} {level depth : Nat} {ts ts' : List Token}

theorem inLine_of_isSolid (h : Abreast k low ending false level depth ts ts')
    (hsolid : (Token.front ts).kind.isSolid = true) : Abreast k low ending true level depth ts ts' := by
  cases h with
  | token hkind hline rest => exact .token hkind hline rest
  | eof hnone p hline => exact .eof hnone p hline
  | seam => cases level <;> cases hsolid

theorem same_of_continuesStmt (h : Abreast k low ending false level depth ts ts') {kind : Token.Kind}
    (hkind : kind.continuesStmt = true) :
    (Token.front ts').kind.same kind = (Token.front ts).kind.same kind := by
  have hother {other : Token.Kind} (h : other.continuesStmt = false) : other.same kind = false :=
    Token.Kind.same_eq_false (P := fun kind => !kind.continuesStmt) (by rw [h]; rfl)
      (by rw [hkind]; rfl)
  cases h with
  | token => rfl
  | eof => rfl
  | @seam level extra s hseam hextra p q r u =>
    have hleft : (Token.front (List.replicate level ⟨.dedent, p⟩ ++ [⟨.eof, q⟩])).kind.continuesStmt
        = false := by cases level <;> rfl
    have hright : (Token.front (List.replicate extra ⟨.newline, r⟩ ++
        (List.replicate level ⟨.dedent, u⟩ ++ s.tail))).kind.continuesStmt = false := by
      cases extra with
      | succ => rfl
      | zero =>
        cases level with
        | succ => rfl
        | zero => exact s.clean
    rw [hother hleft, hother hright]

end Abreast

theorem Token.Kind.isSolid_of_continuesStmt {kind : Token.Kind} (h : kind.continuesStmt = true) :
    kind.isSolid = true ∧ ∀ depth, kind.depthBehind depth = depth := by
  unfold continuesStmt at h
  split at h <;> first | exact ⟨rfl, fun _ => rfl⟩ | cases h

/-- Both texts are at the end of a block, with no newline before it. -/
def BlockEnd (k low : Nat) (ending : Ending) (level depth : Nat) (ts ts' : List Token) : Prop :=
  Abreast k low ending false level depth ts ts' ∧ (Token.front ts').kind = (Token.front ts).kind

namespace Tracks

variable {α : Type} {strict : Prop} {b need cost k low : Nat} {ending : Ending} {level depth : Nat}
  {kind : Token.Kind} {f : α → α} {Q : α → Prop} {R' : List Token → List Token → Prop}

theorem acceptWord (hkind : kind.continuesStmt = true) {p p' q q' : Parse α}
    (hp : Tracks strict b (need + 32) (cost - 32) (Abreast k low ending true level depth) R' f Q p
      p')
    (hq : Tracks strict b need cost (Abreast k low ending false level depth) R' f Q q q') :
    Tracks strict b need cost (Abreast k low ending false level depth) R' f Q
      (Parse.accept kind >>= fun found => if found = true then p else q)
      (Parse.accept kind >>= fun found => if found = true then p' else q') := by
  refine accept_of (fun hR => hR.same_of_continuesStmt hkind) (fun hR hfront => ?_) hp hq
  obtain ⟨hsolid, hdepth⟩ := Token.Kind.isSolid_of_continuesStmt hkind
  rw [← hfront] at hsolid
  have hline := hR.inLine_of_isSolid hsolid
  have hbehind := hline.behind hsolid
  rw [hfront, hdepth] at hbehind
  exact ⟨hline.leaves_of_isSolid hsolid, hbehind⟩

theorem checkWord (hkind : kind.continuesStmt = true) {p p' q q' : Parse α}
    (hp : ∀ t : Token, t.kind = kind →
      Tracks strict b need cost (At (Abreast k low ending true level depth) t) R' f Q p p')
    (hq : Tracks strict b need cost (Abreast k low ending false level depth) R' f Q q q') :
    Tracks strict b need cost (Abreast k low ending false level depth) R' f Q
      (Parse.check kind >>= fun found => if found = true then p else q)
      (Parse.check kind >>= fun found => if found = true then p' else q') := by
  refine ⟨fun {ts ts'} hR => ?_⟩
  rw [bind_check, bind_check, hR.same_of_continuesStmt hkind]
  cases hfound : (Token.front ts).kind.same kind with
  | true =>
    have hfront := Token.Kind.eq_of_same hfound
    have hsolid : (Token.front ts).kind.isSolid = true := by
      rw [hfront, (Token.Kind.isSolid_of_continuesStmt hkind).1]
    rw [if_pos rfl, if_pos rfl]
    exact (hp _ hfront).run ⟨hR.inLine_of_isSolid hsolid, rfl⟩
  | false =>
    rw [if_neg Bool.false_ne_true, if_neg Bool.false_ne_true]
    exact hq.run hR

theorem at_here {t : Token} {β : Type} {g : β → β} {Q : β → Prop}
    {next next' : Position → Parse β}
    (h : Tracks strict b need cost (At (Abreast k low ending true level depth) t) R' g Q
      (next t.pos) (next' (t.pos.down k))) :
    Tracks strict b need cost (At (Abreast k low ending true level depth) t) R' g Q
      (Parse.here >>= next) (Parse.here >>= next') := by
  refine ⟨fun {ts ts'} hR => ?_⟩
  rw [bind_here, bind_here, hR.1.front_eq, hR.2]
  exact h.run hR

theorem expectIndent : Tracks False b need 0 (Abreast k low ending false level depth)
    (Abreast k low ending false (level + 1) depth) id (fun _ => True) (Parse.expect .indent)
    (Parse.expect .indent) := by
  refine ⟨fun {ts ts'} hR => ?_⟩
  cases hR with
  | @token _ _ _ t ts ts' hkind _ hrest =>
    obtain ⟨hts, hts'⟩ := hrest.ne_nil
    unfold Parse.expect
    rw [Token.behind_cons hts, Token.behind_cons hts']
    dsimp only [Token.front]
    rw [Token.kind_down]
    split
    next hsame =>
      rw [Token.Kind.eq_of_same hsame] at hrest
      exact .ok trivial (Leaves.cons hts).drop hrest
    · exact .error (.refl _) False.elim
  | eof => exact .error (.refl _) False.elim
  | @seam level => cases level <;> exact .error (.refl _) False.elim

theorem acceptNewline {p p' q q' : Parse α}
    (hp : Tracks strict b (need + 1) (cost - 1) (Abreast k low ending false level depth) R' f Q p
      p')
    (hq : Tracks strict b need cost (Abreast k low ending true level depth) R' f Q q q') :
    Tracks strict b need cost (Abreast k low ending true level depth) R' f Q
      (Parse.accept .newline >>= fun found => if found = true then p else q)
      (Parse.accept .newline >>= fun found => if found = true then p' else q') := by
  refine accept_of (fun hR => ?_) (fun {ts ts'} hR hfront => ?_) hp hq
  · rw [hR.front_eq, Token.kind_down]
  have hne : (Token.front ts).kind ≠ .eof := by rw [hfront]; nofun
  have hbehind := hR.behind_of_ne_eof hne
  have hleaves := hR.leaves hne
  rw [hfront] at hbehind
  rw [Token.demand_newline hfront] at hleaves
  exact ⟨hleaves, hbehind⟩

theorem bind_atEnd_of_dedent {t : Token} {more : List Token} (ht : t.kind = .dedent)
    (hmore : more ≠ []) (body : α) :
    (do if ← Parse.atEnd then Pure.pure body else Parse.expect .dedent; Pure.pure body : Parse α)
      (t :: more) = .ok body more := by
  obtain ⟨kind, p⟩ := t
  cases ht
  cases more with
  | nil => exact absurd rfl hmore
  | cons u more => rfl

theorem blockEnd {body body' : α} (hbody : body' = f body) (hQ : Q body) :
    Tracks False b need 0 (BlockEnd k low ending (level + 1) depth)
      (Abreast k low ending false level depth) f Q
      (do if ← Parse.atEnd then Pure.pure body else Parse.expect .dedent; Pure.pure body)
      (do if ← Parse.atEnd then Pure.pure body' else Parse.expect .dedent; Pure.pure body') := by
  refine ⟨fun {ts ts'} ⟨hR, hsame⟩ => ?_⟩
  subst hbody
  cases hR with
  | @token _ _ _ t ts ts' hkind _ hrest =>
    obtain ⟨hts, hts'⟩ := hrest.ne_nil
    by_cases ht : t.kind = .dedent
    · rw [bind_atEnd_of_dedent ht hts, bind_atEnd_of_dedent (t := t.down k) ht hts']
      rw [ht] at hrest
      exact .ok hQ (Leaves.cons hts).drop hrest
    obtain ⟨kind, p⟩ := t
    cases kind with
    | dedent => exact absurd rfl ht
    | eof => exact absurd rfl hkind.1
    | _ => exact .error (.refl _) False.elim
  | eof hnone p hline => exact .ok hQ (.refl _) (.eof hnone p hline)
  | @seam level extra s hseam hextra p q r u =>
    -- An extra newline would have been taken with the block.
    cases extra with
    | succ => cases hsame
    | zero =>
      rw [List.replicate_succ, List.cons_append, bind_atEnd_of_dedent rfl (by simp),
        List.replicate_zero, List.nil_append, List.replicate_succ, List.cons_append,
        bind_atEnd_of_dedent rfl (by simp [s.nonempty])]
      exact .ok hQ (Leaves.cons (by simp)).drop (.seam hseam (Nat.zero_le _) p q r u)

end Tracks

/-! ### All readers of statements -/

namespace Grammar

variable {k low b b' : Nat} {ending : Ending}

section Readers

variable {α : Type} (k low : Nat) (ending : Ending) (b b' : Nat) (inLine : Bool) (need cost : Nat)
  (f : α → α) (Q : Nesting → α → Prop) (p : Nat → Nesting → Parse α)

/-- A reader that ends with a line, for two bounds. It begins within a line or anywhere. -/
structure ReadsLines : Prop where
  reads : ∀ {n : Nesting} {level depth : Nat}, Tracks False b need cost
    (Abreast k low ending inLine level depth) (Abreast k low ending false level depth) f (Q n)
    (p b n) (p b' n)

/-- A reader up to the end of a block. -/
structure ReadsBlock : Prop where
  reads : ∀ {n : Nesting} {level depth : Nat}, Tracks False b need 0
    (Abreast k low ending inLine (level + 1) depth) (BlockEnd k low ending (level + 1) depth) f
    (Q n) (p b n) (p b' n)

def ReadsStmt (p : Nat → Nesting → Parse Stmt) : Prop :=
  ReadsLines k low ending b b' true need 32 (Stmt.down k) (Stmt.Sound low) p

end Readers

section

variable {α : Type} {inLine : Bool} {need cost b₁ need₁ : Nat} {f : α → α}
  {Q : Nesting → α → Prop} {p : Nat → Nesting → Parse α} {n : Nesting} {level depth : Nat}

theorem ReadsLines.tracks (h : ReadsLines k low ending b b' inLine need cost f Q p)
    (hle : b₁ + need ≤ b + need₁ := by omega) : Tracks False b₁ need₁ cost
      (Abreast k low ending inLine level depth) (Abreast k low ending false level depth) f (Q n)
      (p b n) (p b' n) := h.reads.room hle

theorem ReadsBlock.tracks (h : ReadsBlock k low ending b b' inLine need f Q p)
    (hle : b₁ + need ≤ b + need₁ := by omega) : Tracks False b₁ need₁ 0
      (Abreast k low ending inLine (level + 1) depth) (BlockEnd k low ending (level + 1) depth) f
      (Q n) (p b n) (p b' n) := h.reads.room hle

end

/-- With the first bound a reader of statements reads what it reads with the second one
further down, and it is sound. -/
structure StmtTracks (k low : Nat) (ending : Ending) (b b' : Nat) : Prop where
  stmt : ReadsStmt k low ending b b' 18 Grammar.stmt
  branchStmt : ReadsStmt k low ending b b' 1 Grammar.branchStmt
  elifBranches : ReadsLines k low ending b b' false 1 0 (List.map (Branch.down k))
    (SoundBranches low) Grammar.elifBranches
  optionalBlock : ∀ word, word.continuesStmt = true → ReadsLines k low ending b b' false 1 0
    (Stmt.downIf k) (SoundBlockIf low) (fun b n => Grammar.optionalBlock b n word)
  forStmt : ReadsStmt k low ending b b' 1 Grammar.forStmt
  whileStmt : ReadsStmt k low ending b b' 1 Grammar.whileStmt
  defineStmt : ReadsStmt k low ending b b' 1 Grammar.defineStmt
  attemptStmt : ReadsStmt k low ending b b' 1 Grammar.attemptStmt
  handlers : ∀ afterBare, ReadsLines k low ending b b' false 1 0 (List.map (Handler.down k))
    (HandlersSound low afterBare) (fun b n => Grammar.handlers b n afterBare)
  block : ReadsLines k low ending b b' true 1 0 (List.map (Stmt.down k)) (SoundBlock low)
    Grammar.block
  blockBody : ReadsBlock k low ending b b' false 19 (List.map (Stmt.down k)) (SoundBlock low)
    Grammar.blockBody

theorem blockBody_of_newlines (nesting : Nesting) {t : Token} (ht : t.kind = .dedent)
    (more : List Token) (r : Position) : ∀ {extra b : Nat}, extra < b →
    blockBody b nesting (List.replicate extra ⟨.newline, r⟩ ++ t :: more) = .ok [] (t :: more)
  | 0, b + 1, _ => by
    obtain ⟨kind, p⟩ := t
    cases ht
    rfl
  | extra + 1, b + 1, h => by
    have ih := blockBody_of_newlines nesting ht more r (Nat.lt_of_succ_lt_succ h)
    have hbehind : Token.behind (List.replicate (extra + 1) ⟨.newline, r⟩ ++ t :: more) =
        List.replicate extra ⟨.newline, r⟩ ++ t :: more := by
      rw [List.replicate_succ, List.cons_append, Token.behind_cons (by simp)]
    rw [← ih, ← hbehind]
    rfl

namespace StmtTracks

variable (ih : StmtTracks k low ending b b')
include ih

theorem attemptStmt_succ : ReadsStmt k low ending (b + 1) (b' + 1) 1 Grammar.attemptStmt := by
  refine ⟨fun {n level depth} => .bind .here fun pos hpos => .bind (.expect rfl) fun _ _ => ?_⟩
  refine .bind ih.block.tracks fun body hbody => ?_
  refine .bind (ih.handlers false).tracks fun handlers h => ?_
  have hrest (otherwise : Option (List Stmt)) (hblock : SoundBlockIf low n otherwise)
      (hne : otherwise ≠ none → handlers ≠ []) : Tracks False (b + 1) 33 0
      (Abreast k low ending false level depth) (Abreast k low ending false level depth)
      (Stmt.down k) (Stmt.Sound low n)
      (do
        let always ← Grammar.optionalBlock b n (.word .finally_)
        if handlers.isEmpty && always.isNone then
          let found ← peek
          failHere (.missingHandler found.kind)
        else pure (.attempt pos body handlers otherwise always))
      (do
        let always ← Grammar.optionalBlock b' n (.word .finally_)
        if (handlers.map (Handler.down k)).isEmpty && always.isNone then
          let found ← peek
          failHere (.missingHandler found.kind)
        else pure (.attempt (pos.down k) (body.map (Stmt.down k)) (handlers.map (Handler.down k))
          (Stmt.downIf k otherwise) always)) := by
    refine .bind (ih.optionalBlock _ rfl).tracks fun always halways => ?_
    rw [List.isEmpty_map, Stmt.isNone_downIf]
    refine .ite (fun _ => .fails (fun ts => ⟨_, rfl⟩) False.elim) fun hsome => ?_
    refine .pure (by rw [Stmt.down]) ?_
    have hrule : handlers ≠ [] ∨ always ≠ none := by
      by_cases hempty : handlers = []
      · exact .inr fun hnone => hsome (by rw [hempty, hnone]; rfl)
      · exact .inl hempty
    refine .intro ⟨hrule, hne, h.bareLast⟩ hpos (List.forall_mem_nil _) ?_
    rw [Stmt.blocks, List.forall_mem_append, List.forall_mem_append, List.forall_mem_cons,
      List.forall_mem_map]
    exact ⟨⟨⟨hbody, h.bodies⟩, hblock⟩, halways⟩
  dsimp only
  rw [List.isEmpty_map] at hrest ⊢
  refine .ite (fun _ => ?_) fun hempty => ?_
  · refine .bind (.pure (Q := (· = none)) (Stmt.downIf_none k).symm rfl) fun _ hnone => ?_
    exact hrest _ (hnone ▸ List.forall_mem_nil _) (absurd hnone)
  · refine .bind (ih.optionalBlock _ rfl).tracks fun otherwise ho => ?_
    exact hrest otherwise ho fun _ hnil => hempty (by rw [hnil]; rfl)

theorem blockBody_inLine : ReadsBlock k low ending (b + 1) (b' + 1) true 19
    (List.map (Stmt.down k)) (SoundBlock low) Grammar.blockBody := by
  refine ⟨.bind (.check _) fun _ _ => .bind (.check _) fun _ _ => .ite (fun _ => ?_) fun _ => ?_⟩
  · refine Tracks.weaken (.pure rfl (List.forall_mem_nil _)) (Nat.le_refl _) fun hR => ⟨hR.anywhere, ?_⟩
    rw [hR.front_eq, Token.kind_down]
  refine .acceptNewline ih.blockBody.tracks ?_
  refine .bind ih.stmt.tracks fun first hfirst => ?_
  refine .bind ih.blockBody.tracks fun rest hrest => .pure rfl ?_
  exact List.forall_mem_cons.2 ⟨hfirst, hrest⟩

theorem blockBody_succ (hb : b + ending.extra ≤ b') : ReadsBlock k low ending (b + 1) (b' + 1) false
    19 (List.map (Stmt.down k)) (SoundBlock low) Grammar.blockBody := by
  refine ⟨fun {n level depth} => ⟨fun {ts ts'} hR => ?_⟩⟩
  cases hR with
  | token hkind hline hrest => exact ih.blockBody_inLine.reads.run (.token hkind hline hrest)
  | eof hnone p hline => exact ih.blockBody_inLine.reads.run (.eof hnone p hline)
  | @seam _ extra s hseam hextra p q r u =>
    have hextra' : extra < b' + 1 := by
      have hs : ending.extra = s.extra := by rw [Ending.extra, hseam]; rfl
      omega
    rw [List.replicate_succ, List.replicate_succ, List.cons_append, List.cons_append,
      blockBody_of_newlines n rfl _ r hextra']
    exact .ok (List.forall_mem_nil _) (.refl _) ⟨.seam hseam (Nat.zero_le _) p q r u, rfl⟩

theorem succ (hextra : b + ending.extra ≤ b') : StmtTracks k low ending (b + 1) (b' + 1) := by
  have hb : b ≤ b' := by omega
  exact {
    stmt := by
      refine ⟨.peek fun t _ => .at_front ?_⟩
      rw [Token.kind_down]
      split
      · exact ih.branchStmt.tracks
      · exact ih.forStmt.tracks
      · exact ih.whileStmt.tracks
      · exact ih.defineStmt.tracks
      · exact ih.attemptStmt.tracks
      · exact simpleLine_tracks hb (by omega)
    branchStmt := by
      refine ⟨fun {n level depth} => .bind .here fun pos hpos => .bind (.expect rfl) fun _ _ => ?_⟩
      refine .bind ((exprTracks False.elim hb).expr.tracks) fun condition hcondition => ?_
      refine .bind ih.block.tracks fun body hbody => ?_
      refine .bind ih.elifBranches.tracks fun rest hrest => ?_
      refine .bind (ih.optionalBlock _ rfl).tracks fun otherwise hotherwise => .pure ?_ ?_
      · rw [Stmt.down, List.map_cons, Branch.down]
      have hall : SoundBranches low n (⟨condition, body⟩ :: rest) :=
        List.forall_mem_cons.2 ⟨⟨hcondition, hbody⟩, hrest⟩
      refine .intro trivial hpos ?_ ?_
      · exact List.forall_mem_map.2 fun x hx => (hall x hx).1
      · exact List.forall_mem_append.2 ⟨List.forall_mem_map.2 fun x hx => (hall x hx).2, hotherwise⟩
    elifBranches := by
      refine ⟨.acceptWord rfl ?_ (.pure rfl (List.forall_mem_nil _))⟩
      refine .bind ((exprTracks False.elim hb).expr.tracks) fun condition hcondition => ?_
      refine .bind ih.block.tracks fun body hbody => ?_
      refine .bind ih.elifBranches.tracks fun rest hrest => ?_
      refine .pure ?_ (List.forall_mem_cons.2 ⟨⟨hcondition, hbody⟩, hrest⟩)
      rw [List.map_cons, Branch.down]
    optionalBlock := fun word hword => by
      refine ⟨.acceptWord hword (.bind ih.block.tracks fun body hbody => .pure ?_ ?_)
        (.pure ?_ ?_)⟩
      · rw [Stmt.downIf_some]
      · exact List.forall_mem_singleton.2 hbody
      · rw [Stmt.downIf_none]
      · exact List.forall_mem_nil _
    forStmt := by
      refine ⟨.bind .here fun pos hpos => .bind (.expect rfl) fun _ _ => ?_⟩
      refine .bind ((loopTarget_inLine hb).1.tracks) fun target htarget => ?_
      refine .bind (.expect rfl) fun _ _ => ?_
      refine .bind ((exprTracks False.elim hb).expr.tracks) fun iterable hiterable => ?_
      refine .bind ih.block.tracks fun body hbody => .pure (by rw [Stmt.down]) ?_
      refine .intro htarget hpos ?_ (List.forall_mem_singleton.2 hbody)
      simp [Stmt.exprs, htarget.exprs_eq_nil, hiterable]
    whileStmt := by
      refine ⟨.bind .here fun pos hpos => .bind (.expect rfl) fun _ _ => ?_⟩
      refine .bind ((exprTracks False.elim hb).expr.tracks) fun condition hcondition => ?_
      refine .bind ih.block.tracks fun body hbody => .pure (by rw [Stmt.down]) ?_
      exact .intro trivial hpos (List.forall_mem_singleton.2 hcondition)
        (List.forall_mem_singleton.2 hbody)
    defineStmt := by
      refine ⟨.bind .here fun pos hpos => .bind (.expect rfl) fun _ _ => ?_⟩
      refine .bind .expectName fun name _ => .bind (.expect rfl) fun _ _ => ?_
      refine .bind ((exprTracks False.elim hb).params _ .nil).tracks fun params h => ?_
      refine .bind (.expect rfl) fun _ _ => ?_
      refine .bind ih.block.tracks fun body hbody => .pure ?_ ?_
      · rw [Stmt.down, id]
      · exact .intro h.toListed hpos h.defaults (List.forall_mem_singleton.2 hbody)
    attemptStmt := ih.attemptStmt_succ
    handlers := fun afterBare => by
      refine ⟨.checkWord rfl (fun t ht => ?_) (.pure rfl .nil)⟩
      refine .ite (fun _ => .failHere) fun hbare => .at_here (.take ht rfl ?_)
      obtain rfl : afterBare = false := eq_false_of_ne_true hbare
      refine .bind (handlerKind_inLine hb).tracks fun kind _ => ?_
      refine .bind handlerBinding_inLine.reads fun binding _ => ?_
      refine .bind ih.block.tracks fun body hbody => ?_
      refine .bind (ih.handlers kind.isNone).tracks fun rest hrest => ?_
      refine .pure ?_ (.cons hbody hrest)
      rw [List.map_cons, Handler.down, id, id]
    block := by
      refine ⟨.bind (.expect rfl) fun _ _ => .acceptNewline (.bind .expectIndent fun _ _ => ?_) ?_⟩
      · exact .bind ih.blockBody.tracks fun body hbody => .blockEnd rfl hbody
      · refine .bind (simpleLine_tracks hb (by omega)) fun only h => ?_
        exact .pure rfl (List.forall_mem_singleton.2 h)
    blockBody := ih.blockBody_succ hextra }

end StmtTracks

/-- A reader of statements tracks itself, also with a larger bound. -/
theorem stmtTracks : ∀ {b b' : Nat}, b + ending.extra ≤ b' → StmtTracks k low ending b b'
  | 0, _, _ => by constructor <;> intros <;> exact ⟨.exhausted (by omega)⟩
  | b + 1, 0, h => by omega
  | b + 1, b' + 1, h =>
    have hextra : b + ending.extra ≤ b' := by omega
    (stmtTracks hextra).succ hextra

end Grammar

end Scripting
