/-
# Programs side by side

A program is read turn by turn, a newline or a statement each time. `Spells` says that
the reading comes to the end of the tokens with nothing wrong, and in how many turns.
That is what it means that the tokens spell a program (`program_eq_ok_iff`).

Where the tokens of a text go on at a seam, its statements are read first, and then
what goes on there (`Spells.abreast`). Every turn takes a token.
-/
import Scripting.Proofs.Grammar.Stmt

namespace Scripting

namespace Grammar

/-- So many turns read tokens to their end, and find these statements and nothing
wrong. -/
inductive Spells (b : Nat) : List Token → List Stmt → Nat → Prop
  | eof {ts : List Token} (h : (Token.front ts).kind = .eof) : Spells b ts [] 0
  | newline {ts : List Token} {p : List Stmt} {n : Nat} (h : (Token.front ts).kind = .newline)
      (more : Spells b (Token.behind ts) p n) : Spells b ts p (n + 1)
  | statement {ts rest : List Token} {s : Stmt} {p : List Stmt} {n : Nat}
      (h : (Token.front ts).kind.isSolid = true) (hs : stmt b .top ts = .ok s rest)
      (more : Spells b rest p n) : Spells b ts (s :: p) (n + 1)

variable {b b' : Nat} {ts : List Token}

/-! ### What a program is -/

theorem turn_of_isSolid (h : (Token.front ts).kind.isSolid = true) (afterError : Bool) :
    turn b afterError ts = match stmt b .top ts with
      | .ok s rest => (.statement s, rest)
      | .error d rest => (.wrong d, skipLine rest)
      | .exhausted => (.exhausted, []) := by
  unfold turn
  dsimp only
  split
  next hkind => rw [hkind] at h; cases h
  next hkind => rw [hkind] at h; cases h
  next hkind => rw [hkind] at h; cases h
  · rfl

theorem programFrom_succ (hkind : (Token.front ts).kind ≠ .eof) (turns : Nat) (stmts : Array Stmt)
    (wrong : Array Diagnostic) : programFrom b (turns + 1) ts stmts wrong =
      match turn b (!wrong.isEmpty) ts with
      | (.nothing, rest) => programFrom b turns rest stmts wrong
      | (.statement s, rest) => programFrom b turns rest (stmts.push s) wrong
      | (.wrong d, rest) => programFrom b turns rest stmts (wrong.push d)
      | (.exhausted, _) => none := by
  rw [programFrom]
  split
  next h => exact absurd h hkind
  · rfl

theorem programFrom_of_eof (hkind : (Token.front ts).kind = .eof) (turns : Nat)
    (stmts : Array Stmt) (wrong : Array Diagnostic) :
    programFrom b (turns + 1) ts stmts wrong = some (stmts, wrong) := by
  rw [programFrom, hkind]

theorem programFrom_size_le {out : Array Stmt} {final : Array Diagnostic} :
    ∀ {turns : Nat} {ts : List Token} {stmts : Array Stmt} {wrong : Array Diagnostic},
    programFrom b turns ts stmts wrong = some (out, final) → wrong.size ≤ final.size
  | 0, _, _, _, h => by cases h
  | turns + 1, ts, stmts, wrong, h => by
    by_cases hkind : (Token.front ts).kind = .eof
    · rw [programFrom_of_eof hkind] at h
      cases h
      exact Nat.le_refl _
    rw [programFrom_succ hkind] at h
    split at h
    · exact programFrom_size_le h
    · exact programFrom_size_le h
    · have hle := programFrom_size_le h
      rw [Array.size_push] at hle
      exact Nat.le_of_succ_le hle
    · cases h

theorem programFrom_of_spells {p : List Stmt} {n : Nat} (h : Spells b ts p n) {turns : Nat}
    (hturns : n < turns) (stmts : Array Stmt) :
    programFrom b turns ts stmts #[] = some (stmts ++ p.toArray, #[]) := by
  induction h generalizing turns stmts with
  | eof hkind =>
    obtain ⟨turns, rfl⟩ := Nat.exists_eq_succ_of_ne_zero (Nat.ne_of_gt hturns)
    rw [programFrom_of_eof hkind]
    simp
  | newline hkind more ih =>
    obtain ⟨turns, rfl⟩ := Nat.exists_eq_succ_of_ne_zero (Nat.ne_zero_of_lt hturns)
    rw [programFrom_succ (by rw [hkind]; nofun), turn, hkind]
    exact ih (Nat.lt_of_succ_lt_succ hturns) stmts
  | @statement ts rest s p n hsolid hs more ih =>
    obtain ⟨turns, rfl⟩ := Nat.exists_eq_succ_of_ne_zero (Nat.ne_zero_of_lt hturns)
    rw [programFrom_succ (fun hkind => by rw [hkind] at hsolid; cases hsolid),
      turn_of_isSolid hsolid, hs]
    dsimp only
    rw [ih (Nat.lt_of_succ_lt_succ hturns)]
    simp

theorem spells_of_programFrom {out : Array Stmt} : ∀ {turns : Nat} {ts : List Token}
    {stmts : Array Stmt}, programFrom b turns ts stmts #[] = some (out, #[]) →
    ∃ p n, Spells b ts p n ∧ n < turns ∧ out = stmts ++ p.toArray
  | 0, _, _, h => by cases h
  | turns + 1, ts, stmts, h => by
    have hwrong {d : Diagnostic} {rest : List Token} :
        programFrom b turns rest stmts (#[].push d) ≠ some (out, #[]) := fun h => by
      have hle := programFrom_size_le h
      simp at hle
    by_cases hsolid : (Token.front ts).kind.isSolid = true
    · rw [programFrom_succ (fun hkind => by rw [hkind] at hsolid; cases hsolid),
        turn_of_isSolid hsolid] at h
      cases hs : stmt b .top ts with
      | ok s rest =>
        rw [hs] at h
        obtain ⟨p, n, hp, hn, rfl⟩ := spells_of_programFrom h
        exact ⟨s :: p, n + 1, .statement hsolid hs hp, Nat.succ_lt_succ hn, by simp⟩
      | error d rest => rw [hs] at h; exact absurd h hwrong
      | exhausted => rw [hs] at h; cases h
    cases hkind : (Token.front ts).kind with
    | eof =>
      rw [programFrom_of_eof hkind] at h
      cases h
      exact ⟨[], 0, .eof hkind, Nat.succ_pos turns, by simp⟩
    | newline =>
      rw [programFrom_succ (by rw [hkind]; nofun), turn, hkind] at h
      obtain ⟨p, n, hp, hn, rfl⟩ := spells_of_programFrom h
      exact ⟨p, n + 1, .newline hkind hp, Nat.succ_lt_succ hn, rfl⟩
    | indent =>
      rw [programFrom_succ (by rw [hkind]; nofun), turn, hkind] at h
      exact absurd h hwrong
    | dedent =>
      rw [programFrom_succ (by rw [hkind]; nofun), turn, hkind] at h
      exact absurd h hwrong
    | _ => rw [hkind] at hsolid; exact absurd rfl hsolid

/-- Tokens spell a program if reading them comes to their end with nothing wrong. -/
theorem program_eq_ok_iff {p : Program} :
    program ts = .ok p ↔ ∃ n, n ≤ ts.length ∧ Spells (bound ts) ts p n := by
  unfold program
  constructor
  · intro h
    split at h
    next stmts wrong hrun =>
      split at h
      next hwrong =>
        cases h
        rw [Array.isEmpty_iff] at hwrong
        subst hwrong
        obtain ⟨p, n, hp, hn, rfl⟩ := spells_of_programFrom hrun
        exact ⟨n, Nat.le_of_lt_succ hn, by simpa using hp⟩
      · cases h
    · cases h
  · rintro ⟨n, hn, h⟩
    rw [programFrom_of_spells h (Nat.lt_succ_of_le hn)]
    simp

theorem Spells.unique {p q : List Stmt} {n m : Nat} (h : Spells b ts p n) (h' : Spells b ts q m) :
    p = q := by
  have hp := programFrom_of_spells h (Nat.lt_succ_of_le (Nat.le_max_left n m)) #[]
  have hq := programFrom_of_spells h' (Nat.lt_succ_of_le (Nat.le_max_right n m)) #[]
  rw [hp] at hq
  simpa using hq

/-! ### What a program begins with -/

/-- A reader does not succeed on some tokens. -/
def Refuses {α : Type} (p : Parse α) (ts : List Token) : Prop := ∀ v rest, p ts ≠ .ok v rest

theorem Refuses.bind {α β : Type} {p : Parse α} (h : Refuses p ts) (next : α → Parse β) :
    Refuses (p >>= next) ts := by
  intro v rest hrun
  obtain ⟨a, mid, ha, -⟩ := Parse.bind_eq_ok hrun
  exact h a mid ha

/-- No expression begins with a word that goes on with a statement. -/
structure ExprRefuses (b : Nat) (ts : List Token) : Prop where
  chain : ∀ l, Refuses (Grammar.chain b l) ts
  operand : ∀ l, Refuses (Grammar.operand b l) ts
  negation : Refuses (Grammar.negation b) ts
  signed : Refuses (Grammar.signed b) ts
  power : Refuses (Grammar.power b) ts
  applied : Refuses (Grammar.applied b) ts
  primary : Refuses (Grammar.primary b) ts

theorem eq_of_continuesStmt {w : Word} (h : (Token.Kind.word w).continuesStmt = true) :
    w = .elif_ ∨ w = .else_ ∨ w = .except_ ∨ w = .finally_ := by
  cases w <;> first | cases h; done | simp

section Front

variable {w : Word} (hfront : (Token.front ts).kind = .word w)
  (hw : (Token.Kind.word w).continuesStmt = true)
include hfront hw

theorem same_of_continuesStmt {kind : Token.Kind} (hkind : kind.continuesStmt = false) :
    (Token.front ts).kind.same kind = false := by
  rw [hfront]
  exact Token.Kind.same_eq_false hw hkind

theorem primary_refuses (b : Nat) : Refuses (primary b) ts := by
  cases b with
  | zero => nofun
  | succ b =>
    intro v rest hrun
    rw [primary, Parse.bind_peek] at hrun
    dsimp only at hrun
    rw [hfront] at hrun
    rcases eq_of_continuesStmt hw with rfl | rfl | rfl | rfl <;> cases hrun

theorem exprRefuses : ∀ b : Nat, ExprRefuses b ts
  | 0 => by constructor <;> nofun
  | b + 1 => by
    have ih := exprRefuses b
    refine ⟨fun l => ?_, fun l => ?_, ?_, ?_, ?_, ?_, primary_refuses hfront hw (b + 1)⟩
    · exact (ih.operand l).bind _
    · cases l with
      | or => exact ih.chain .and
      | and => exact ih.negation
      | comparison => exact ih.chain .sum
      | sum => exact ih.chain .product
      | product => exact ih.signed
    · intro v rest
      rw [negation, Parse.bind_here, Parse.bind_accept_of_not_same (same_of_continuesStmt hfront hw rfl)]
      exact ih.chain .comparison v rest
    · intro v rest
      rw [signed, Parse.bind_here,
        Parse.bind_accept_of_not_same (same_of_continuesStmt hfront hw rfl),
        if_neg Bool.false_ne_true,
        Parse.bind_accept_of_not_same (same_of_continuesStmt hfront hw rfl)]
      exact ih.power v rest
    · exact ih.applied.bind _
    · exact ih.primary.bind _

theorem stmt_refuses (b : Nat) (nesting : Nesting) : Refuses (stmt b nesting) ts := by
  have hexpr (b : Nat) : Refuses (expr b) ts := by
    match b with
    | 0 => nofun
    | 1 =>
      intro v rest
      rw [expr, Parse.bind_check, same_of_continuesStmt hfront hw rfl]
      nofun
    | b + 2 =>
      intro v rest
      rw [expr, Parse.bind_check, same_of_continuesStmt hfront hw rfl]
      exact ((exprRefuses hfront hw b).chain .or).bind _ v rest
  have hassign (b : Nat) : Refuses (exprOrAssign b) ts := fun v rest =>
    Refuses.bind ((hexpr b).bind _) _ v rest
  have hsimple (b : Nat) : Refuses (simpleLine b nesting) ts := by
    refine Refuses.bind (p := simpleStmt b nesting) (fun v rest => ?_) _
    rw [simpleStmt, Parse.bind_peek, hfront]
    rcases eq_of_continuesStmt hw with rfl | rfl | rfl | rfl <;> exact hassign b v rest
  cases b with
  | zero => nofun
  | succ b =>
    intro v rest
    rw [stmt, Parse.bind_peek, hfront]
    rcases eq_of_continuesStmt hw with rfl | rfl | rfl | rfl <;> exact hsimple b v rest

end Front

/-- A program begins with no word that goes on with a statement, and not with an
indented line. -/
theorem Spells.front {p : List Stmt} {n : Nat} (h : Spells b ts p n) :
    (Token.front ts).kind.continuesStmt = false ∧ (Token.front ts).kind ≠ .indent := by
  cases h with
  | eof hkind => rw [hkind]; exact ⟨rfl, nofun⟩
  | newline hkind more => rw [hkind]; exact ⟨rfl, nofun⟩
  | statement hsolid hs more =>
    refine ⟨?_, fun hkind => by rw [hkind] at hsolid; cases hsolid⟩
    cases hkind : (Token.front ts).kind with
    | word w =>
      cases hw : (Token.Kind.word w).continuesStmt with
      | false => rfl
      | true => exact absurd hs (stmt_refuses hkind hw b .top _ _)
    | _ => rfl

/-! ### Side by side -/

namespace Spells

variable {k low : Nat} {ending : Ending} {p q : List Stmt} {n m : Nat}

/-- Where the tokens of a program go on, they are read first and then what goes on. Its
statements are sound. -/
theorem abreast (h : Spells b ts p n) {ts' : List Token} {depth : Nat}
    (hR : Abreast k low ending false 0 depth ts ts') (hb : b + ending.extra ≤ b')
    (hq : ∀ {left left' : List Token}, Abreast k low ending false 0 ending.depth left left' →
      (Token.front left).kind = .eof → ∃ i ≤ m, Spells b' left' q i) :
    (∀ s ∈ p, s.Sound low .top) ∧ depth = ending.depth ∧ n < ts.length ∧
      ∃ i ≤ n + m, Spells b' ts' (p.map (Stmt.down k) ++ q) i := by
  induction h generalizing ts' with
  | @eof ts hkind =>
    have hdepth : depth = ending.depth := by
      cases hR with
      | token hne => exact absurd hkind hne.1
      | eof => rfl
      | seam => rfl
    subst hdepth
    obtain ⟨i, hi, hleft⟩ := hq hR hkind
    exact ⟨nofun, rfl, List.length_pos_iff.2 hR.ne_nil.1, i, by omega, hleft⟩
  | newline hkind more ih =>
    cases hR with
    | @token _ _ _ t ts ts' hne _ rest =>
      have ht : t.kind = .newline := hkind
      obtain ⟨hts, hts'⟩ := rest.ne_nil
      rw [Token.behind_cons hts] at ih more
      rw [ht] at rest
      obtain ⟨hsound, hdepth, hn, i, hi, hleft⟩ := ih rest
      refine ⟨hsound, hdepth, Nat.succ_lt_succ hn, i + 1, by omega, .newline ht ?_⟩
      rwa [Token.behind_cons hts']
    | eof => cases hkind
    | seam => cases hkind
  | @statement ts rest s p n hsolid hs more ih =>
    have hline := hR.inLine_of_isSolid hsolid
    obtain ⟨hfirst, hleaves, rest', hs', hrest⟩ := (stmtTracks hb).stmt.reads.ok hline hs
    obtain ⟨hsound, hdepth, hn, i, hi, hleft⟩ := ih hrest
    have hlt := hleaves.length_lt (by decide)
    refine ⟨List.forall_mem_cons.2 ⟨hfirst, hsound⟩, hdepth, by omega, i + 1, by omega,
      .statement ?_ hs' hleft⟩
    rwa [hline.front_eq, Token.kind_down]

theorem newlines (h : Spells b ts q m) (hts : ts ≠ []) (r : Position) :
    ∀ extra : Nat, Spells b (List.replicate extra ⟨.newline, r⟩ ++ ts) q (extra + m)
  | 0 => by simpa using h
  | extra + 1 => by
    rw [List.replicate_succ, List.cons_append, Nat.succ_add]
    refine .newline rfl ?_
    rw [Token.behind_cons (by simp [hts])]
    exact newlines h hts r extra

theorem located {body : List Token} {pos : Position} (h : Spells b (body ++ [⟨.eof, pos⟩]) p n)
    (hbody : ∀ t ∈ body, t.kind ≠ .eof)
    (hline : ∀ t ∈ body ++ [(⟨.eof, pos⟩ : Token)], low ≤ t.pos.line) (hb : b ≤ b') (k : Nat) :
    (∀ s ∈ p, s.Sound low .top) ∧
      body.foldl (fun depth t => t.kind.depthBehind depth) 0 = 0 ∧ n ≤ body.length ∧
      ∃ i ≤ n, Spells b' ((body ++ [(⟨.eof, pos⟩ : Token)]).map (Token.down k))
        (p.map (Stmt.down k)) i := by
  have hR := Abreast.whole k body pos false 0 0 False.elim hbody hline
  obtain ⟨hsound, hdepth, hn, hleft⟩ := h.abreast (q := []) (m := 0) hR hb fun hR hkind => by
    refine ⟨0, Nat.le_refl 0, .eof ?_⟩
    cases hR with
    | token hne => exact absurd hkind hne.1
    | eof => rfl
    | seam hseam => cases hseam
  rw [List.append_nil] at hleft
  rw [List.length_append, List.length_singleton] at hn
  exact ⟨hsound, hdepth.symm, Nat.le_of_lt_succ hn, hleft⟩

theorem whole {body : List Token} {pos : Position} (h : Spells b (body ++ [⟨.eof, pos⟩]) p n)
    (hbody : ∀ t ∈ body, t.kind ≠ .eof) (hb : b ≤ b') (k : Nat) :
    body.foldl (fun depth t => t.kind.depthBehind depth) 0 = 0 ∧ n ≤ body.length ∧
      ∃ i ≤ n, Spells b' ((body ++ [(⟨.eof, pos⟩ : Token)]).map (Token.down k))
        (p.map (Stmt.down k)) i :=
  (h.located hbody (fun _ _ => Nat.zero_le _) hb k).2

theorem seam (h : Spells b ts p n) {ts' : List Token} {depth : Nat} {s : Seam}
    (hR : Abreast k low ending false 0 depth ts ts') (hseam : ending.seam = some s)
    (hb : b + s.extra ≤ b') (htail : Spells b' s.tail q m) :
    n < ts.length ∧ ∃ i ≤ n + (s.extra + m), Spells b' ts' (p.map (Stmt.down k) ++ q) i := by
  have hextra : ending.extra = s.extra := by rw [Ending.extra, hseam]; rfl
  refine (h.abreast hR (hextra ▸ hb) fun hR hkind => ?_).2.2
  cases hR with
  | token hne => exact absurd hkind hne.1
  | eof hnone => rw [hnone] at hseam; cases hseam
  | @seam _ extra s' hseam' hle _ _ r =>
    rw [hseam'] at hseam
    cases hseam
    exact ⟨extra + m, by omega, newlines htail s.nonempty r extra⟩

end Spells

end Grammar

end Scripting
