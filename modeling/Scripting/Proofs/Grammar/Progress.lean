/-
# Reading a program moves on

A program is read turn by turn, and behind an error with the next line. On the tokens of a
text every turn moves on by itself and stays among the tokens (`turn_advances`): a statement
takes a token, and so does the rest of a line behind an error (`skipLine`). There are as many
turns as tokens, and the bound is enough for what the tokens demand (`demands_add_le_bound`),
so the reading comes to its end.

The tokens of a text end a block only where one is open (`tokenizeAt_leveled`). As long as
nothing is wrong a turn begins outside every block, and so it never meets the end of one
(`Reached.outside`).
-/
import Scripting.Proofs.Grammar.Program
import Scripting.Proofs.Token.Indentation

namespace Scripting

/-! ### Tokens of a text -/

/-- Where no more blocks end than were opened, blocks end only where one is open. -/
theorem leveled_of_covered : ∀ {ts : List Token} {level : Nat},
    (∀ pre, pre <+: ts → dedents pre ≤ indents pre + level) → Leveled level ts
  | [], _, _ => trivial
  | t :: ts, level, h => by
    have hfirst := h [t] ⟨ts, rfl⟩
    have hmore (pre : List Token) (hpre : pre <+: ts) :=
      h (t :: pre) ((List.prefix_append_right_inj [t]).2 hpre)
    obtain ⟨kind, p⟩ := t
    simp only [dedents, indents, List.countP_cons, List.countP_nil] at hfirst hmore
    refine ⟨fun hkind => ?_, leveled_of_covered fun pre hpre => ?_⟩
    · have hdedent : kind = .dedent := hkind
      simp [hdedent, Token.Kind.isDedent, Token.Kind.isIndent] at hfirst
      omega
    have hpre := hmore pre hpre
    cases kind <;>
      simp only [Token.Kind.isDedent, Token.Kind.isIndent, Token.Kind.levelBehind, dedents,
        indents, if_true, if_false, Bool.false_eq_true] at hpre hfirst ⊢ <;> omega

theorem tokenizeAt_leveled {pos : Position} {text : List Char} {ts : List Token}
    (h : tokenizeAt pos text = .ok ts) :
    ∃ body p, ts = body ++ [⟨.eof, p⟩] ∧ (∀ t ∈ body, t.kind ≠ .eof) ∧ Leveled 0 body := by
  obtain ⟨body, p, hbody, hkind⟩ := tokenizeAt_eof h
  obtain ⟨found, final, hfinds, -, rfl⟩ := tokenizeAt_ok_iff.1 h
  have hbalanced := (hfinds.balanced rfl (lexemes_sound text)).append (closing_balanced final found)
  refine ⟨body, p, hbody, hkind, leveled_of_covered fun pre hpre => ?_⟩
  rw [hbody] at hbalanced
  exact hbalanced.covered pre (hpre.trans (List.prefix_append body _))

theorem Abreast.of_suffix {k low level depth : Nat} {ending : Ending} {inLine : Bool}
    {ts ts' us : List Token} (h : Abreast k low ending inLine level depth ts ts')
    (hseam : ending.seam = none) (hsuffix : us <:+ ts) (hus : us ≠ []) :
    ∃ level depth us', Abreast k low ending true level depth us us' := by
  induction h with
  | token hkind hline rest ih =>
    rcases List.suffix_cons_iff.1 hsuffix with rfl | hsuffix
    · exact ⟨_, _, _, .token hkind hline rest⟩
    · exact ih hsuffix
  | eof hnone p hline =>
    rcases List.suffix_cons_iff.1 hsuffix with rfl | hsuffix
    · exact ⟨0, _, _, .eof hnone p hline⟩
    · exact absurd (List.suffix_nil.1 hsuffix) hus
  | seam hsome => rw [hseam] at hsome; cases hsome

namespace Grammar

variable {b : Nat} {ts us rest : List Token} {wrong : Array Diagnostic}

theorem demands_add_le_bound : ∀ ts : List Token, demands Token.demand ts + 64 ≤ bound ts
  | [] => Nat.le_refl 64
  | t :: ts => by
    have ih := demands_add_le_bound ts
    have ht : t.demand ≤ t.weight := by
      have hweight := t.le_weight
      unfold Token.demand
      split
      next text hkind =>
        rw [Token.weight, hkind]
        dsimp only
        omega
      · omega
      · split <;> omega
    rw [demands, bound_cons]
    omega

/-! ### One turn -/

/-- What is left is the end of some tokens and less than all of them. The last token of all is
left in any case. -/
structure Advances (us rest : List Token) : Prop where
  suffix : rest <:+ us
  nonempty : rest ≠ []
  shorter : rest.length < us.length

/-- How a reading with a bound ends that moves on: if it succeeds, it has taken a token. If it
fails, it has come to one of its tokens. It gives up only with less than the bound for them. -/
def Moves {α : Type} (b : Nat) (us : List Token) : Parsed α → Prop
  | .ok _ rest => Advances us rest
  | .error _ rest => rest <:+ us ∧ rest ≠ []
  | .exhausted => b < bound us

theorem moves_of_readAlike {α : Type} {strict : Prop} {need : Nat}
    {R' : List Token → List Token → Prop} {f : α → α} {Q : α → Prop} {found found' : Parsed α}
    (h : ReadAlike strict b need 32 R' f Q us found found') (hus : us ≠ []) (hneed : need ≤ 64) :
    Moves b us found := by
  cases h with
  | ok _ hleaves _ =>
    exact ⟨hleaves.suffix, hleaves.nonempty hus, hleaves.length_lt (by decide)⟩
  | error hleaves _ => exact ⟨hleaves.suffix, hleaves.nonempty hus⟩
  | exhausted hless =>
    have hle := demands_add_le_bound us
    exact Nat.lt_of_lt_of_le hless (by omega)

theorem skipLine_inside : ∀ ts : List Token, skipLine ts <:+ ts ∧ (ts ≠ [] → skipLine ts ≠ [])
  | [] | [_] => ⟨List.suffix_rfl, id⟩
  | t :: u :: rest => by
    have hrest := skipLine_inside (u :: rest)
    have hne := List.cons_ne_nil u rest
    rw [skipLine]
    split
    · exact ⟨List.suffix_cons t _, fun _ => hne⟩
    · exact ⟨List.suffix_rfl, id⟩
    · exact ⟨hrest.1.trans (List.suffix_cons t _), fun _ => hrest.2 hne⟩

theorem skipLine_shorter {t u : Token} (h : t.kind ≠ .eof) (rest : List Token) :
    (skipLine (t :: u :: rest)).length < (t :: u :: rest).length := by
  rw [skipLine]
  split
  · exact Nat.lt_succ_self _
  · exact absurd ‹t.kind = .eof› h
  · exact Nat.lt_succ_of_le (skipLine_inside (u :: rest)).1.length_le

theorem turn_of_not_isSolid {afterError : Bool} (hkind : (Token.front us).kind ≠ .eof)
    (hsolid : (Token.front us).kind.isSolid ≠ true) :
    ∃ found, found ≠ .exhausted ∧ turn b afterError us = (found, Token.behind us) := by
  unfold turn
  dsimp only
  cases hfront : (Token.front us).kind with
  | newline => exact ⟨.nothing, by simp, rfl⟩
  | indent => exact ⟨.wrong _, by simp, rfl⟩
  | dedent =>
    cases afterError with
    | false => exact ⟨.wrong _, by simp, rfl⟩
    | true => exact ⟨.nothing, by simp, rfl⟩
  | eof => exact absurd hfront hkind
  | _ => rw [hfront] at hsolid; exact absurd rfl hsolid

theorem stmtTracks_self (b : Nat) {k low : Nat} {ending : Ending} (hseam : ending.seam = none) :
    StmtTracks k low ending b b :=
  stmtTracks (by rw [Ending.extra, hseam]; exact Nat.le_refl b)

section Turn

variable {ending : Ending} {level depth : Nat} {us' : List Token} {found : Found}
  {afterError : Bool} (hR : Abreast 0 0 ending true level depth us us')
include hR

theorem advances_behind (hkind : (Token.front us).kind ≠ .eof) : Advances us (Token.behind us) := by
  have hleaves := hR.leaves hkind
  refine ⟨hleaves.suffix, hleaves.nonempty hR.ne_nil.1, ?_⟩
  cases hR with
  | token _ _ rest =>
    rw [Token.behind_cons rest.ne_nil.1]
    exact Nat.lt_succ_self _
  | eof => exact absurd rfl hkind

theorem advances_skipLine (hkind : (Token.front us).kind ≠ .eof) (hsuffix : rest <:+ us)
    (hrest : rest ≠ []) : Advances us (skipLine rest) := by
  have hinside := skipLine_inside rest
  refine ⟨hinside.1.trans hsuffix, hinside.2 hrest, ?_⟩
  by_cases heq : rest = us
  · subst heq
    cases hR with
    | @token _ _ _ t ts _ _ _ more =>
      obtain ⟨u, ts, rfl⟩ := List.exists_cons_of_ne_nil more.ne_nil.1
      exact skipLine_shorter hkind ts
    | eof => exact absurd rfl hkind
  have hle := hinside.1.length_le
  have hlt : rest.length < us.length :=
    Nat.lt_of_le_of_ne hsuffix.length_le fun hlength => heq (hsuffix.eq_of_length hlength)
  omega

/-- With enough of a bound every turn moves on. -/
theorem turn_advances (hseam : ending.seam = none) (hb : bound us ≤ b)
    (hkind : (Token.front us).kind ≠ .eof) (hturn : turn b afterError us = (found, rest)) :
    found ≠ .exhausted ∧ Advances us rest := by
  by_cases hsolid : (Token.front us).kind.isSolid = true
  · have halike := ((stmtTracks_self b hseam).stmt.reads (n := .top)).run hR
    have hmoves := moves_of_readAlike halike hR.ne_nil.1 (by decide)
    rw [turn_of_isSolid hsolid] at hturn
    cases hs : stmt b .top us with
    | ok s left =>
      rw [hs] at hturn hmoves
      cases hturn
      exact ⟨by simp, hmoves⟩
    | error d left =>
      rw [hs] at hturn hmoves
      cases hturn
      exact ⟨by simp, advances_skipLine hR hkind hmoves.1 hmoves.2⟩
    | exhausted =>
      rw [hs] at hmoves
      exact absurd hb (Nat.not_le_of_lt hmoves)
  obtain ⟨found', hfound, hbehind⟩ := turn_of_not_isSolid hkind hsolid
  rw [hbehind] at hturn
  cases hturn
  exact ⟨hfound, advances_behind hR hkind⟩

end Turn

/-! ### All turns -/

def Found.record (found : Found) (wrong : Array Diagnostic) : Array Diagnostic :=
  match found with
  | .wrong d => wrong.push d
  | _ => wrong

/-- The tokens to come, and what is wrong so far, where a turn of reading a program begins or
the reading ends. -/
inductive Reached (b : Nat) (ts : List Token) : List Token → Array Diagnostic → Prop
  | start : Reached b ts ts #[]
  | turn {us rest : List Token} {wrong : Array Diagnostic} {found : Found}
      (h : Reached b ts us wrong) (hkind : (Token.front us).kind ≠ .eof)
      (hturn : turn b (!wrong.isEmpty) us = (found, rest)) : Reached b ts rest (found.record wrong)

section Whole

variable {ending : Ending} {depth : Nat} {ts' : List Token}
  (hR : Abreast 0 0 ending false 0 depth ts ts') (hseam : ending.seam = none)
include hR hseam

theorem turn_advances_of_suffix (hb : bound ts ≤ b) {found : Found}
    {afterError : Bool} (hsuffix : us <:+ ts) (hus : us ≠ []) (hkind : (Token.front us).kind ≠ .eof)
    (hturn : turn b afterError us = (found, rest)) : found ≠ .exhausted ∧ Advances us rest := by
  obtain ⟨level, depth, us', hR'⟩ := hR.of_suffix hseam hsuffix hus
  obtain ⟨pre, rfl⟩ := hsuffix
  have hbound := bound_append us pre
  have hpre := le_bound pre
  exact turn_advances hR' hseam (by omega) hkind hturn

theorem Reached.inside (hb : bound ts ≤ b) (h : Reached b ts us wrong) :
    us <:+ ts ∧ us ≠ [] := by
  induction h with
  | start => exact ⟨List.suffix_rfl, hR.ne_nil.1⟩
  | turn _ hkind hturn ih =>
    obtain ⟨-, hadvances⟩ := turn_advances_of_suffix hR hseam hb ih.1 ih.2 hkind hturn
    exact ⟨hadvances.suffix.trans ih.1, hadvances.nonempty⟩

/-- As many turns as there are tokens come to the end. -/
theorem programFrom_ends (hb : bound ts ≤ b) : ∀ {turns : Nat} {us : List Token},
    us <:+ ts → us ≠ [] → us.length < turns → ∀ (stmts : Array Stmt) (wrong : Array Diagnostic),
    ∃ found, programFrom b turns us stmts wrong = some found
  | turns + 1, us, hsuffix, hus, hlength, stmts, wrong => by
    by_cases hkind : (Token.front us).kind = .eof
    · exact ⟨_, programFrom_of_eof hkind turns stmts wrong⟩
    rw [programFrom_succ hkind]
    rcases hturn : turn b (!wrong.isEmpty) us with ⟨found, rest⟩
    obtain ⟨hfound, hadvances⟩ := turn_advances_of_suffix hR hseam hb hsuffix hus hkind hturn
    have hlength' : rest.length < turns :=
      Nat.lt_of_lt_of_le hadvances.shorter (Nat.le_of_lt_succ hlength)
    have ih := programFrom_ends hb (hadvances.suffix.trans hsuffix) hadvances.nonempty hlength'
    cases found with
    | nothing => exact ih stmts wrong
    | statement s => exact ih (stmts.push s) wrong
    | wrong d => exact ih stmts (wrong.push d)
    | exhausted => exact absurd rfl hfound

/-- A turn that finds nothing wrong outside every block ends outside every block. -/
theorem turn_outside (hkind : (Token.front ts).kind ≠ .eof) {found : Found}
    (hturn : turn b false ts = (found, rest)) (hfound : found ≠ .exhausted)
    (hright : ∀ d, found ≠ .wrong d) :
    ∃ depth rest', Abreast 0 0 ending false 0 depth rest rest' := by
  have hline := hR.inLine_of_not_seam hseam
  by_cases hsolid : (Token.front ts).kind.isSolid = true
  · rw [turn_of_isSolid hsolid] at hturn
    cases hs : stmt b .top ts with
    | ok s left =>
      obtain ⟨-, -, left', -, hleft⟩ := (stmtTracks_self b hseam).stmt.reads.ok hline hs
      rw [hs] at hturn
      cases hturn
      exact ⟨_, left', hleft⟩
    | error d left => rw [hs] at hturn; cases hturn; exact absurd rfl (hright d)
    | exhausted => rw [hs] at hturn; cases hturn; exact absurd rfl hfound
  have hbehind := hline.behind_of_ne_eof hkind
  unfold turn at hturn
  dsimp only at hturn
  cases hfront : (Token.front ts).kind with
  | newline =>
    rw [hfront] at hturn hbehind
    cases hturn
    exact ⟨_, _, hbehind⟩
  | indent => rw [hfront] at hturn; cases hturn; exact absurd rfl (hright _)
  | dedent => rw [hfront] at hturn; cases hturn; exact absurd rfl (hright _)
  | eof => exact absurd hfront hkind
  | _ => rw [hfront] at hsolid; exact absurd rfl hsolid

/-- As long as nothing is wrong, a turn begins outside every block. -/
theorem Reached.outside (hb : bound ts ≤ b) (h : Reached b ts us wrong) :
    wrong = #[] → ∃ depth us', Abreast 0 0 ending false 0 depth us us' := by
  induction h with
  | start => exact fun _ => ⟨depth, ts', hR⟩
  | @turn us rest wrong found hreached hkind hturn ih =>
    intro hnone
    obtain ⟨hright, rfl⟩ : (∀ d, found ≠ .wrong d) ∧ wrong = #[] := by
      cases found with
      | wrong d => exact absurd hnone Array.push_ne_empty
      | _ => exact ⟨by simp, hnone⟩
    obtain ⟨depth, us', hus⟩ := ih rfl
    obtain ⟨hsuffix, hne⟩ := hreached.inside hR hseam hb
    have hfound := (turn_advances_of_suffix hR hseam hb hsuffix hne hkind hturn).1
    exact turn_outside hus hseam hkind hturn hfound hright

end Whole

/-- **Reading the tokens of a text always moves on**, be it a script or a field of an f-string. The
reading of a program comes to an end. An expression and a statement, wherever they begin, take a
token and leave the end of the input, and with enough of a bound their reading does not give up.
So it is with every turn of the reading of a program, wherever it begins; and it does not begin at
the end of a block unless something is wrong already, and then it takes it and says nothing. -/
theorem reading_advances {pos : Position} {text : List Char} {ts : List Token}
    (h : tokenizeAt pos text = .ok ts) :
    (∃ found, programFrom (bound ts) (ts.length + 1) ts #[] #[] = some found) ∧
    (∀ us, us <:+ ts → us ≠ [] → ∀ (b : Nat) (n : Nesting),
      Moves b us (expr b us) ∧ Moves b us (simpleStmt b n us) ∧ Moves b us (stmt b n us)) ∧
    ∀ us wrong, Reached (bound ts) ts us wrong →
      us <:+ ts ∧ us ≠ [] ∧
      ((Token.front us).kind ≠ .eof → ∀ found rest,
        turn (bound ts) (!wrong.isEmpty) us = (found, rest) →
          found ≠ .exhausted ∧ Advances us rest) ∧
      ((Token.front us).kind = .dedent → wrong ≠ #[] ∧
        turn (bound ts) (!wrong.isEmpty) us = (.nothing, Token.behind us)) := by
  obtain ⟨body, p, rfl, hkinds, hleveled⟩ := tokenizeAt_leveled h
  have hR := Abreast.whole 0 body p false 0 0 (fun _ : True => hleveled) hkinds
    fun _ _ => Nat.zero_le _
  have hb := Nat.le_refl (bound (body ++ [⟨.eof, p⟩]))
  refine ⟨?_, fun us hsuffix hus b n => ?_, fun us wrong hreached => ?_⟩
  · exact programFrom_ends hR rfl hb List.suffix_rfl hR.ne_nil.1 (Nat.lt_succ_self _) #[] #[]
  · obtain ⟨level, depth, us', hR'⟩ := hR.of_suffix rfl hsuffix hus
    have hexpr := (exprTracks False.elim (Nat.le_refl b)).expr.reads.run hR'
    have hsimple := (simpleStmt_inLine (Nat.le_refl b) n).reads.run hR'
    have hstmt := ((stmtTracks_self b rfl).stmt.reads (n := n)).run hR'
    exact ⟨moves_of_readAlike hexpr hus (by decide), moves_of_readAlike hsimple hus (by decide),
      moves_of_readAlike hstmt hus (by decide)⟩
  obtain ⟨hsuffix, hus⟩ := hreached.inside hR rfl hb
  refine ⟨hsuffix, hus, fun hkind found rest hturn => ?_, fun hkind => ?_⟩
  · exact turn_advances_of_suffix hR rfl hb hsuffix hus hkind hturn
  have hwrong : wrong ≠ #[] := by
    intro hnone
    obtain ⟨depth, us', hus'⟩ := hreached.outside hR rfl hb hnone
    cases hus' with
    | token hallows => exact absurd (hallows.2 trivial hkind) (Nat.lt_irrefl 0)
    | eof => cases hkind
    | seam hseam => cases hseam
  refine ⟨hwrong, ?_⟩
  rw [turn, hkind]
  simp [hwrong]

/-- A block with an error in it, whose end is left over. -/
def Sample.brokenBlock : String := "if x:\n  )\n  y\nz\n"

theorem reading_advances_broken_block : ∃ ts us wrong, tokenize Sample.brokenBlock = .ok ts ∧
    Reached (bound ts) ts us wrong ∧ (Token.front us).kind = .dedent ∧ us <:+ ts ∧ us ≠ [] ∧
    wrong ≠ #[] ∧ turn (bound ts) (!wrong.isEmpty) us = (.nothing, Token.behind us) ∧
    ∃ found, programFrom (bound ts) (ts.length + 1) ts #[] #[] = some found := by
  have hruns : (tokenize Sample.brokenBlock).toOption.any (fun ts =>
      let first := turn (bound ts) false ts
      let second := turn (bound ts) true first.2
      !(Token.front ts).kind.same .eof && !(Token.front first.2).kind.same .eof &&
        !(first.1.record #[]).isEmpty && (Token.front second.2).kind.same .dedent) = true := by
    decide +kernel
  cases hts : tokenize Sample.brokenBlock with
  | error wrong => rw [hts] at hruns; cases hruns
  | ok ts =>
    rw [hts] at hruns
    simp only [Except.toOption, Option.any_some, Bool.and_eq_true, Bool.not_eq_true'] at hruns
    obtain ⟨⟨⟨hstart, hnext⟩, hwrong⟩, hdedent⟩ := hruns
    have hne {us : List Token} (h : (Token.front us).kind.same .eof = false) :
        (Token.front us).kind ≠ .eof := fun heof => by rw [heof] at h; cases h
    have hfirst : Reached (bound ts) ts (turn (bound ts) false ts).2
        ((turn (bound ts) false ts).1.record #[]) := .turn .start (hne hstart) rfl
    have hsecond := hfirst.turn (hne hnext) rfl
    rw [hwrong] at hsecond
    obtain ⟨hends, -, hturns⟩ := reading_advances hts
    have hkind := Token.Kind.eq_of_same hdedent
    obtain ⟨hsuffix, hus, -, hend⟩ := hturns _ _ hsecond
    exact ⟨ts, _, _, rfl, hsecond, hkind, hsuffix, hus, (hend hkind).1, (hend hkind).2, hends⟩

end Grammar

end Scripting
