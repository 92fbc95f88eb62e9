/-
# Tokens and the bytes of a text

If nothing is wrong with a text, every token but the layout tokens and the end of the input stands
for some bytes of the text. These stretches follow each other, and what lies between them is filler:
blank space, newlines, comments up to the end of their line, and line continuations. A token's
position counts the newline bytes before its stretch and the bytes behind the last of them
(`tokenize_lossless`).
-/
import Mathlib.Data.List.Induction
import Scripting.Proofs.Token.Bytes

namespace Scripting

variable {text : List Char}

/-! ### Bytes -/

/-- The position behind some bytes: the line is one more than the newlines among them, the column
one more than the bytes behind the last newline. -/
def positionBehind (bytes : List UInt8) : Position :=
  ⟨1 + bytes.count 10, 1 + (bytes.reverse.takeWhile fun b => b != 10).length⟩

theorem positionBehind_snoc (bytes : List UInt8) (b : UInt8) :
    positionBehind (bytes ++ [b]) = (positionBehind bytes).afterByte b := by
  unfold positionBehind Position.afterByte
  by_cases hb : b = 10
  · simp [hb, Nat.add_assoc]
  · simp [hb, Nat.add_comm]

/-- Positions count bytes. -/
theorem advance_eq_positionBehind (text : List Char) :
    Position.start.advance text = positionBehind (bytesOf text) := by
  rw [← foldl_afterByte_bytesOf]
  induction bytesOf text using List.reverseRecOn with
  | nil => rfl
  | append_singleton bytes b ih => rw [List.foldl_append, ih, positionBehind_snoc]; rfl

/-! ### Stretches -/

/-- A stretch of bytes, from one offset up to another. -/
structure Span where
  start : Nat
  stop : Nat
  deriving DecidableEq, Repr

def Span.of (span : Span) (bytes : List UInt8) : List UInt8 :=
  (bytes.take span.stop).drop span.start

/-- A token stands for a stretch of bytes: there are some, they are there, they are the form of a
text that is just this token, and the token knows where they begin. -/
structure Covers (bytes : List UInt8) (span : Span) (t : Token) : Prop where
  nonempty : span.start < span.stop
  inside : span.stop ≤ bytes.length
  text : ∃ first rest, span.of bytes = bytesOf (first :: rest) ∧
    scanToken first rest = .token t.kind rest.length
  pos : t.pos = positionBehind (bytes.take span.start)

/-- What may stand between tokens. A comment reaches to a newline, or to the end of the text where
that is allowed. -/
inductive Filler (last : Prop) : List Char → Prop
  | nil : Filler last []
  | blank {c : Char} {rest : List Char} (hc : c = ' ' ∨ c = '\t' ∨ c = '\r')
      (h : Filler last rest) :
      Filler last (c :: rest)
  | newline {rest : List Char} (h : Filler last rest) : Filler last ('\n' :: rest)
  | continued {rest : List Char} (h : Filler last rest) : Filler last ('\\' :: '\n' :: rest)
  | comment {text rest : List Char} (htext : '\n' ∉ text) (h : Filler last rest) :
      Filler last ('#' :: text ++ '\n' :: rest)
  | lastComment {text : List Char} (hlast : last) (htext : '\n' ∉ text) : Filler last ('#' :: text)

/-- The stretches before, between and behind some others, from an offset up to the end. -/
def gaps (size : Nat) : Nat → List Span → List Span
  | offset, [] => [⟨offset, size⟩]
  | offset, span :: spans => ⟨offset, span.start⟩ :: gaps size span.stop spans

namespace Lexeme

def kind? : Lexeme → Option Token.Kind
  | .token kind _ => some kind
  | _ => none

def size (lexeme : Lexeme) : Nat := (bytesOf lexeme.text).length

end Lexeme

/-- The tokens among some lexemes and the stretches they stand for, from an offset and a position
on. -/
def tokenSpans : Nat → Position → List Lexeme → List (Span × Token)
  | _, _, [] => []
  | offset, pos, lexeme :: ps =>
    (lexeme.kind?.map fun kind => (⟨offset, offset + lexeme.size⟩, ⟨kind, pos⟩)).toList ++
      tokenSpans (offset + lexeme.size) (pos.advance lexeme.text) ps

/-- The text in front of the first token. -/
def leading : List Lexeme → List Char
  | [] => []
  | lexeme :: ps => if lexeme.kind?.isSome then [] else lexeme.text ++ leading ps

theorem leading_isPrefix : ∀ ps : List Lexeme, leading ps <+: ps.flatMap Lexeme.text
  | [] => List.nil_prefix
  | lexeme :: ps => by
    rw [leading, List.flatMap_cons]
    split
    · exact List.nil_prefix
    · exact (List.prefix_append_right_inj _).2 (leading_isPrefix ps)

theorem leading_eq_flatMap : ∀ {ps : List Lexeme}, (∀ p ∈ ps, p.kind? = none) →
    leading ps = ps.flatMap Lexeme.text
  | [], _ => rfl
  | lexeme :: ps, h => by
    obtain ⟨hlexeme, hps⟩ := List.forall_mem_cons.1 h
    rw [leading, hlexeme, List.flatMap_cons, leading_eq_flatMap hps]
    rfl

/-! ### Filler -/

theorem Filler.mono {last last' : Prop} (hlast : last → last')
    (h : Filler last text) : Filler last' text := by
  induction h with
  | nil => exact .nil
  | blank hc _ ih => exact .blank hc ih
  | newline _ ih => exact .newline ih
  | continued _ ih => exact .continued ih
  | comment htext _ ih => exact .comment htext ih
  | lastComment h htext => exact .lastComment (hlast h) htext

theorem Filler.of_newline {last : Prop} {rest : List Char} (h : Filler last ('\n' :: rest)) :
    Filler last rest := by
  cases h with
  | newline h => exact h
  | blank hc => simp at hc

theorem firstLexeme_eq_comment {first : Char} {rest : List Char}
    (h : firstLexeme first rest = .comment text) :
    first = '#' ∧ text = rest.take (lineLength rest) := by
  unfold firstLexeme at h
  split at h
  · cases h
  split at h
  · cases h
  · cases h; exact ⟨rfl, rfl⟩
  · cases h
  · split at h <;> cases h

/-- The lexemes in front of the first token are filler. -/
theorem filler_leading (text : List Char) (hwhole : ∀ p ∈ lexemes text, p.isBroken = false) :
    Filler (∀ p ∈ lexemes text, p.kind? = none) (leading (lexemes text)) := by
  fun_induction lexemes text with
  | case1 => exact .nil
  | case2 first rest ih =>
    obtain ⟨hfirst, hwhole⟩ := List.forall_mem_cons.1 hwhole
    have hsound := firstLexeme_sound first rest
    have hmore (hnone : (firstLexeme first rest).kind? = none) : Filler
        (∀ p ∈ firstLexeme first rest ::
          lexemes ((first :: rest).drop (firstLexeme first rest).text.length), p.kind? = none)
        (leading (lexemes ((first :: rest).drop (firstLexeme first rest).text.length))) :=
      (ih hwhole).mono fun h p hp => (List.mem_cons.1 hp).elim (fun heq => heq ▸ hnone) (h p)
    rw [leading]
    cases hlexeme : firstLexeme first rest with
    | token => exact .nil
    | broken => rw [hlexeme] at hfirst; cases hfirst
    | blank c =>
      rw [hlexeme] at hsound hmore
      have hc : c = ' ' ∨ c = '\t' ∨ c = '\r' := by
        simpa [Lexeme.Sound, isBlank, or_assoc] using hsound
      exact .blank hc (hmore rfl)
    | newline =>
      rw [hlexeme] at hmore
      exact .newline (hmore rfl)
    | continued =>
      rw [hlexeme] at hmore
      exact .continued (hmore rfl)
    | comment text =>
      rw [hlexeme] at hmore hsound
      obtain ⟨rfl, rfl⟩ := firstLexeme_eq_comment hlexeme
      have hmore := hmore rfl
      have htext : '\n' ∉ rest.take (lineLength rest) := fun h => hsound _ h rfl
      have hbound : lineLength rest ≤ rest.length := (List.takeWhile_prefix _).length_le
      have hdrop : ('#' :: rest).drop (Lexeme.comment (rest.take (lineLength rest))).text.length =
          rest.drop (lineLength rest) := by
        rw [Lexeme.text, List.length_cons, List.length_take_of_le hbound, List.drop_succ_cons]
      -- Behind a comment is the newline that ends it, or nothing.
      rcases LayoutState.drop_lineLength rest with hend | ⟨tail, hend⟩
      · rw [hdrop, hend, lexemes]
        change Filler _ ('#' :: (rest.take (lineLength rest) ++ []))
        rw [List.append_nil]
        exact .lastComment (by simp [Lexeme.kind?]) htext
      · rw [hdrop, hend, lexemes_newline] at hmore ⊢
        exact .comment htext (Filler.of_newline hmore)

/-! ### Tokens and their stretches -/

theorem Enters.filter_isSolid {blocks blocks' : List Nat} {line : ContentLine} {found : List Token}
    {wrong : List Diagnostic} (h : Enters blocks line found wrong blocks') :
    found.filter (·.kind.isSolid) = [] := by
  cases h with
  | deeper => rfl
  | level | between => exact List.filter_replicate_of_neg Bool.false_ne_true

theorem Cursor.filter_tokens (c : Cursor) {lexeme : Lexeme} (h : lexeme.Sound) :
    (c.tokens lexeme).filter (·.kind.isSolid) =
      (lexeme.kind?.map fun kind => ⟨kind, c.pos⟩).toList := by
  cases lexeme with
  | blank | comment | continued | broken => rfl
  | newline =>
    rw [Cursor.tokens]
    split <;> rfl
  | token kind text =>
    obtain ⟨first, rest, -, hscan⟩ := h
    exact List.filter_cons_of_pos (scanToken_isSolid hscan)

theorem LayoutState.filter_closing (s : LayoutState) (last : Option Token) :
    (s.closing last).filter (·.kind.isSolid) = [] := by
  have hend : (s.lineEnd last).filter (·.kind.isSolid) = [] := by
    unfold LayoutState.lineEnd
    split <;> rfl
  rw [s.closing_eq, List.filter_append, List.filter_append, hend,
    List.filter_replicate_of_neg Bool.false_ne_true]
  rfl

section Finds

variable {c : Cursor} {blocks out : List Nat} {ps : List Lexeme} {ts : List Token}
  {ds : List Diagnostic}

/-- The tokens within lines are those among the lexemes. -/
theorem Finds.solid (h : Finds c blocks ps ts ds out) (hsound : ∀ p ∈ ps, p.Sound) (offset : Nat) :
    ts.filter (·.kind.isSolid) = (tokenSpans offset c.pos ps).map Prod.snd := by
  induction h generalizing offset with
  | nil => rfl
  | enter _ henter _ ih =>
    rw [List.filter_append, henter.filter_isSolid, ih hsound offset, List.nil_append]
  | @pass c _ _ lexeme _ _ _ _ _ ih =>
    obtain ⟨hlexeme, hsound⟩ := List.forall_mem_cons.1 hsound
    rw [List.filter_append, c.filter_tokens hlexeme, ih hsound (offset + lexeme.size), tokenSpans,
      List.map_append]
    congr 1
    cases lexeme.kind? <;> rfl

end Finds

theorem tokenSpans_start {p : Span × Token} : ∀ {ps : List Lexeme} {offset : Nat} {pos : Position},
    p ∈ tokenSpans offset pos ps → offset ≤ p.1.start
  | [], _, _, h => nomatch h
  | lexeme :: ps, offset, pos, h => by
    rcases List.mem_append.1 h with h | h
    · obtain ⟨kind, -, rfl⟩ := Option.map_eq_some_iff.1 (Option.mem_toList.1 h)
      exact Nat.le_refl _
    · exact Nat.le_trans (Nat.le_add_right _ _) (tokenSpans_start h)

theorem tokenSpans_pairwise : ∀ (ps : List Lexeme) (offset : Nat) (pos : Position),
    (tokenSpans offset pos ps).Pairwise fun a b => a.1.stop ≤ b.1.start
  | [], _, _ => .nil
  | lexeme :: ps, offset, pos => by
    refine List.pairwise_append.2 ⟨?_, tokenSpans_pairwise ps _ _, fun a ha b hb => ?_⟩
    · cases lexeme.kind? with
      | none => exact .nil
      | some kind => exact List.pairwise_singleton _ _
    · obtain ⟨kind, -, rfl⟩ := Option.map_eq_some_iff.1 (Option.mem_toList.1 ha)
      exact tokenSpans_start hb

theorem Span.of_bytesOf (before text after : List Char) :
    Span.of ⟨(bytesOf before).length, (bytesOf before).length + (bytesOf text).length⟩
      (bytesOf (before ++ (text ++ after))) = bytesOf text := by
  rw [bytesOf_append, bytesOf_append, Span.of, ← List.append_assoc, ← List.length_append,
    List.take_left, List.drop_left]

theorem bytesOf_length_pos (h : text ≠ []) : 0 < (bytesOf text).length :=
  Nat.lt_of_lt_of_le (List.length_pos_iff.2 h) (length_le_bytesOf text)

theorem tokenSpans_covers : ∀ {ps : List Lexeme} (read : List Char), (∀ p ∈ ps, p.Sound) →
    ∀ p ∈ tokenSpans (bytesOf read).length (Position.start.advance read) ps,
      Covers (bytesOf (read ++ ps.flatMap Lexeme.text)) p.1 p.2
  | [], _, _ => nofun
  | lexeme :: ps, read, hsound => by
    obtain ⟨hlexeme, hsound⟩ := List.forall_mem_cons.1 hsound
    rw [List.flatMap_cons]
    intro p hp
    rcases List.mem_append.1 hp with hp | hp
    · obtain ⟨kind, hkind, rfl⟩ := Option.map_eq_some_iff.1 (Option.mem_toList.1 hp)
      refine ⟨Nat.lt_add_of_pos_right (bytesOf_length_pos hlexeme.text_ne_nil), ?_, ?_, ?_⟩
      · rw [bytesOf_append, bytesOf_append, List.length_append, List.length_append]
        exact Nat.add_le_add_left (Nat.le_add_right _ _) _
      · cases lexeme with
        | token kind' text =>
          cases hkind
          obtain ⟨first, rest, rfl, hscan⟩ := hlexeme
          exact ⟨first, rest, Span.of_bytesOf read _ _, hscan⟩
        | _ => cases hkind
      · rw [bytesOf_append, List.take_left, advance_eq_positionBehind]
    · rw [← List.append_assoc]
      refine tokenSpans_covers (read ++ lexeme.text) hsound p ?_
      rwa [bytesOf_append, List.length_append, Position.advance_append]

/-! ### Gaps -/

theorem gaps_eq_cons (size : Nat) (spans : List Span) : ∃ stop tail, ∀ offset,
    gaps size offset spans = ⟨offset, stop⟩ :: tail := by
  cases spans with
  | nil => exact ⟨size, [], fun _ => rfl⟩
  | cons span spans => exact ⟨span.start, gaps size span.stop spans, fun _ => rfl⟩

/-- A stretch of filler; only the last one may end in a comment. -/
def IsFiller (bytes : List UInt8) (gap : Span) : Prop :=
  ∃ text, gap.of bytes = bytesOf text ∧ Filler (gap.stop = bytes.length) text

theorem isFiller_leading {ps : List Lexeme} (read : List Char)
    (hfiller : Filler (∀ p ∈ ps, p.kind? = none) (leading ps)) :
    IsFiller (bytesOf (read ++ ps.flatMap Lexeme.text))
      ⟨(bytesOf read).length, (bytesOf read).length + (bytesOf (leading ps)).length⟩ := by
  obtain ⟨more, hmore⟩ := leading_isPrefix ps
  refine ⟨leading ps, ?_, hfiller.mono fun hnone => ?_⟩
  · rw [← hmore]
    exact Span.of_bytesOf read (leading ps) more
  · rw [leading_eq_flatMap hnone, bytesOf_append, List.length_append]

theorem gaps_tokenSpans : ∀ {ps : List Lexeme} (read : List Char) (pos : Position),
    (∀ qs, qs <:+ ps → Filler (∀ p ∈ qs, p.kind? = none) (leading qs)) →
    ∃ tail, gaps (bytesOf (read ++ ps.flatMap Lexeme.text)).length (bytesOf read).length
        ((tokenSpans (bytesOf read).length pos ps).map Prod.fst) =
          ⟨(bytesOf read).length, (bytesOf read).length + (bytesOf (leading ps)).length⟩ :: tail ∧
      ∀ gap ∈ tail, IsFiller (bytesOf (read ++ ps.flatMap Lexeme.text)) gap
  | [], read, pos, _ => by
    refine ⟨[], ?_, nofun⟩
    simp [tokenSpans, gaps, leading, bytesOf]
  | lexeme :: ps, read, pos, hfiller => by
    obtain ⟨tail, hgaps, htail⟩ := gaps_tokenSpans (read ++ lexeme.text) (pos.advance lexeme.text)
      fun qs hqs => hfiller qs (hqs.trans (List.suffix_cons lexeme ps))
    have hfirst := isFiller_leading (read ++ lexeme.text) (hfiller ps (List.suffix_cons lexeme ps))
    have hlength :
        (bytesOf (read ++ lexeme.text)).length = (bytesOf read).length + lexeme.size := by
      rw [bytesOf_append, List.length_append]
      rfl
    rw [hlength] at hgaps hfirst
    rw [List.flatMap_cons, ← List.append_assoc, tokenSpans, leading]
    cases hkind : lexeme.kind? with
    | some kind => exact ⟨_, congrArg (List.cons _) hgaps, List.forall_mem_cons.2 ⟨hfirst, htail⟩⟩
    | none =>
      -- The lexeme goes with what lies in front of the next token.
      obtain ⟨stop, more, hcons⟩ := gaps_eq_cons
        (bytesOf (read ++ lexeme.text ++ ps.flatMap Lexeme.text)).length
        ((tokenSpans ((bytesOf read).length + lexeme.size) (pos.advance lexeme.text) ps).map
          Prod.fst)
      rw [hcons] at hgaps
      obtain ⟨hspan, rfl⟩ := List.cons.inj hgaps
      refine ⟨more, (hcons _).trans ?_, htail⟩
      rw [(Span.mk.inj hspan).2]
      simp only [Option.isSome_none, Bool.false_eq_true, if_false, bytesOf_append,
        List.length_append, Lexeme.size, Nat.add_assoc]

theorem suffix_lexemes {qs : List Lexeme} (h : qs <:+ lexemes text) :
    ∃ rest, qs = lexemes rest := by
  fun_induction lexemes text with
  | case1 => exact ⟨[], by rw [List.suffix_nil.1 h, lexemes]⟩
  | case2 first rest ih =>
    rcases List.suffix_cons_iff.1 h with rfl | h
    · exact ⟨first :: rest, by rw [lexemes]⟩
    · exact ih h

/-- Everything between the tokens of a text is filler. -/
theorem gaps_isFiller (hwhole : ∀ p ∈ lexemes text, p.isBroken = false) :
    ∀ gap ∈ gaps (bytesOf text).length 0 ((tokenSpans 0 .start (lexemes text)).map Prod.fst),
      IsFiller (bytesOf text) gap := by
  have hfiller (qs : List Lexeme) (hqs : qs <:+ lexemes text) :
      Filler (∀ p ∈ qs, p.kind? = none) (leading qs) := by
    obtain ⟨rest, rfl⟩ := suffix_lexemes hqs
    exact filler_leading rest fun p hp => hwhole p (hqs.subset hp)
  obtain ⟨tail, hgaps, htail⟩ := gaps_tokenSpans [] .start hfiller
  have hfirst := isFiller_leading [] (hfiller _ List.suffix_rfl)
  rw [List.nil_append, flatMap_lexemes] at hgaps htail hfirst
  have hall := List.forall_mem_cons.2 ⟨hfirst, htail⟩
  rwa [← hgaps] at hall

/-- Reading the bytes of a source text gives its tokens and ends: no byte behind the last is fetched
and no slice begins or ends inside a character. If nothing is wrong, the tokens within lines stand
for stretches of bytes that follow each other, with nothing but filler between them, and each
token's position is that of its stretch. -/
theorem tokenize_lossless (source : String) :
    tokenizeBytes source.toUTF8.data.toList = .ok (tokenize source) ∧
    ∀ ts, tokenize source = .ok ts →
      let bytes := source.toUTF8.data.toList
      (∃ body, ts = body ++ [⟨.eof, positionBehind bytes⟩] ∧ ∀ t ∈ body, t.kind ≠ .eof) ∧
      ∃ placed : List (Span × Token), placed.map Prod.snd = ts.filter (·.kind.isSolid) ∧
        (∀ p ∈ placed, Covers bytes p.1 p.2) ∧
        (placed.Pairwise fun a b => a.1.stop ≤ b.1.start) ∧
        ∀ gap ∈ gaps bytes.length 0 (placed.map Prod.fst), IsFiller bytes gap := by
  refine ⟨tokenizeBytes_eq source, fun ts hts => ?_⟩
  obtain ⟨found, wrong, final, hfinds, hpos, htokenize⟩ := tokenizeAt_finds .start source.toList
  have hsound := lexemes_sound source.toList
  obtain ⟨body, p, hbody, hkinds⟩ := tokenizeAt_eof hts
  rw [tokenize, htokenize] at hts
  split at hts
  next hwrong =>
    cases hts
    rw [List.isEmpty_iff] at hwrong
    rw [toUTF8_eq_bytesOf]
    dsimp only
    rw [← advance_eq_positionBehind]
    refine ⟨⟨body, ?_, hkinds⟩, tokenSpans 0 .start (lexemes source.toList), ?_, ?_, ?_, ?_⟩
    · rw [final.closing_eq, ← List.append_assoc, ← List.append_assoc] at hbody ⊢
      rw [← (List.append_inj' hbody rfl).1, hpos]
    · rw [List.filter_append, hfinds.solid hsound 0, final.filter_closing, List.append_nil]
      rfl
    · have hcovers := tokenSpans_covers [] hsound
      rwa [List.nil_append, flatMap_lexemes] at hcovers
    · exact tokenSpans_pairwise _ _ _
    · exact gaps_isFiller (hfinds.whole hwrong)
  · cases hts

/-- A text in which a string and a comment hold a character of two bytes. The name behind the string
is at column 8, and the stretches of its tokens leave the blank space and the comment. -/
theorem tokenize_lossless_two_bytes :
    let source := "a=\"é\"+b # é\n"
    ∃ ts, tokenize source = .ok ts ∧ ts.map (·.pos) =
        [⟨1, 1⟩, ⟨1, 2⟩, ⟨1, 3⟩, ⟨1, 7⟩, ⟨1, 8⟩, ⟨1, 14⟩, ⟨2, 1⟩] ∧
      ∃ placed : List (Span × Token), placed.map Prod.snd = ts.filter (·.kind.isSolid) ∧
        (∀ p ∈ placed, Covers source.toUTF8.data.toList p.1 p.2) ∧
        ∀ gap ∈ gaps source.toUTF8.data.toList.length 0 (placed.map Prod.fst),
          IsFiller source.toUTF8.data.toList gap := by
  intro source
  have hok : (tokenize source).toOption.map (fun ts => ts.map (·.pos)) =
      some [⟨1, 1⟩, ⟨1, 2⟩, ⟨1, 3⟩, ⟨1, 7⟩, ⟨1, 8⟩, ⟨1, 14⟩, ⟨2, 1⟩] := by decide +kernel
  cases hts : tokenize source with
  | ok ts =>
    rw [hts] at hok
    obtain ⟨-, placed, hplaced, hcovers, -, hgaps⟩ := (tokenize_lossless source).2 ts hts
    exact ⟨ts, rfl, Option.some.inj hok, placed, hplaced, hcovers, hgaps⟩
  | error ds =>
    rw [hts] at hok
    cases hok

end Scripting
