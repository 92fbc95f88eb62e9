/-
# What tokens demand

Every reader of the grammar takes a bound on its recursion, and gives up when it is used up. How
much a reader needs can be told from the tokens: between one token and the next the readers only
go down the levels of the grammar, of which there are fewer than 32, and an f-string is read in
turn, from tokens that its own characters pay for. A newline is one more turn of a block
(`Token.demand`). A reader that takes tokens leaves others that demand less (`Leaves`).
-/
import Scripting.Proofs.Grammar.Parse
import Scripting.Proofs.Token.Lexemes

namespace Scripting

/-- What the items of a list demand together. -/
@[simp]
def demands {α : Type} (demand : α → Nat) : List α → Nat
  | [] => 0
  | x :: xs => demand x + demands demand xs

@[simp]
theorem demands_append {α : Type} (demand : α → Nat) (xs ys : List α) :
    demands demand (xs ++ ys) = demands demand xs + demands demand ys := by
  induction xs with
  | nil => simp
  | cons x xs ih => simp [ih, Nat.add_assoc]

theorem demands_eq_zero {α : Type} {demand : α → Nat} {xs : List α} (h : ∀ x ∈ xs, demand x = 0) :
    demands demand xs = 0 := by
  induction xs with
  | nil => rfl
  | cons x xs ih =>
    rw [List.forall_mem_cons] at h
    rw [demands, h.1, ih h.2]

/-- How much of the bound a token can use up: the readers between it and the next one, and those
of its fields. -/
def Token.demand (t : Token) : Nat :=
  match t.kind with
  | .fstr text => 32 * (text.length + 1)
  | .newline => 1
  | kind => if kind.isSolid then 32 else 0

theorem Token.le_demand {t : Token} (h : t.kind.isSolid = true) : 32 ≤ t.demand := by
  unfold demand
  split
  · omega
  next hkind => rw [hkind] at h; cases h
  · rw [h]; decide

theorem Token.demand_newline {t : Token} (h : t.kind = .newline) : t.demand = 1 := by
  rw [demand, h]

theorem demands_newline (p : Position) : demands Token.demand [⟨.newline, p⟩] = 1 := rfl

/-! ### Tokens of a text -/

theorem ofWord_ne_fstr (text s : String) : Token.Kind.ofWord text ≠ .fstr s := by
  unfold Token.Kind.ofWord
  split <;> simp

theorem scanToken_fstr_length_le {first : Char} {rest : List Char} {text : String} {more : Nat}
    (h : scanToken first rest = .token (.fstr text) more) : text.length ≤ more := by
  have hcases := scanToken_cases first rest
  generalize scanToken first rest = scan at h hcases
  cases hcases with
  | number => exact absurd rfl ((scanNumber_isSolid h).2 text)
  | text =>
    obtain ⟨read, length, -, hkind, -⟩ := scanQuoted_kind h
    cases hkind
  | fields =>
    obtain ⟨read, length, hclosed, hkind, rfl⟩ := scanQuoted_kind h
    cases hkind
    have hread := (scanString_closed _ _ _ _ hclosed).2.1
    rw [List.length_nil] at hread
    rw [String.length_ofList]
    omega
  | name =>
    injection h with hkind
    exact absurd hkind (ofWord_ne_fstr _ text)
  | symbol | bang | unknown => cases h

theorem demand_of_scanToken {first : Char} {rest : List Char} {kind : Token.Kind} {more : Nat}
    (h : scanToken first rest = .token kind more) (pos : Position) :
    Token.demand ⟨kind, pos⟩ ≤ 32 * (more + 1) := by
  unfold Token.demand
  dsimp only
  split
  next text =>
    have hle := scanToken_fstr_length_le h
    omega
  · omega
  · split <;> omega

theorem Enters.demands {blocks blocks' : List Nat} {line : ContentLine} {found : List Token}
    {wrong : List Diagnostic} (h : Enters blocks line found wrong blocks') :
    demands Token.demand found = 0 := by
  cases h with
  | deeper => rfl
  | level | between => exact demands_eq_zero fun t ht => by rw [List.eq_of_mem_replicate ht]; rfl

theorem Finds.demands {c : Cursor} {blocks out : List Nat} {ps : List Lexeme} {ts : List Token}
    {ds : List Diagnostic} (h : Finds c blocks ps ts ds out) (hsound : ∀ p ∈ ps, p.Sound) :
    demands Token.demand ts ≤ 32 * (ps.flatMap Lexeme.text).length := by
  induction h with
  | nil => exact Nat.le_refl 0
  | enter _ henter _ ih =>
    rw [demands_append, henter.demands, Nat.zero_add]
    exact ih hsound
  | @pass c _ _ lexeme ps _ _ _ _ ih =>
    obtain ⟨hlexeme, hps⟩ := List.forall_mem_cons.1 hsound
    have hmore := ih hps
    have hfirst : Scripting.demands Token.demand (c.tokens lexeme) ≤ 32 * lexeme.text.length := by
      cases lexeme with
      | blank | comment | continued | broken => exact Nat.zero_le _
      | newline =>
        rw [Cursor.tokens]
        split
        · rw [demands_newline]
          decide
        · exact Nat.zero_le _
      | token kind text =>
        obtain ⟨first, rest, rfl, hscan⟩ := hlexeme
        exact demand_of_scanToken hscan c.pos
    rw [demands_append, List.flatMap_cons, List.length_append]
    omega

theorem demands_of_tokenizeAt {pos : Position} {text : List Char} {ts : List Token}
    (h : tokenizeAt pos text = .ok ts) : demands Token.demand ts ≤ 32 * text.length + 1 := by
  obtain ⟨found, final, hfinds, -, rfl⟩ := tokenizeAt_ok_iff.1 h
  have hfound := hfinds.demands (lexemes_sound text)
  have hend : demands Token.demand (final.lineEnd found.getLast?) ≤ 1 := by
    rcases final.lineEnd_cases found with ⟨hend, -⟩ | hend
    · rw [hend]
      exact Nat.zero_le _
    · exact Nat.le_of_eq (by rw [hend, demands_newline])
  have hblocks : demands Token.demand
      (List.replicate final.blocks.length (⟨.dedent, final.pos⟩ : Token)) = 0 :=
    demands_eq_zero fun t ht => by rw [List.eq_of_mem_replicate ht]; rfl
  have heof : demands Token.demand [⟨.eof, final.pos⟩] = 0 := rfl
  rw [flatMap_lexemes] at hfound
  rw [final.closing_eq, demands_append, demands_append, demands_append, hblocks, heof]
  omega

/-! ### What is left -/

/-- What a reader leaves of its tokens: their end, which demands less by what was taken. -/
structure Leaves (cost : Nat) (ts rest : List Token) : Prop where
  suffix : rest <:+ ts
  nonempty : ts ≠ [] → rest ≠ []
  less : demands Token.demand rest + cost ≤ demands Token.demand ts

namespace Leaves

variable {cost first : Nat} {ts mid rest : List Token}

theorem refl (ts : List Token) : Leaves 0 ts ts := ⟨List.suffix_rfl, id, Nat.le_refl _⟩

theorem cons {t : Token} (h : rest ≠ []) : Leaves t.demand (t :: rest) rest :=
  ⟨List.suffix_cons t rest, fun _ => h, Nat.le_of_eq (Nat.add_comm _ _)⟩

theorem trans (h : Leaves first ts mid) (h' : Leaves (cost - first) mid rest) :
    Leaves cost ts rest where
  suffix := h'.suffix.trans h.suffix
  nonempty := fun hts => h'.nonempty (h.nonempty hts)
  less := by
    have hfirst := h.less
    have hmore := h'.less
    omega

theorem mono (h : Leaves first ts rest) (hle : cost ≤ first) : Leaves cost ts rest :=
  ⟨h.suffix, h.nonempty, Nat.le_trans (Nat.add_le_add_left hle _) h.less⟩

theorem drop (h : Leaves first ts rest) : Leaves 0 ts rest := h.mono (Nat.zero_le first)

theorem length_lt (h : Leaves cost ts rest) (hcost : 0 < cost) : rest.length < ts.length := by
  refine Nat.lt_of_le_of_ne h.suffix.length_le fun heq => ?_
  have hless := h.less
  rw [h.suffix.eq_of_length heq] at hless
  omega

end Leaves

namespace Grammar

/-! ### Levels and f-strings -/

/-- How many readers a level has to itself, down to the signs. -/
def height : Level → Nat
  | .product => 5
  | .sum => 7
  | .comparison => 9
  | .and => 12
  | .or => 14

theorem height_le (level : Level) : height level ≤ 14 := by
  cases level <;> decide

/-- How much of the bound a piece of an f-string can use up. -/
def pieceDemand : Piece → Nat
  | .text _ => 1
  | .field source => 32 * (source.length + 1)

theorem demand_literal (read : List Char) :
    demands pieceDemand (Piece.literal read) ≤ 32 * read.length := by
  cases read with
  | nil => exact Nat.le_refl 0
  | cons c read => simp [Piece.literal, pieceDemand]; omega

/-- What is being read has been paid for, the opening brace of a field too. -/
def modeDemand : Piece.Mode → Nat
  | .text read => 32 * read.length
  | .field read _ => 32 * (read.length + 1)

theorem demand_splitFrom (mode : Piece.Mode) (text : List Char) :
    demands pieceDemand (Piece.splitFrom mode text).1 ≤ modeDemand mode + 32 * text.length := by
  fun_induction Piece.splitFrom mode text with
  | case1 read => exact demand_literal read
  | case2 read rest ih => simp only [modeDemand, List.length_cons] at ih ⊢; omega
  | case3 read rest ih => simp only [modeDemand, List.length_cons] at ih ⊢; omega
  | case4 read rest pieces wrong hsplit _ _ ih =>
    have hliteral := demand_literal read
    rw [hsplit] at ih
    simp only [modeDemand, List.length_cons, List.length_nil,
      demands_append] at ih ⊢
    omega
  | case5 => simp
  | case6 read c rest _ _ _ _ ih => simp only [modeDemand, List.length_cons] at ih ⊢; omega
  | case7 => simp
  | case8 read scan c rest scan' outside hfeed hclose pieces wrong hsplit ih =>
    rw [hsplit] at ih
    simp only [modeDemand, List.length_nil, List.length_cons, demands, pieceDemand,
      List.length_reverse] at ih ⊢
    omega
  | case9 read scan c rest scan' outside hfeed hopen ih =>
    simp only [modeDemand, List.length_cons] at ih ⊢
    omega

/-- The pieces of an f-string demand no more than its characters pay for. -/
theorem demand_split (text : List Char) :
    demands pieceDemand (Piece.split text).1 ≤ 32 * text.length := by
  have hle := demand_splitFrom (.text []) text
  rwa [modeDemand, List.length_nil, Nat.mul_zero, Nat.zero_add] at hle

theorem length_source_splitFrom (scan : FieldScan) (read text : List Char) :
    (FieldText.splitFrom scan read text).source.length ≤ read.length + text.length := by
  fun_induction FieldText.splitFrom scan read text with
  | case1 => simp
  | case2 => simp
  | case3 => simp
  | case4 scan read c rest scan' outside _ _ _ ih =>
    rw [List.length_cons] at ih ⊢
    omega

theorem length_source_split (field : List Char) :
    (FieldText.split field).source.length ≤ field.length := by
  simpa [FieldText.split] using length_source_splitFrom .start [] field

theorem length_trim (drop : Char → Bool) (text : List Char) :
    (Text.trim drop text).length ≤ text.length := by
  unfold Text.trim Text.trimEnd Text.trimStart
  rw [List.length_reverse]
  refine Nat.le_trans (List.dropWhile_suffix _).length_le ?_
  rw [List.length_reverse]
  exact (List.dropWhile_suffix _).length_le

end Grammar

end Scripting
