/-
# The tokens of written texts

Within a line a text is spelled by tokens, with blank space between them or none (`Spells`), and a
line of them is read as those tokens and the end of the line (`Spells.tokenizeAt`). Here are the
tokens that scripts and data are put together from.

A literal ends where a comma, a colon, a closing bracket or the end of the text comes next, so
nothing behind it is read with it (`Closes`). In a text in quotes the quote itself, the backslash
and the characters that would end the line are written as escapes, and these are the escapes that
reading knows (`scanString_quoted`).
-/
import Mathlib.Data.List.Forall2
import Scripting.Proofs.Precedence.Rendering
import Scripting.Proofs.Token.Lexemes
import Scripting.Value.Render

namespace Scripting

variable {c quote first : Char} {tail rest text : List Char}

/-! ### Lines of tokens -/

/-- The kinds of the tokens that a text within a line is made of. -/
inductive Spells : List Char → List Token.Kind → Prop
  | nil : Spells [] []
  | blank {c : Char} {text : List Char} {kinds : List Token.Kind} (hc : isBlank c = true)
      (h : Spells text kinds) : Spells (c :: text) kinds
  | token {first : Char} {rest more : List Char} {kind : Token.Kind} {kinds : List Token.Kind}
      (hscan : scanToken first (rest ++ more) = .token kind rest.length) (h : Spells more kinds) :
      Spells (first :: (rest ++ more)) (kind :: kinds)

section Spells

variable {kind : Token.Kind} {kinds : List Token.Kind}

theorem Spells.isSolid (h : Spells text kinds) : ∀ kind ∈ kinds, kind.isSolid = true := by
  induction h with
  | nil => simp
  | blank _ _ ih => exact ih
  | token hscan _ ih => exact List.forall_mem_cons.2 ⟨scanToken_isSolid hscan, ih⟩

theorem lexemes_spelled {more : List Char}
    (hscan : scanToken first (rest ++ more) = .token kind rest.length) :
    lexemes (first :: (rest ++ more)) = .token kind (first :: rest) :: lexemes more := by
  rw [lexemes_token hscan, List.take_left, List.drop_left]

theorem Spells.finds (h : Spells text kinds) : ∀ (c : Cursor) (blocks : List Nat), c.margin = none →
    ∃ found, found.map Token.kind = kinds ∧ Finds c blocks (lexemes text) found [] blocks := by
  induction h with
  | nil =>
    intro c blocks _
    exact ⟨[], rfl, by rw [lexemes]; exact .nil c blocks⟩
  | @blank b text kinds hb _ ih =>
    intro c blocks hc
    obtain ⟨found, hkinds, hfinds⟩ := ih (c.after (.blank b)) blocks (by rw [Cursor.after, hc]; rfl)
    rw [lexemes_blank hb]
    exact ⟨found, hkinds, .quiet rfl rfl rfl rfl hfinds⟩
  | @token first rest more kind kinds hscan _ ih =>
    intro c blocks hc
    obtain ⟨found, hkinds, hfinds⟩ := ih (c.after (.token kind (first :: rest))) blocks rfl
    rw [lexemes_spelled hscan]
    exact ⟨⟨kind, c.pos⟩ :: found, by rw [List.map_cons, hkinds],
      .pass (by simp [Cursor.line?, hc]) hfinds⟩

/-- The tokens of a line. The first one stands where the line begins. -/
theorem Spells.tokenizeAt (h : Spells text (kind :: kinds))
    (hfirst : ∀ c ∈ text.head?, isBlank c = false) (pos : Position) :
    ∃ found q, found.map Token.kind = kinds ∧ tokenizeAt pos text =
      .ok (⟨kind, pos⟩ :: (found ++ [⟨.newline, q⟩, ⟨.eof, q⟩])) := by
  have hsolid := h.isSolid
  cases h with
  | blank hb _ => cases hb.symm.trans (hfirst _ rfl)
  | @token first rest more _ _ hscan hmore =>
    obtain ⟨found, rfl, hfinds⟩ :=
      hmore.finds ((Cursor.mk pos 0 none).after (.token kind (first :: rest))) [] rfl
    have hline : Finds (.start pos) [] (lexemes (first :: (rest ++ more))) (⟨kind, pos⟩ :: found) []
        [] := by
      have henter : Enters [] ⟨pos, 0⟩ (List.replicate 0 ⟨.dedent, pos⟩) [] [] :=
        .level (Nat.lt_irrefl 0) rfl rfl
      rw [lexemes_spelled hscan]
      exact .enter rfl henter (.pass rfl hfinds)
    obtain ⟨last, hlast⟩ : ∃ last, (Token.mk kind pos :: found).getLast? = some last :=
      Option.isSome_iff_exists.1 (by simp)
    have hkind : last.kind ≠ .newline := by
      intro hkind
      have hmem : last.kind ∈ kind :: found.map Token.kind :=
        List.mem_map_of_mem (List.mem_of_getLast? hlast)
      rw [hkind] at hmem
      cases hsolid _ hmem
    let final := LayoutState.initial [] (pos.advance (first :: (rest ++ more)))
    refine ⟨found, final.pos, rfl, tokenizeAt_ok_iff.2 ⟨_, final, hline, rfl, ?_⟩⟩
    rw [hlast, LayoutState.closing_of_last hkind]
    rfl

theorem Spells.single (hscan : scanToken first rest = .token kind rest.length) :
    Spells (first :: rest) [kind] := by
  have h : Spells (first :: (rest ++ [])) [kind] := .token (by rw [List.append_nil, hscan]) .nil
  rwa [List.append_nil] at h

theorem Spells.char (hscan : scanToken c tail = .token kind 0) (htail : Spells tail kinds) :
    Spells (c :: tail) (kind :: kinds) := by
  rw [← List.nil_append tail] at hscan ⊢
  exact .token hscan htail

/-- A symbol is one token, unless it is the beginning of a longer one or the point of a number. -/
theorem scanToken_symbol {symbol : Symbol} (hshort : shortSymbol? c = some symbol)
    (hlong : ∀ c' ∈ tail.head?, longSymbol? c c' = none)
    (hpoint : c = '.' → ∀ c' ∈ tail.head?, c'.isDigit = false) :
    scanToken c tail = .token (.symbol symbol) 0 := by
  cases tail with
  | nil => simp [scanToken, scanSymbol?, hshort]
  | cons c' tail =>
    have hdigit : ¬ (c = '.' ∧ c'.isDigit = true) := fun h => by
      cases h.2.symm.trans (hpoint h.1 c' rfl)
    simp [scanToken, scanSymbol?, hshort, hlong c' rfl, hdigit]

/-- A symbol that is one token whatever follows it. -/
def IsMark (c : Char) (symbol : Symbol) : Prop :=
  shortSymbol? c = some symbol ∧ c ≠ '.' ∧ ∀ c', longSymbol? c c' = none

theorem IsMark.spells {symbol : Symbol} (h : IsMark c symbol) (htail : Spells tail kinds) :
    Spells (c :: tail) (.symbol symbol :: kinds) :=
  .char (scanToken_symbol h.1 (fun c' _ => h.2.2 c') fun hc => absurd hc h.2.1) htail

end Spells

def Closes (tail : List Char) : Prop :=
  ∀ c ∈ tail.head?, c = ',' ∨ c = ':' ∨ c = ']' ∨ c = '\x7d'

/-- In front of what may stand behind a literal, a text is spelled by tokens of a sort. -/
def SpelledAs (text : List Char) (P : List Token.Kind → Prop) : Prop :=
  ∀ (tail : List Char) (kinds : List Token.Kind), Closes tail → Spells tail kinds →
    ∃ own, P own ∧ Spells (text ++ tail) (own ++ kinds)

theorem SpelledAs.imp {P Q : List Token.Kind → Prop} (h : SpelledAs text P)
    (hPQ : ∀ kinds, P kinds → Q kinds) : SpelledAs text Q := fun tail kinds htail hspells =>
  let ⟨own, hown, hall⟩ := h tail kinds htail hspells
  ⟨own, hPQ own hown, hall⟩

theorem spelledAs_token {kind : Token.Kind}
    (hscan : ∀ tail, Closes tail → scanToken first (rest ++ tail) = .token kind rest.length) :
    SpelledAs (first :: rest) (· = [kind]) :=
  fun tail _ htail hspells => ⟨_, rfl, .token (hscan tail htail) hspells⟩

/-! ### Texts in quotes -/

theorem isQuote_quoteFor (text : List Char) : isQuote (quoteFor text) = true := by
  unfold quoteFor
  split <;> rfl

theorem eq_of_isQuote (h : isQuote quote = true) : quote = '"' ∨ quote = '\'' := by
  simpa [isQuote] using h

/-- Reading undoes the writing of a character inside quotes. -/
theorem scanString_quotedChar (hquote : isQuote quote = true) (c : Char) (seen : Nat)
    (text : List Char) (rest : List Char) :
    scanString quote seen text none (quotedChar quote c ++ rest) =
      scanString quote (seen + (quotedChar quote c).length) (c :: text) none rest := by
  unfold quotedChar
  split
  · rfl
  · rfl
  · rfl
  · rfl
  next hslash hnewline _ _ =>
    by_cases hc : c = quote
    · subst hc
      rw [if_pos rfl]
      rcases eq_of_isQuote hquote with rfl | rfl <;> rfl
    rw [if_neg hc, List.singleton_append]
    rw [scanString.eq_def]
    split
    next h => cases h
    next h => cases h; exact absurd rfl hnewline
    next h => cases h; exact absurd rfl hslash
    next h => cases h; exact absurd rfl hslash
    next h => cases h; rw [if_neg hc]; rfl

theorem scanString_quote (hquote : isQuote quote = true) (seen : Nat) (text tail : List Char) :
    scanString quote seen text none (quote :: tail) = .closed text.reverse none (seen + 1) := by
  rcases eq_of_isQuote hquote with rfl | rfl <;> simp [scanString]

/-- Reading undoes the writing of a text inside quotes, up to the closing quote. -/
theorem scanString_quoted (hquote : isQuote quote = true) (tail : List Char) :
    ∀ (chars : List Char) (seen : Nat) (text : List Char),
    scanString quote seen text none (chars.flatMap (quotedChar quote) ++ quote :: tail) =
      .closed (text.reverse ++ chars) none
        (seen + (chars.flatMap (quotedChar quote)).length + 1)
  | [], seen, text => by
    rw [List.flatMap_nil, List.nil_append, scanString_quote hquote, List.append_nil]
    rfl
  | c :: chars, seen, text => by
    rw [List.flatMap_cons, List.append_assoc, scanString_quotedChar hquote,
      scanString_quoted hquote tail chars, List.reverse_cons, List.append_assoc,
      List.singleton_append, List.length_append, Nat.add_assoc seen]

theorem scanToken_quote (hquote : isQuote quote = true) (rest : List Char) :
    scanToken quote rest = scanQuoted quote 0 .str rest := by
  rcases eq_of_isQuote hquote with rfl | rfl <;> cases rest <;>
    simp [scanToken, scanSymbol?, longSymbol?, shortSymbol?, isQuote]

/-- A text in quotes is one token, whatever follows it. -/
theorem spells_quoted (s : String) {kinds : List Token.Kind} (htail : Spells tail kinds) :
    Spells ((quoted s).toList ++ tail) (.str s :: kinds) := by
  have hquote := isQuote_quoteFor s.toList
  unfold quoted
  rw [String.toList_ofList, List.cons_append, List.cons_append]
  refine .token ?_ htail
  rw [scanToken_quote hquote, List.append_assoc, List.singleton_append, scanQuoted,
    scanString_quoted hquote]
  simp [String.ofList_toList]

theorem spells_fquoted (s : String) : Spells ('f' :: (quoted s).toList) [.fstr s] := by
  have hquote := isQuote_quoteFor s.toList
  have hf : ∀ body : List Char, scanToken 'f' (quoteFor s.toList :: body) =
      scanQuoted (quoteFor s.toList) 1 .fstr body := by
    intro body
    rcases eq_of_isQuote hquote with h | h <;> rw [h] <;>
      simp [scanToken, scanSymbol?, longSymbol?, shortSymbol?, isQuote]
  refine .single ?_
  unfold quoted
  rw [String.toList_ofList, List.cons_append, hf, scanQuoted, scanString_quoted hquote]
  simp [String.ofList_toList]
  omega

/-! ### Numbers -/

theorem digitsValue_toDigits (n : Nat) : digitsValue (Nat.toDigits 10 n) = n := by
  have hfold : ∀ (digits : List Char) (m : Nat), (∀ c ∈ digits, c.isDigit = true) →
      digits.foldl appendDigit m = Nat.ofDigitChars 10 digits m := by
    intro digits
    induction digits with
    | nil => intro m _; rfl
    | cons c digits ih =>
      intro m hdigits
      rw [List.foldl_cons, Nat.ofDigitChars_cons, appendDigit, if_pos (hdigits c (.head _))]
      exact ih _ fun c hc => hdigits c (.tail _ hc)
  unfold digitsValue
  rw [hfold _ 0 fun c hc => Nat.isDigit_of_mem_toDigits (by decide) (by decide) hc]
  exact Nat.ofDigitChars_toDigits (by decide) (by decide)

theorem not_mem_of_nameContinue (h : isNameContinue c = true) (cs : List Char)
    (hcs : cs.any isNameContinue = false) : c ∉ cs := by
  intro hc
  exact List.any_eq_false.1 hcs c hc h

theorem scanSymbol?_nameContinue (h : isNameContinue c = true) (rest : List Char) :
    scanSymbol? c rest = none ∧ (c == '.') = false ∧ (c == '!') = false ∧ isQuote c = false := by
  have hsymbol := not_mem_of_nameContinue h symbolStarts rfl
  have hother := not_mem_of_nameContinue h ['.', '!', '"', '\''] rfl
  exact ⟨scanSymbol?_eq_none hsymbol rest, by simpa [isQuote] using hother⟩

theorem isNameContinue_of_isDigit (h : c.isDigit = true) : isNameContinue c = true := by
  simp [isNameContinue, Char.isAlphanum, h]

theorem scanToken_digit (h : c.isDigit = true) (rest : List Char) :
    scanToken c rest = scanNumber (c :: rest) := by
  obtain ⟨hsymbol, hpoint, hbang, hquote⟩ :=
    scanSymbol?_nameContinue (isNameContinue_of_isDigit h) rest
  have hf : (c == 'f' || c == 'F') = false := by
    rw [Bool.or_eq_false_iff, beq_eq_false_iff_ne, beq_eq_false_iff_ne]
    constructor <;> (rintro rfl; exact absurd h (by decide))
  unfold scanToken
  rw [hsymbol]
  simp [hpoint, hbang, hquote, hf, h]

theorem Closes.head_eq_false {tail : List Char} (h : Closes tail) {P : Char → Bool}
    (hP : [',', ':', ']', '\x7d'].any P = false) : ∀ c ∈ tail.head?, P c = false := by
  intro c hc
  have hmem : c ∈ [',', ':', ']', '\x7d'] := by simpa using h c hc
  simpa using List.any_eq_false.1 hP c hmem

theorem takeWhile_append_stop {P : Char → Bool} {front : List Char}
    (hfront : ∀ c ∈ front, P c = true) (htail : ∀ c ∈ tail.head?, P c = false) :
    (front ++ tail).takeWhile P = front := by
  have hstop : tail.takeWhile P = [] := by
    cases tail with
    | nil => rfl
    | cons c tail => exact List.takeWhile_cons_of_neg (by simp [htail c rfl])
  rw [List.takeWhile_append_of_pos hfront, hstop, List.append_nil]

structure IsDigits (text : List Char) : Prop where
  ne_nil : text ≠ []
  isDigit : ∀ c ∈ text, c.isDigit = true

theorem isDigits_toDigits (n : Nat) : IsDigits (Nat.toDigits 10 n) :=
  ⟨Nat.toDigits_ne_nil, fun _ hc => Nat.isDigit_of_mem_toDigits (by decide) (by decide) hc⟩

section Digits

variable {digits : List Char} (hdigits : IsDigits digits)
include hdigits

theorem IsDigits.exists_cons : ∃ first rest, digits = first :: rest ∧ first.isDigit = true := by
  obtain ⟨first, rest, rfl⟩ := List.exists_cons_of_ne_nil hdigits.ne_nil
  exact ⟨first, rest, rfl, hdigits.isDigit first (.head _)⟩

theorem NumberText.read_run (htail : ∀ c ∈ tail.head?, (c.isDigit || c == '_') = false) :
    NumberText.read (digits ++ tail) =
      ⟨digits, fractionPart tail, exponentPart (tail.drop (fractionPart tail).length)⟩ := by
  have hwhole : (digits ++ tail).takeWhile (fun c => c.isDigit || c == '_') = digits :=
    takeWhile_append_stop (fun c hc => by simp [hdigits.isDigit c hc]) htail
  obtain ⟨first, rest, rfl, hfirst⟩ := hdigits.exists_cons
  unfold read
  split
  next rest' heq =>
    cases heq
    exact absurd hfirst (by decide)
  · dsimp only
    rw [hwhole, List.drop_left]

theorem NumberText.read_digits (htail : Closes tail) :
    NumberText.read (digits ++ tail) = ⟨digits, [], []⟩ := by
  have hfraction : fractionPart tail = [] := by
    unfold fractionPart
    split
    next c rest => simpa using htail '.' rfl
    · rfl
  have hexponent : exponentPart tail = [] := by
    have hletter := htail.head_eq_false (P := fun e => e == 'e' || e == 'E') rfl
    unfold exponentPart
    split
    next e c rest => rw [if_neg (by simpa using hletter e rfl)]
    · rfl
  rw [NumberText.read_run hdigits (htail.head_eq_false rfl), hfraction, List.length_nil,
    List.drop_zero, hexponent]

theorem spelledAs_digits (hn : digitsValue digits < Nat.pow 2 63) :
    SpelledAs digits (· = [.int (Int64.ofNat (digitsValue digits))]) := by
  obtain ⟨first, rest, rfl, hfirst⟩ := hdigits.exists_cons
  refine spelledAs_token fun tail htail => ?_
  rw [scanToken_digit hfirst, scanNumber, ← List.cons_append, NumberText.read_digits hdigits htail]
  dsimp only [NumberText.isFloat, NumberText.text]
  rw [if_pos hn]
  simp

theorem scanToken_minus : scanToken '-' (digits ++ tail) = .token (.symbol .minus) 0 := by
  obtain ⟨first, rest, rfl, hfirst⟩ := hdigits.exists_cons
  refine scanToken_symbol rfl (fun c hc => ?_) fun h => absurd h (by decide)
  cases hc
  unfold longSymbol?
  split <;> simp_all

end Digits

theorem spelledAs_number {n : Nat} (hn : n < Nat.pow 2 63) :
    SpelledAs (Nat.toDigits 10 n) (· = [.int (Int64.ofNat n)]) := by
  have h := spelledAs_digits (isDigits_toDigits n)
  rw [digitsValue_toDigits] at h
  exact h hn

theorem spelledAs_negative {n : Nat} (hn : n < Nat.pow 2 63) :
    SpelledAs ('-' :: Nat.toDigits 10 n) (· = [.symbol .minus, .int (Int64.ofNat n)]) := by
  intro tail kinds htail hspells
  obtain ⟨own, rfl, hnumber⟩ := spelledAs_number hn tail kinds htail hspells
  exact ⟨_, rfl, .char (scanToken_minus (isDigits_toDigits n)) hnumber⟩

/-- The text of a number spells it: its digits, with a sign if it is negative. -/
theorem spelledAs_int (n : Int64) (hn : n ≠ Int64.minValue) :
    SpelledAs (Word64.text n).toList fun kinds => kinds = [.int n] ∨
      ∃ m, Word64.neg? m = some n ∧ kinds = [.symbol .minus, .int m] := by
  have hlo := n.le_toInt
  have hhi := n.toInt_lt
  have hmin : n.toInt ≠ -2 ^ 63 := fun h => hn (Int64.toInt_inj.1 (h.trans Int64.toInt_minValue.symm))
  unfold Word64.text
  cases hint : n.toInt with
  | ofNat m =>
    have hcast : n.toInt = (m : Int) := hint
    have hm : m < 2 ^ 63 := by omega
    have htext : (toString (Int.ofNat m)).toList = Nat.toDigits 10 m := by
      change (Nat.repr m).toList = _
      rw [Nat.repr_eq_ofList_toDigits, String.toList_ofList]
    have hvalue : Int64.ofNat m = n := Int64.toInt_inj.1 (by rw [Int64.toInt_ofNat_of_lt hm, hint]; rfl)
    rw [htext, ← hvalue]
    exact (spelledAs_number hm).imp fun _ => .inl
  | negSucc m =>
    have hm : m + 1 < 2 ^ 63 := by omega
    have htext : (toString (Int.negSucc m)).toList = '-' :: Nat.toDigits 10 (m + 1) := by
      change ("-" ++ Nat.repr (m + 1)).toList = _
      simp [Nat.repr_eq_ofList_toDigits]
    have hfits : Word64.fits n.toInt = true := by
      simp only [Word64.fits, Int64.toInt_minValue, Int64.toInt_maxValue, Bool.and_eq_true,
        decide_eq_true_eq]
      omega
    have hneg : Word64.neg? (Int64.ofNat (m + 1)) = some n := by
      have hopposite : -((m + 1 : Nat) : Int) = n.toInt := by omega
      rw [Word64.neg?, Int64.toInt_ofNat_of_lt hm, hopposite, Word64.ofInt?, if_pos hfits,
        Int64.ofInt_toInt]
    rw [htext]
    exact (spelledAs_negative hm).imp fun _ hkinds => .inr ⟨_, hneg, hkinds⟩

/-! ### Names and reserved words -/

theorem isNameContinue_of_isNameStart (h : isNameStart c = true) : isNameContinue c = true := by
  simp only [isNameStart, isNameContinue, Char.isAlphanum, Bool.or_eq_true] at h ⊢
  exact h.imp_left .inl

theorem isDigit_of_isNameStart (h : isNameStart c = true) : c.isDigit = false := by
  rcases Bool.or_eq_true_iff.1 h with halpha | hunderscore
  · delta Char.isAlpha Char.isUpper Char.isLower at halpha
    delta Char.isDigit
    grind
  · rw [eq_of_beq hunderscore]
    rfl

theorem scanToken_name (hfirst : isNameStart first = true)
    (hrest : ∀ c ∈ rest, isNameContinue c = true)
    (htail : ∀ c ∈ tail.head?, isNameContinue c = false)
    (hquote : ∀ c ∈ tail.head?, isQuote c = false) :
    scanToken first (rest ++ tail) =
      .token (Token.Kind.ofWord (String.ofList (first :: rest))) rest.length := by
  obtain ⟨hsymbol, hpoint, hbang, hnoquote⟩ :=
    scanSymbol?_nameContinue (isNameContinue_of_isNameStart hfirst) (rest ++ tail)
  have hfollowing : isQuote ((rest ++ tail).headD ' ') = false := by
    cases rest with
    | nil =>
      cases tail with
      | nil => rfl
      | cons c tail => exact hquote c rfl
    | cons c rest => exact (scanSymbol?_nameContinue (hrest c (.head _)) []).2.2.2
  unfold scanToken
  dsimp only
  rw [hsymbol, takeWhile_append_stop hrest htail, hfollowing]
  simp [hpoint, hbang, hnoquote, isDigit_of_isNameStart hfirst, hfirst]

theorem ofWord_text (word : Word) : Token.Kind.ofWord word.text = .word word := by
  have hfound : Word.ofText? word.text = some word := by
    cases word <;> decide
  rw [Token.Kind.ofWord, hfound]

def isNameText : List Char → Bool
  | [] => false
  | first :: rest => isNameStart first && rest.all isNameContinue

theorem isNameText_cons (h : isNameText text = true) : ∃ first rest,
    text = first :: rest ∧ isNameStart first = true ∧ ∀ c ∈ rest, isNameContinue c = true := by
  cases text with
  | nil => cases h
  | cons first rest =>
    rw [isNameText, Bool.and_eq_true, List.all_eq_true] at h
    exact ⟨first, rest, rfl, h⟩

/-- A text that names something: it has the form of a name and is not reserved. -/
def IsIdentifier (x : String) : Prop := isNameText x.toList = true ∧ Word.ofText? x = none

instance (x : String) : Decidable (IsIdentifier x) := inferInstanceAs (Decidable (_ ∧ _))

theorem spells_identifier {x : String} (hx : IsIdentifier x) {kinds : List Token.Kind}
    (hname : ∀ c ∈ tail.head?, isNameContinue c = false)
    (hquote : ∀ c ∈ tail.head?, isQuote c = false) (htail : Spells tail kinds) :
    Spells (x.toList ++ tail) (.name x :: kinds) := by
  obtain ⟨first, rest, hchars, hfirst, hrest⟩ := isNameText_cons hx.1
  rw [hchars]
  refine .token ?_ htail
  rw [scanToken_name hfirst hrest hname hquote, ← hchars, String.ofList_toList,
    Token.Kind.ofWord, hx.2]

theorem IsIdentifier.head {x : String} (hx : IsIdentifier x) (tail : List Char) :
    ∀ c ∈ (x.toList ++ tail).head?, isBlank c = false ∧ c.isDigit = false := by
  obtain ⟨first, rest, hchars, hfirst, -⟩ := isNameText_cons hx.1
  rw [hchars]
  intro c hc
  cases hc
  have hblank := not_mem_of_nameContinue (isNameContinue_of_isNameStart hfirst) [' ', '\t', '\r'] rfl
  exact ⟨by simpa [isBlank, and_assoc] using hblank, isDigit_of_isNameStart hfirst⟩

theorem spelledAs_word (word : Word) : SpelledAs word.text.toList (· = [.word word]) := by
  have hname : isNameText word.text.toList = true := by
    cases word <;> decide
  obtain ⟨first, rest, htext, hfirst, hrest⟩ := isNameText_cons hname
  rw [htext]
  refine spelledAs_token fun tail htail => ?_
  rw [scanToken_name hfirst hrest (htail.head_eq_false rfl) (htail.head_eq_false rfl), ← htext,
    String.ofList_toList, ofWord_text]

/-! ### Items -/

def joined : List (List Char) → List Char
  | [] => []
  | text :: texts => text ++ texts.flatMap fun text => ',' :: ' ' :: text

theorem intercalate_eq_joined : ∀ texts : List (List Char), [',', ' '].intercalate texts = joined texts
  | [] => rfl
  | [text] => by simp [joined, List.intercalate]
  | text :: text' :: texts => by
    have ih := intercalate_eq_joined (text' :: texts)
    simp only [List.intercalate, List.intersperse, List.flatten_cons, joined, List.flatMap_cons] at ih ⊢
    rw [ih]
    simp

section Items

variable {α : Type} {item : α → List Token.Kind → Prop} {texts : List (List Char)} {as : List α}
  {kinds : List Token.Kind}

theorem Closes.commas (texts : List (List Char)) (h : Closes tail) :
    Closes (texts.flatMap (fun text => ',' :: ' ' :: text) ++ tail) := by
  cases texts with
  | nil => exact h
  | cons text texts =>
    intro c hc
    cases hc
    exact .inl rfl

theorem spells_commas (h : List.Forall₂ (fun text a => SpelledAs text (item a)) texts as)
    (htail : Closes tail) (hspells : Spells tail kinds) : ∃ own, List.Forall₂ item as own ∧
      Spells (texts.flatMap (fun text => ',' :: ' ' :: text) ++ tail) (behindCommas own ++ kinds) := by
  induction h with
  | nil => exact ⟨[], .nil, hspells⟩
  | @cons text a texts as hitem _ ih =>
    obtain ⟨more, hmore, hbehind⟩ := ih
    obtain ⟨own, hown, hfront⟩ := hitem _ _ (htail.commas texts) hbehind
    have hcomma : IsMark ',' .comma := ⟨rfl, by decide, fun _ => rfl⟩
    refine ⟨own :: more, .cons hown hmore, ?_⟩
    simpa [behindCommas] using hcomma.spells (.blank (c := ' ') rfl hfront)

theorem spelledAs_brackets {left right : Char} {opening closing : Symbol}
    (hleft : IsMark left opening) (hright : IsMark right closing) (hcloses : Closes [right])
    (h : List.Forall₂ (fun text a => SpelledAs text (item a)) texts as) :
    SpelledAs (left :: (joined texts ++ [right])) fun kinds => ∃ own, List.Forall₂ item as own ∧
      kinds = .symbol opening :: (separated own ++ [.symbol closing]) := by
  intro tail kinds _ hspells
  have htail : Closes (right :: tail) := hcloses
  have hclose := hright.spells hspells
  obtain ⟨own, hown, hinside⟩ : ∃ own, List.Forall₂ item as own ∧
      Spells (joined texts ++ right :: tail) (separated own ++ .symbol closing :: kinds) := by
    cases h with
    | nil => exact ⟨[], .nil, hclose⟩
    | @cons text a texts as hitem hitems =>
      obtain ⟨more, hmore, hbehind⟩ := spells_commas hitems htail hclose
      obtain ⟨own, hown, hfront⟩ := hitem _ _ (htail.commas texts) hbehind
      exact ⟨own :: more, .cons hown hmore, by simpa [joined, separated] using hfront⟩
  exact ⟨_, ⟨own, hown, rfl⟩, by simpa using hleft.spells hinside⟩

theorem spelledAs_entry (key : String) {P : List Token.Kind → Prop} (h : SpelledAs text P) :
    SpelledAs ((quoted key).toList ++ ':' :: ' ' :: text) fun kinds =>
      ∃ own, P own ∧ kinds = .str key :: .symbol .colon :: own := by
  intro tail kinds htail hspells
  obtain ⟨own, hown, hvalue⟩ := h tail kinds htail hspells
  have hcolon : IsMark ':' .colon := ⟨rfl, by decide, fun _ => rfl⟩
  refine ⟨_, ⟨own, hown, rfl⟩, ?_⟩
  simpa using spells_quoted key (hcolon.spells (.blank (c := ' ') rfl hvalue))

end Items

end Scripting
