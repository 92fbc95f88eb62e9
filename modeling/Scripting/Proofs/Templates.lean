/-
# F-strings and templates

`f"{x:spec}"` and `"{:spec}".format(x)` show a value in a format. They find the format
with different scanners: a field of an f-string ends at the first brace outside its
quotes and brackets, those of the format included, a field of a template at the first
brace there is. So they agree on the formats whose quotes and brackets are closed, and
on no other is the f-string a script.
-/
import Scripting.Proofs.FStrings
import Scripting.Proofs.RoundTrip.Reading
import Scripting.Proofs.Separators

namespace Scripting

variable {c : Char} {text : List Char}

/-! ### Names -/

theorem isSpace_of_isNameContinue (h : isNameContinue c = true) :
    Text.isSpace c = false := by
  delta isNameContinue Char.isAlphanum Char.isAlpha Char.isUpper Char.isLower Char.isDigit at h
  simp only [Bool.or_eq_true, Bool.and_eq_true, decide_eq_true_eq, beq_iff_eq,
    UInt32.le_iff_toNat_le, ge_iff_le] at h
  have hrange : 48 ≤ c.toNat ∧ c.toNat ≤ 122 := by
    rcases h with ((h | h) | h) | rfl
    · simp at h; omega
    · simp at h; omega
    · simp at h; omega
    · decide
  simp [Text.isSpace]
  omega

theorem trim_of_not_isSpace (h : ∀ c ∈ text, Text.isSpace c = false) :
    Text.trim Text.isSpace text = text := by
  have hstay {text : List Char} (h : ∀ c ∈ text, Text.isSpace c = false) :
      text.dropWhile Text.isSpace = text := by
    cases text with
    | nil => rfl
    | cons c text => exact List.dropWhile_cons_of_neg (by simp [h c])
  rw [Text.trim, Text.trimStart, Text.trimEnd, hstay h, hstay (by simpa using h),
    List.reverse_reverse]

theorem isPlain_of_isNameContinue (h : isNameContinue c = true) : isPlain c = true := by
  have hother := not_mem_of_nameContinue h ['\'', '"', '(', '[', '\x7b', ')', ']', '\x7d'] rfl
  simpa [isPlain] using hother

theorem IsIdentifier.isNameContinue {x : String} (hx : IsIdentifier x) :
    x.toList ≠ [] ∧ ∀ c ∈ x.toList, isNameContinue c = true := by
  obtain ⟨hform, -⟩ := hx
  cases hchars : x.toList with
  | nil => rw [hchars] at hform; cases hform
  | cons first rest =>
    rw [hchars, isNameText, Bool.and_eq_true, List.all_eq_true] at hform
    refine ⟨by simp, List.forall_mem_cons.2 ⟨isNameContinue_of_isNameStart hform.1, hform.2⟩⟩

theorem IsIdentifier.fieldSource {x : String} (hx : IsIdentifier x) : FieldSource x.toList := by
  have hchars := hx.isNameContinue.2
  generalize x.toList = text at hchars
  induction text with
  | nil => exact .nil
  | cons c text ih =>
    obtain ⟨hc, htext⟩ := List.forall_mem_cons.1 hchars
    have hother := not_mem_of_nameContinue hc [':', '!'] rfl
    simp only [List.mem_cons, List.not_mem_nil, or_false, not_or] at hother
    exact .plain (isPlain_of_isNameContinue hc) hother.1 hother.2 (ih htext)

/-! ### Closed texts -/

/-- Texts with their quotes and brackets closed, though closing brackets may stand alone. -/
inductive Closed : List Char → Prop
  | nil : Closed []
  | other {c : Char} {rest : List Char} (hc : c ∉ ['\'', '"', '(', '[', '\x7b']) (h : Closed rest) :
      Closed (c :: rest)
  | quoted {q : Char} {body rest : List Char} (hq : q ∈ ['\'', '"']) (hbody : q ∉ body)
      (h : Closed rest) : Closed (q :: (body ++ [q]) ++ rest)
  | bracketed {o c : Char} {inner rest : List Char} (ho : o ∈ ['(', '[', '\x7b'])
      (hc : c ∈ [')', ']', '\x7d']) (hinner : BalancedText inner) (h : Closed rest) :
      Closed (o :: (inner ++ [c]) ++ rest)

namespace FieldScan

def past (s : FieldScan) (text : List Char) : FieldScan := text.foldl (fun s c => (s.feed c).1) s

theorem past_cons (s : FieldScan) (c : Char) (text : List Char) :
    s.past (c :: text) = (s.feed c).1.past text := rfl

theorem past_append (s : FieldScan) (text text' : List Char) :
    s.past (text ++ text') = (s.past text).past text' := List.foldl_append

theorem Inside.past {s s' : FieldScan} {text : List Char} (h : Inside s text s') :
    s.past text = s' := by
  induction h with
  | nil => rfl
  | cons hfeed _ ih => rw [past_cons, hfeed, ih]

theorem feed_other (hc : c ∉ ['\'', '"', '(', '[', '\x7b']) :
    (start.feed c).1 = start := by
  simp only [List.mem_cons, List.not_mem_nil, or_false, not_or] at hc
  simp [feed, start, hc]

theorem past_closed (h : Closed text) : start.past text = start := by
  induction h with
  | nil => rfl
  | other hc _ ih => rw [past_cons, feed_other hc, ih]
  | quoted hq hbody _ ih => rw [past_append, start, (inside_quoted hq hbody 0).past]; exact ih
  | bracketed ho hc hinner _ ih => rw [past_append, (inside_bracketed ho hc hinner).past, ih]

theorem exists_of_past_quote {q : Char} {depth : Nat} {s : FieldScan} (hs : s.quote = none) :
    ∀ {text : List Char}, past ⟨depth, some q⟩ text = s →
    ∃ body rest, text = body ++ [q] ++ rest ∧ q ∉ body ∧ past ⟨depth, none⟩ rest = s
  | [], h => by
    rw [← h] at hs
    cases hs
  | c :: text, h => by
    by_cases hc : c = q
    · rw [hc, past_cons, feed_endQuote] at h
      exact ⟨[], text, by simp [hc], by simp, h⟩
    · rw [past_cons, feed_inQuote hc] at h
      obtain ⟨body, rest, rfl, hbody, hrest⟩ := exists_of_past_quote hs h
      exact ⟨c :: body, rest, by simp, by simp [Ne.symm hc, hbody], hrest⟩

theorem char_cases (c : Char) : isPlain c = true ∨ c ∈ ['\'', '"'] ∨ c ∈ ['(', '[', '\x7b'] ∨
    c ∈ [')', ']', '\x7d'] := by
  simp only [isPlain, List.contains_eq_mem, List.mem_cons, List.not_mem_nil, or_false,
    Bool.not_eq_true', decide_eq_false_iff_not]
  tauto

theorem exists_of_past_bracket {depth : Nat} {s : FieldScan} {text : List Char}
    (hs : s.quote = none) (hdepth : s.depth ≤ depth) (h : past ⟨depth + 1, none⟩ text = s) :
    ∃ inner c rest, text = inner ++ [c] ++ rest ∧ BalancedText inner ∧ c ∈ [')', ']', '\x7d'] ∧
      past ⟨depth, none⟩ rest = s := by
  match text with
  | [] =>
    rw [← h] at hdepth
    change depth + 1 ≤ depth at hdepth
    omega
  | c :: text =>
    rcases char_cases c with hc | hc | hc | hc
    · rw [past_cons, feed_plain hc] at h
      obtain ⟨inner, c', rest, rfl, hinner, hc', hrest⟩ := exists_of_past_bracket hs hdepth h
      exact ⟨c :: inner, c', rest, by simp, .plain hc hinner, hc', hrest⟩
    · rw [past_cons, feed_quote hc] at h
      obtain ⟨body, more, rfl, hbody, hmore⟩ := exists_of_past_quote hs h
      obtain ⟨inner, c', rest, rfl, hinner, hc', hrest⟩ := exists_of_past_bracket hs hdepth hmore
      exact ⟨c :: (body ++ [c]) ++ inner, c', rest, by simp, .quoted hc hbody hinner, hc', hrest⟩
    · rw [past_cons, feed_opens hc] at h
      obtain ⟨within, c', more, rfl, hwithin, hc', hmore⟩ :=
        exists_of_past_bracket hs (Nat.le_succ_of_le hdepth) h
      obtain ⟨inner, c'', rest, rfl, hinner, hc'', hrest⟩ := exists_of_past_bracket hs hdepth hmore
      exact ⟨c :: (within ++ [c']) ++ inner, c'', rest, by simp,
        .bracketed hc hc' hwithin hinner, hc'', hrest⟩
    · rw [past_cons, feed_closes hc] at h
      exact ⟨[], c, text, by simp, .nil, hc, h⟩
termination_by text.length

/-- The texts that the scan leaves outside all quotes and brackets are the closed ones. -/
theorem closed_of_past {text : List Char} (h : start.past text = start) : Closed text := by
  match text with
  | [] => exact .nil
  | c :: text =>
    rcases char_cases c with hc | hc | hc | hc
    · have hother : c ∉ ['\'', '"', '(', '[', '\x7b'] := by
        simp [isPlain] at hc
        simp [hc]
      rw [past_cons, feed_other hother] at h
      exact .other hother (closed_of_past h)
    · rw [past_cons, start, feed_quote hc] at h
      obtain ⟨body, rest, rfl, hbody, hrest⟩ := exists_of_past_quote rfl h
      exact .quoted hc hbody (closed_of_past hrest)
    · rw [past_cons, start, feed_opens hc] at h
      obtain ⟨inner, c', rest, rfl, hinner, hc', hrest⟩ :=
        exists_of_past_bracket rfl (Nat.le_refl 0) h
      exact .bracketed hc hc' hinner (closed_of_past hrest)
    have hother : c ∉ ['\'', '"', '(', '[', '\x7b'] := by
      simp only [List.mem_cons, List.not_mem_nil, or_false] at hc
      rcases hc with rfl | rfl | rfl <;> decide
    rw [past_cons, feed_other hother] at h
    exact .other hother (closed_of_past h)
termination_by text.length

theorem past_eq_start_iff : start.past text = start ↔ Closed text :=
  ⟨closed_of_past, past_closed⟩

deriving instance DecidableEq for FieldScan

instance (text : List Char) : Decidable (Closed text) := decidable_of_iff _ past_eq_start_iff

theorem quote_feed {s : FieldScan} (hs : ∀ q ∈ s.quote, q ∈ ['\'', '"']) (c : Char) :
    ∀ q ∈ (s.feed c).1.quote, q ∈ ['\'', '"'] := by
  unfold feed
  split
  next q hq =>
    split
    · simp
    · exact hs
  next hq =>
    split
    next hc => simpa using hc
    · split
      · exact hs
      · split <;> exact hs

theorem quote_past : ∀ (text : List Char) {s : FieldScan}, (∀ q ∈ s.quote, q ∈ ['\'', '"']) →
    ∀ q ∈ (s.past text).quote, q ∈ ['\'', '"']
  | [], _, hs => hs
  | c :: text, _, hs => quote_past text (quote_feed hs c)

end FieldScan

/-! ### The f-string -/

section FString

variable {x : String} {spec : List Char}

theorem splitFrom_past (rest : List Char) : ∀ {text : List Char}, '\x7d' ∉ text →
    ∀ (read : List Char) (s : FieldScan), Piece.splitFrom (.field read s) (text ++ rest) =
      Piece.splitFrom (.field (text.reverse ++ read) (s.past text)) rest
  | [], _, _, _ => rfl
  | c :: text, h, read, s => by
    have hne : c ≠ '\x7d' := fun heq => h (by simp [heq])
    have htext : '\x7d' ∉ text := fun hmem => h (by simp [hmem])
    rw [List.cons_append, Piece.splitFrom, FieldScan.past_cons]
    simpa [hne] using splitFrom_past rest htext (c :: read) (s.feed c).1

/-- A brace within quotes or brackets does not end a field. -/
theorem splitFrom_unclosed {s : FieldScan} (hs : s ≠ .start)
    (hquote : ∀ q ∈ s.quote, q ∈ ['\'', '"']) (read : List Char) :
    Piece.splitFrom (.field read s) ['\x7d'] = ([], some .unclosedField) := by
  obtain ⟨s', hfeed⟩ : ∃ s', s.feed '\x7d' = (s', false) := by
    obtain ⟨depth, quote⟩ := s
    cases quote with
    | some q =>
      have hne : '\x7d' ≠ q := by
        rintro rfl
        exact absurd (hquote _ rfl) (by decide)
      exact ⟨_, FieldScan.feed_inQuote hne depth⟩
    | none =>
      cases depth with
      | zero => exact absurd rfl hs
      | succ depth => exact ⟨_, FieldScan.feed_closes (by decide) depth⟩
  rw [Piece.splitFrom, hfeed]
  rfl

theorem split_nameField (hx : IsIdentifier x) (hspec : '\x7d' ∉ spec) :
    Piece.split ('\x7b' :: (x.toList ++ ':' :: (spec ++ ['\x7d']))) =
      Piece.splitFrom (.field (spec.reverse ++ ':' :: x.toList.reverse) (FieldScan.start.past spec))
        ['\x7d'] := by
  have hhead : (x.toList ++ ':' :: (spec ++ ['\x7d'])).head? ≠ some '\x7b' := by
    obtain ⟨hne, hname⟩ := hx.isNameContinue
    obtain ⟨c, rest, hchars⟩ := List.exists_cons_of_ne_nil hne
    rw [hchars] at hname ⊢
    intro hc
    obtain rfl : c = '\x7b' := by simpa using hc
    exact absurd (hname '\x7b' (by simp)) (by decide)
  rw [Piece.split, splitFrom_open hhead, hx.fieldSource.passed.field, splitFrom_plain_cons rfl,
    splitFrom_past _ hspec, List.append_nil]
  rfl

theorem split_nameField_closed (hx : IsIdentifier x) (hspec : '\x7d' ∉ spec)
    (hclosed : Closed spec) :
    Piece.split ('\x7b' :: (x.toList ++ ':' :: (spec ++ ['\x7d']))) =
      ([.field (x.toList ++ ':' :: spec)], none) := by
  rw [split_nameField hx hspec, FieldScan.past_closed hclosed, Piece.splitFrom]
  simp [FieldScan.start, FieldScan.feed, Piece.splitFrom, Piece.literal]

theorem split_nameField_unclosed (hx : IsIdentifier x) (hspec : '\x7d' ∉ spec)
    (hclosed : ¬ Closed spec) :
    Piece.split ('\x7b' :: (x.toList ++ ':' :: (spec ++ ['\x7d']))) =
      ([], some .unclosedField) := by
  rw [split_nameField hx hspec]
  refine splitFrom_unclosed (fun h => hclosed (FieldScan.closed_of_past h)) ?_ _
  exact FieldScan.quote_past spec (by simp [FieldScan.start])

theorem split_fieldText (hx : IsIdentifier x) :
    FieldText.split (x.toList ++ ':' :: spec) = ⟨x.toList, none, some spec⟩ := by
  rw [FieldText.split, hx.fieldSource.passed.source, FieldText.splitFrom]
  simp [FieldScan.start, FieldScan.feed]

theorem readsSource_identifier (hx : IsIdentifier x) (pos : Position) :
    Grammar.ReadsSource pos x.toList (.name pos x) := by
  obtain ⟨hne, hname⟩ := hx.isNameContinue
  have htrim := trim_of_not_isSpace fun c hc => isSpace_of_isNameContinue (hname c hc)
  have hline : Spells (x.toList ++ []) [.name x] := spells_identifier hx (by simp) (by simp) .nil
  obtain ⟨found, q, hkinds, htokens⟩ := hline.tokenizeAt (fun c hc => (hx.head _ c hc).1) pos
  obtain rfl := List.map_eq_nil_iff.1 hkinds
  rw [List.append_nil] at htokens
  refine ⟨by simpa [htrim] using hne, _, 40, [⟨.eof, q⟩], by rw [htrim]; exact htokens, rfl⟩

theorem toList_nameField (x spec : String) : ("\x7b" ++ x ++ ":" ++ spec ++ "\x7d").toList =
    '\x7b' :: (x.toList ++ ':' :: (spec.toList ++ ['\x7d'])) := by
  simp [String.toList_append]

end FString

namespace Grammar

open Parse

section Field

variable {x spec : String} {pos : Position} {rest : List Token} {bound : Nat}

theorem primary_nameField (hx : IsIdentifier x) (hspec : '\x7d' ∉ spec.toList)
    (hclosed : Closed spec.toList) (hrest : rest ≠ [])
    (hbound : Token.weight ⟨.fstr ("\x7b" ++ x ++ ":" ++ spec ++ "\x7d"), pos⟩ ≤ bound) :
    primary bound (⟨.fstr ("\x7b" ++ x ++ ":" ++ spec ++ "\x7d"), pos⟩ :: rest) =
      .ok (.fstring pos [.field (.name pos x) false (some spec)]) rest := by
  have hlength : x.toList.length + 3 ≤ ("\x7b" ++ x ++ ":" ++ spec ++ "\x7d").length := by
    rw [← String.length_toList, toList_nameField]
    simp
  dsimp only [Token.weight] at hbound
  obtain ⟨b, rfl⟩ : ∃ b, bound = b + 3 := ⟨bound - 3, by omega⟩
  let field : FieldText := ⟨x.toList, none, some spec.toList⟩
  have hfield : fstringField (b + 1) pos field rest =
      .ok (.field (.name pos x) false (field.spec.map String.ofList)) rest :=
    fstringField_of_readsSource (readsSource_identifier hx pos) rfl (by dsimp only [field]; omega)
  have hparts : fstringParts (b + 2) pos [.field (x.toList ++ ':' :: spec.toList)] rest =
      .ok [.field (.name pos x) false (some spec)] rest := by
    rw [fstringParts, split_fieldText hx, bind_of_ok hfield]
    dsimp only [field, Option.map_some]
    rw [String.ofList_toList]
    rfl
  rw [primary, bind_peek]
  dsimp only [Token.front]
  rw [bind_advance, Token.behind_cons hrest, toList_nameField,
    split_nameField_closed hx hspec hclosed]
  dsimp only
  rw [bind_of_ok hparts]
  rfl

theorem primary_nameField_unclosed (hx : IsIdentifier x) (hspec : '\x7d' ∉ spec.toList)
    (hclosed : ¬ Closed spec.toList) (hrest : rest ≠ []) (hbound : 2 ≤ bound) :
    primary bound (⟨.fstr ("\x7b" ++ x ++ ":" ++ spec ++ "\x7d"), pos⟩ :: rest) =
      .error ⟨.unclosedField, pos⟩ rest := by
  obtain ⟨b, rfl⟩ : ∃ b, bound = b + 2 := ⟨bound - 2, by omega⟩
  rw [primary, bind_peek]
  dsimp only [Token.front]
  rw [bind_advance, Token.behind_cons hrest, toList_nameField,
    split_nameField_unclosed hx hspec hclosed]
  rfl

end Field

/-- The tokens of a line with an f-string alone. -/
def fstringLine (body : String) (pos q : Position) : List Token :=
  [⟨.fstr body, pos⟩, ⟨.newline, q⟩, ⟨.eof, q⟩]

section Line

variable {body : String} {pos q : Position} {bound : Nat} {e : Expr} {d : Diagnostic}

theorem expr_fstring
    (h : primary (bound + 1) (fstringLine body pos q) = .ok e [⟨.newline, q⟩, ⟨.eof, q⟩]) :
    expr (bound + 17) (fstringLine body pos q) = .ok e [⟨.newline, q⟩, ⟨.eof, q⟩] := by
  unfold fstringLine at *
  simp [expr, conditional, chain, chainRest, operand, negation, signed, power, applied, trailers, h,
    Level.operator, Level.connective?, Parse.bind, bind, pure, Parse.pure,
    check, accept, here, peek, Token.front, Token.Kind.same]

theorem expr_fstring_error {rest : List Token}
    (h : primary (bound + 1) (fstringLine body pos q) = .error d rest) :
    expr (bound + 17) (fstringLine body pos q) = .error d rest := by
  unfold fstringLine at *
  simp [expr, conditional, chain, operand, negation, signed, power, applied, h, Parse.bind, bind,
    check, accept, here, Token.front, Token.Kind.same]

theorem bound_fstringLine (body : String) (pos q : Position) :
    Grammar.bound (fstringLine body pos q) = Token.weight ⟨.fstr body, pos⟩ + 174 + 17 + 1 := by
  rw [fstringLine, bound_cons]
  rfl

theorem program_fstring (h : ∀ bound, Token.weight ⟨.fstr body, pos⟩ ≤ bound →
      primary bound (fstringLine body pos q) = .ok e [⟨.newline, q⟩, ⟨.eof, q⟩]) :
    program (fstringLine body pos q) = .ok [.expr e] := by
  have hexpr := expr_fstring (h (Token.weight ⟨.fstr body, pos⟩ + 174 + 1) (by omega))
  have hsimple : simpleStmt (Token.weight ⟨.fstr body, pos⟩ + 174 + 17) .top
      (fstringLine body pos q) = .ok (.expr e) [⟨.newline, q⟩, ⟨.eof, q⟩] := by
    change exprOrAssign _ _ = _
    unfold exprOrAssign
    rw [bind_here, bind_of_ok (exprList_of_expr hexpr rfl)]
    rfl
  have hstmt : stmt (Grammar.bound (fstringLine body pos q)) .top (fstringLine body pos q) =
      .ok (.expr e) [⟨.eof, q⟩] := by
    rw [bound_fstringLine, stmt, bind_peek]
    change (simpleStmt _ .top >>= _) _ = _
    rw [bind_of_ok hsimple]
    rfl
  exact program_eq_ok_iff.2 ⟨1, by simp [fstringLine], .statement rfl hstmt (.eof rfl)⟩

theorem program_fstring_error (h : ∀ bound, 2 ≤ bound →
      primary bound (fstringLine body pos q) = .error d [⟨.newline, q⟩, ⟨.eof, q⟩]) :
    program (fstringLine body pos q) = .error [d] := by
  have hexpr := expr_fstring_error (h (Token.weight ⟨.fstr body, pos⟩ + 174 + 1) (by omega))
  have hstmt : stmt (Grammar.bound (fstringLine body pos q)) .top (fstringLine body pos q) =
      .error d [⟨.newline, q⟩, ⟨.eof, q⟩] := by
    rw [bound_fstringLine, stmt, bind_peek]
    change simpleLine _ .top _ = _
    unfold fstringLine at *
    simp [simpleLine, simpleStmt, exprOrAssign, exprList, bind, Parse.bind, here, peek, Token.front,
      hexpr]
  have hend : skipLine [⟨.newline, q⟩, ⟨.eof, q⟩] = [⟨.eof, q⟩] := rfl
  have hfound (turns : Nat) : programFrom (Grammar.bound (fstringLine body pos q)) (turns + 2)
      (fstringLine body pos q) #[] #[] = some (#[], #[d]) := by
    rw [programFrom_succ (by simp [fstringLine, Token.front]), turn_of_isSolid rfl, hstmt]
    dsimp only
    rw [hend, programFrom_of_eof rfl]
    rfl
  unfold program
  rw [show (fstringLine body pos q).length + 1 = 2 + 2 from rfl, hfound]
  rfl

end Line

end Grammar

/-! ### The template -/

theorem templatePieces_field (rest : List Char) : ∀ {text : List Char}, '\x7d' ∉ text →
    ∀ read : List Char, templatePieces (some read) (text ++ '\x7d' :: rest) =
      .field (read.reverse ++ text) :: templatePieces none rest
  | [], _, read => by simp [templatePieces]
  | c :: text, h, read => by
    have hne : c ≠ '\x7d' := fun heq => h (by simp [heq])
    have htext : '\x7d' ∉ text := fun hmem => h (by simp [hmem])
    rw [List.cons_append, templatePieces, if_neg hne, templatePieces_field rest htext]
    simp

/-- A template of one field without a name is the argument in the field's format. -/
theorem Heap.fillTemplate_field (h : Heap) (v : Value) {spec : String}
    (hspec : '\x7d' ∉ spec.toList) :
    h.fillTemplate ("\x7b:" ++ spec ++ "\x7d") [v] .empty = h.format v spec := by
  have hpieces : templatePieces none ("\x7b:" ++ spec ++ "\x7d").toList =
      [.field (':' :: spec.toList)] := by
    have hfield : templatePieces (some []) (':' :: spec.toList ++ ['\x7d']) =
        [.field (':' :: spec.toList)] := templatePieces_field [] (by simpa using hspec) []
    rw [String.toList_append, String.toList_append]
    exact hfield
  have hsplit : splitField (':' :: spec.toList) = ([], spec.toList) := by simp [splitField]
  have hfill : h.fillPieces [v] .empty 0 [.field (':' :: spec.toList)] =
      (h.format v spec).map fun text => [text] := by
    rw [fillPieces, hsplit]
    change (do let text ← h.format v (String.ofList spec.toList); return [text]) = _
    rw [String.ofList_toList]
    cases h.format v spec <;> rfl
  rw [fillTemplate, hpieces, hfill]
  cases h.format v spec with
  | ok text => simp [Except.map, String.join]
  | error f => rfl

/-! ### Both in a session -/

/-- How an expression ends that is a value in a format, on a line. -/
def formatted (line : Nat) (v : Value) (spec : String) (w : World) : Outcome Value :=
  match w.heap.format v spec with
  | .ok text => .ok (.str text) w
  | .error f => .fault (f.atLine line) w

section Session

variable {env : Environment} {fuel : Nat} {x : String} {v : Value} {w : World}

theorem evalExpr_name (hv : w.heap.local? env.globals x = some v) (p : Position) :
    evalExpr env (fuel + 1) env.globals (.name p x) w = .ok v w := by
  have hlookup : w.heap.lookup env.globals x = some v := by
    obtain ⟨rest, hchain⟩ : ∃ rest, w.heap.chain env.globals = env.globals :: rest := by
      unfold Heap.chain
      cases env.globals.id with
      | zero => exact ⟨_, rfl⟩
      | succ bound =>
        rw [Heap.chainUpTo]
        split <;> exact ⟨_, rfl⟩
    rw [Heap.lookup, hchain, List.findSome?_cons, hv]
  have hview : Run.view (fun w => (w.heap.lookup env.globals x).or (w.modules.get? x)) w =
      .ok (some v) w := by
    rw [Run.view, hlookup]
    rfl
  rw [evalExpr.eq_def]
  dsimp only
  unfold resolveName
  rw [Run.bind_of_ok hview]
  rfl

theorem evalExpr_nameField (hv : w.heap.local? env.globals x = some v) (pos : Position)
    (spec : String) :
    evalExpr env (fuel + 2) env.globals (.fstring pos [.field (.name pos x) false (some spec)]) w =
      formatted pos.line v spec w := by
  rw [evalExpr.eq_def]
  dsimp only
  rw [formatParts]
  change Run.bind (Run.bind _ _) _ w = _
  unfold formatted Run.bind
  rw [evalExpr_name hv]
  change Run.bind (Run.bind (Run.atLine pos.line (Run.inspect fun h => h.format v spec)) _) _ w = _
  unfold Run.bind Run.atLine Run.inspect
  dsimp only
  cases w.heap.format v spec with
  | ok text =>
    change Outcome.ok (Value.str ("" ++ text)) w = .ok (.str text) w
    rw [String.empty_append]
  | error f => rfl

theorem evalExpr_format (hv : w.heap.local? env.globals x = some v) (pos p : Position)
    {spec : String} (hspec : '\x7d' ∉ spec.toList) :
    evalExpr env (fuel + 2) env.globals
        (.method pos (.str pos ("\x7b:" ++ spec ++ "\x7d")) "format" [.name p x] []) w =
      formatted pos.line v spec w := by
  have hname : evalExpr env (fuel + 1) env.globals (.name p x) w = .ok v w := evalExpr_name hv p
  have hcall : callMethod? (.str ("\x7b:" ++ spec ++ "\x7d")) "format" [v] .empty =
      some (TextMethod.format.run ("\x7b:" ++ spec ++ "\x7d") [v] .empty) :=
    TextMethod.callMethod?_eq rfl (fun _ => rfl) _
  have hobject : evalExpr env (fuel + 1) env.globals (.str pos ("\x7b:" ++ spec ++ "\x7d")) w =
      .ok (.str ("\x7b:" ++ spec ++ "\x7d")) w := by
    rw [evalExpr.eq_def]
    rfl
  have hargs : evalEach (evalExpr env (fuel + 1) env.globals) #[] [.name p x] w = .ok #[v] w := by
    rw [evalEach, Run.bind_of_ok hname]
    rfl
  have hkeywords : evalKeywords (evalExpr env (fuel + 1) env.globals) .empty [] w =
      .ok .empty w := rfl
  have hmember : Run.view (fun w =>
      memberFunction? w.heap (.str ("\x7b:" ++ spec ++ "\x7d")) "format") w = .ok none w := rfl
  rw [evalExpr.eq_def]
  dsimp only
  unfold evalMethod
  rw [Run.bind_of_ok hobject, Run.bind_of_ok hargs, Run.bind_of_ok hkeywords,
    Run.bind_of_ok hmember]
  dsimp only
  rw [hcall]
  unfold formatted TextMethod.run Run.atLine Run.inspect
  dsimp only
  rw [Heap.fillTemplate_field _ _ hspec]
  cases w.heap.format v spec <;> rfl

/-- A session that showed a value in a format, or failed to on its first line. -/
def Session.showing (s : Session) (token : CancelToken) (text : Except Fault String) :
    Except Failure Value × Session :=
  (match text with
    | .ok text => .ok (.str text)
    | .error f => .error (.fault (f.atLine 1)),
  { s with world :=
      { s.world with token := token, now := s.world.now + 1, depth := 0, handling := [] } })

theorem Session.eval_formatted {s : Session} {token : CancelToken}
    (htoken : ¬ token.hasFired s.world.now = true) {source spec : String} {e : Expr}
    (hparse : parse source = .ok [.expr e])
    (heval : ∀ w : World, w.heap = s.world.heap →
      evalExpr s.env stepBudget s.env.globals e w = formatted 1 v spec w) :
    s.eval token source = s.showing token (s.world.heap.format v spec) := by
  unfold Session.eval Session.run Session.showing
  let w := { s.world with token := token, depth := 0, handling := [] }
  have hrun : runProgram s.env stepBudget [.expr e] w =
      formatted 1 v spec { w with now := w.now + 1 } := by
    unfold runProgram
    exact (Run.bind_of_ok (checkpoint_of_not_hasFired htoken _ 1) _).trans (heval _ rfl)
  rw [hparse]
  dsimp only
  rw [hrun]
  unfold formatted
  dsimp only [w]
  cases s.world.heap.format v spec <;> rfl

end Session

section Source

variable {x spec : String}

theorem tokenize_fquoted (body : String) : ∃ q, tokenize ("f" ++ quoted body) =
    .ok (Grammar.fstringLine body .start q) := by
  obtain ⟨found, q, hkinds, htokens⟩ :=
    (spells_fquoted body).tokenizeAt (by simp [isBlank]) .start
  obtain rfl := List.map_eq_nil_iff.1 hkinds
  exact ⟨q, by rw [tokenize, String.toList_append]; exact htokens⟩

theorem parse_nameField (hx : IsIdentifier x) (hspec : '\x7d' ∉ spec.toList)
    (hclosed : Closed spec.toList) :
    parse ("f" ++ quoted ("\x7b" ++ x ++ ":" ++ spec ++ "\x7d")) =
      .ok [.expr (.fstring .start [.field (.name .start x) false (some spec)])] := by
  obtain ⟨q, htokens⟩ := tokenize_fquoted ("\x7b" ++ x ++ ":" ++ spec ++ "\x7d")
  unfold parse
  rw [htokens]
  exact Grammar.program_fstring fun bound hbound =>
    Grammar.primary_nameField hx hspec hclosed (by simp) hbound

theorem parse_nameField_unclosed (hx : IsIdentifier x) (hspec : '\x7d' ∉ spec.toList)
    (hclosed : ¬ Closed spec.toList) :
    parse ("f" ++ quoted ("\x7b" ++ x ++ ":" ++ spec ++ "\x7d")) =
      .error [⟨.unclosedField, .start⟩] := by
  obtain ⟨q, htokens⟩ := tokenize_fquoted ("\x7b" ++ x ++ ":" ++ spec ++ "\x7d")
  unfold parse
  rw [htokens]
  exact Grammar.program_fstring_error fun bound hbound =>
    Grammar.primary_nameField_unclosed hx hspec hclosed (by simp) hbound

theorem spells_format (s : String) {x : String} (hx : IsIdentifier x) :
    Spells ((quoted s).toList ++ ('.' :: ("format".toList ++ '(' :: (x.toList ++ [')']))))
      [.str s, .symbol .dot, .name "format", .symbol .leftParen, .name x, .symbol .rightParen] := by
  have hleft : IsMark '(' .leftParen := ⟨rfl, by decide, fun _ => rfl⟩
  have hright : IsMark ')' .rightParen := ⟨rfl, by decide, fun _ => rfl⟩
  have hname := spells_identifier hx (by simp; decide) (by simp; decide) (hright.spells .nil)
  have hmethod := spells_identifier (x := "format") (by decide) (by simp; decide) (by simp; decide)
    (hleft.spells hname)
  exact spells_quoted s (.char (scanToken_symbol rfl (by simp; rfl) (by simp)) hmethod)

theorem parse_format (template : String) (hx : IsIdentifier x) :
    ∃ p, parse (quoted template ++ ".format(" ++ x ++ ")") =
      .ok [.expr (.method .start (.str .start template) "format" [.name p x] [])] := by
  have hquote : isBlank (quoteFor template.toList) = false := by
    rcases eq_of_isQuote (isQuote_quoteFor template.toList) with h | h <;> rw [h] <;> rfl
  obtain ⟨found, q, hkinds, htokens⟩ :=
    (spells_format template hx).tokenizeAt (by simpa [quoted] using hquote) .start
  have hchars : (quoted template ++ ".format(" ++ x ++ ")").toList = (quoted template).toList ++
      ('.' :: ("format".toList ++ '(' :: (x.toList ++ [')']))) := by
    simp [String.toList_append]
  simp only [List.map_eq_cons_iff, List.map_eq_nil_iff] at hkinds
  obtain ⟨⟨_, p₂⟩, _, rfl, rfl, ⟨_, p₃⟩, _, rfl, rfl, ⟨_, p₄⟩, _, rfl, rfl, ⟨_, p₅⟩, _, rfl, rfl,
    ⟨_, p₆⟩, _, rfl, rfl, rfl⟩ := hkinds
  refine ⟨p₅, ?_⟩
  unfold parse tokenize
  rw [hchars, htokens]
  rfl

end Source

section Session

variable {s : Session} {token : CancelToken} {x spec : String} {v : Value}

theorem Session.local?_of_getVar (h : s.getVar x = .ok v) :
    s.world.heap.local? s.env.globals x = some v := by
  unfold Session.getVar at h
  split at h
  next _ hlocal => cases h; exact hlocal
  · cases h

theorem Session.eval_template (htoken : ¬ token.hasFired s.world.now = true) (hx : IsIdentifier x)
    (hv : s.getVar x = .ok v) (hspec : '\x7d' ∉ spec.toList) :
    s.eval token (quoted ("\x7b:" ++ spec ++ "\x7d") ++ ".format(" ++ x ++ ")") =
      s.showing token (s.world.heap.format v spec) := by
  obtain ⟨p, hparse⟩ := parse_format ("\x7b:" ++ spec ++ "\x7d") hx
  exact Session.eval_formatted htoken hparse fun w hw =>
    evalExpr_format (by rw [hw]; exact Session.local?_of_getVar hv) .start p hspec

theorem Session.eval_nameField (htoken : ¬ token.hasFired s.world.now = true) (hx : IsIdentifier x)
    (hv : s.getVar x = .ok v) (hspec : '\x7d' ∉ spec.toList) (hclosed : Closed spec.toList) :
    s.eval token ("f" ++ quoted ("\x7b" ++ x ++ ":" ++ spec ++ "\x7d")) =
      s.showing token (s.world.heap.format v spec) :=
  Session.eval_formatted htoken (parse_nameField hx hspec hclosed) fun w hw =>
    evalExpr_nameField (by rw [hw]; exact Session.local?_of_getVar hv) .start spec

theorem Session.eval_nameField_unclosed (token : CancelToken) (hx : IsIdentifier x)
    (hspec : '\x7d' ∉ spec.toList) (hclosed : ¬ Closed spec.toList) :
    s.eval token ("f" ++ quoted ("\x7b" ++ x ++ ":" ++ spec ++ "\x7d")) =
      (.error (.syntaxErrors [⟨.unclosedField, .start⟩]), s) := by
  unfold Session.eval
  rw [parse_nameField_unclosed hx hspec hclosed]

/-- A name in a format means the same in an f-string and as the argument of a template
with one field, if the quotes and brackets of the format are closed. If they are not, the
template still formats the value and the f-string is not a script. -/
theorem fstrings_agree_with_templates (htoken : ¬ token.hasFired s.world.now = true) (hx : IsIdentifier x)
    (hv : s.getVar x = .ok v) (hspec : '\x7d' ∉ spec.toList) :
    let fstring := "f" ++ quoted ("\x7b" ++ x ++ ":" ++ spec ++ "\x7d")
    let template := quoted ("\x7b:" ++ spec ++ "\x7d") ++ ".format(" ++ x ++ ")"
    (s.eval token template).1 =
        (match s.world.heap.format v spec with
        | .ok text => .ok (.str text)
        | .error f => .error (.fault (f.atLine 1))) ∧
      (Closed spec.toList → s.eval token fstring = s.eval token template) ∧
      (¬ Closed spec.toList →
        s.eval token fstring = (.error (.syntaxErrors [⟨.unclosedField, .start⟩]), s)) := by
  have htemplate := Session.eval_template htoken hx hv hspec
  refine ⟨congrArg Prod.fst htemplate, fun hclosed => ?_, fun hclosed => ?_⟩
  · exact (Session.eval_nameField htoken hx hv hspec hclosed).trans htemplate.symm
  · exact Session.eval_nameField_unclosed token hx hspec hclosed

end Session

theorem fstrings_agree_with_templates_centred :
    let s := (Session.build Sample.body {}).setVar "x" (.int 1)
    ¬ CancelToken.live.hasFired s.world.now = true ∧ IsIdentifier "x" ∧ s.getVar "x" = .ok (.int 1) ∧
    '\x7d' ∉ "*^5".toList ∧ Closed "*^5".toList ∧
    (s.eval .live ("f" ++ quoted ("\x7b" ++ "x" ++ ":" ++ "*^5" ++ "\x7d"))).1 =
      .ok (.str "**1**") := by
  intro s
  have htoken : ¬ CancelToken.live.hasFired s.world.now = true := Bool.false_ne_true
  have hx : IsIdentifier "x" := by decide
  have hv : s.getVar "x" = .ok (.int 1) := rfl
  have hspec : '\x7d' ∉ "*^5".toList := by decide
  have hclosed : Closed "*^5".toList := by decide
  have hformat : s.world.heap.format (.int 1) "*^5" = .ok "**1**" := by rfl
  obtain ⟨htemplate, hfstring, -⟩ := fstrings_agree_with_templates htoken hx hv hspec
  rw [hformat] at htemplate
  exact ⟨htoken, hx, hv, hspec, hclosed, (congrArg Prod.fst (hfstring hclosed)).trans htemplate⟩

/-- A quote as the fill of a format: the template pads, the f-string is not a script. -/
theorem fstring_rejects_quote_fill :
    let s := (Session.build Sample.body {}).setVar "x" (.int 1)
    (s.eval .live (quoted ("\x7b:" ++ "'>5" ++ "\x7d") ++ ".format(" ++ "x" ++ ")")).1 =
      .ok (.str "''''1") ∧
    (s.eval .live ("f" ++ quoted ("\x7b" ++ "x" ++ ":" ++ "'>5" ++ "\x7d"))).1 =
      .error (.syntaxErrors [⟨.unclosedField, .start⟩]) := by
  intro s
  have hx : IsIdentifier "x" := by decide
  have hspec : '\x7d' ∉ "'>5".toList := by decide
  have hformat : s.world.heap.format (.int 1) "'>5" = .ok "''''1" := by rfl
  constructor
  · rw [Session.eval_template (by decide) hx (rfl : s.getVar "x" = .ok (.int 1)) hspec, hformat]
    rfl
  · rw [Session.eval_nameField_unclosed .live hx hspec (by decide)]

end Scripting
