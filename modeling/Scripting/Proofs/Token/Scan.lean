/-
# Where a token ends

A token stands within a line (`scanToken_isSolid`). A scan takes characters from the front of
its text and never more than there are, also where it finds something wrong
(`scanToken_within`). Whether and where a token ends can be told without what comes behind the
line: a newline ends a name, a number and a symbol, and a text in quotes ends before it. A carriage
return at the end of a text does the same (`scanToken_append`).
-/
import Scripting.Token.Scan

namespace Scripting

variable {more : Nat} {rest text : List Char} {kind : Token.Kind} {first : Char}

def Token.Kind.isSolid : Token.Kind → Bool
  | .newline | .indent | .dedent | .eof => false
  | _ => true

theorem Token.Kind.isSolid_ofWord (text : String) : (Token.Kind.ofWord text).isSolid = true := by
  unfold Token.Kind.ofWord
  split <;> rfl

/-! ### The kinds of tokens -/

/-- What a scan can find: which of the kinds of tokens stands at the front of the text. -/
inductive TokenScan (first : Char) (rest : List Char) : Scan → Prop
  | number (h : first = '.' ∨ first.isDigit = true) :
      TokenScan first rest (scanNumber (first :: rest))
  | symbol {s : Symbol} {more : Nat} (h : scanSymbol? first rest = some (s, more)) :
      TokenScan first rest (.token (.symbol s) more)
  | bang : TokenScan first rest (.error .loneBang 0 0)
  | text : TokenScan first rest (scanQuoted first 0 .str rest)
  | fields {c : Char} {body : List Char} (h : rest = c :: body) :
      TokenScan first rest (scanQuoted c 1 .fstr body)
  | name : TokenScan first rest
      (.token (.ofWord (String.ofList (first :: rest.takeWhile isNameContinue)))
        (rest.takeWhile isNameContinue).length)
  | unknown : TokenScan first rest (.error (.unexpectedCharacter first) 0 0)

theorem scanToken_cases (first : Char) (rest : List Char) :
    TokenScan first rest (scanToken first rest) := by
  unfold scanToken
  dsimp only
  split
  next hpoint => exact .number (.inl (by simp_all))
  · split
    next hsymbol => exact .symbol hsymbol
    · split
      · exact .bang
      split
      · exact .text
      split
      next hfields =>
        cases rest with
        | nil => simp [isQuote] at hfields
        | cons c body => exact .fields rfl
      · split
        next hdigit => exact .number (.inr hdigit)
        · split
          · exact .name
          · exact .unknown

theorem scanNumber_isSolid (h : scanNumber text = .token kind more) :
    kind.isSolid = true ∧ ∀ s : String, kind ≠ .fstr s := by
  unfold scanNumber at h
  dsimp only at h
  split at h
  · cases h
    exact ⟨rfl, nofun⟩
  · split at h <;> cases h
    exact ⟨rfl, nofun⟩

theorem scanQuoted_kind {quote : Char} {opening : Nat} {literal : String → Token.Kind}
    {body : List Char} (h : scanQuoted quote opening literal body = .token kind more) :
    ∃ text length,
      scanString quote 0 [] none body = .closed text none length ∧
      kind = literal (String.ofList text) ∧ more = opening + length := by
  unfold scanQuoted at h
  split at h <;> cases h
  next text length hclosed => exact ⟨text, length, hclosed, rfl, rfl⟩

theorem scanToken_isSolid (h : scanToken first rest = .token kind more) : kind.isSolid = true := by
  have hcases := scanToken_cases first rest
  generalize scanToken first rest = scan at h hcases
  cases hcases with
  | number => exact (scanNumber_isSolid h).1
  | symbol => cases h; rfl
  | text | fields =>
    obtain ⟨text, length, -, rfl, -⟩ := scanQuoted_kind h
    rfl
  | name => cases h; exact Token.Kind.isSolid_ofWord _
  | bang | unknown => cases h

def symbolStarts : List Char :=
  ['+', '-', '%', '*', '/', '=', '<', '>', '!', ':', ',', '.', '(', ')', '[', ']', '\x7b', '\x7d']

theorem scanSymbol?_eq_none {c : Char} (h : c ∉ symbolStarts) (rest : List Char) :
    scanSymbol? c rest = none := by
  have hlong (c' : Char) : longSymbol? c c' = none := by
    unfold longSymbol?
    split <;> simp_all [symbolStarts]
  have hshort : shortSymbol? c = none := by
    unfold shortSymbol?
    split <;> simp_all [symbolStarts]
  unfold scanSymbol?
  cases rest with
  | nil => simp [hshort]
  | cons c' rest => simp [hlong, hshort]

/-- Where a token stands there is no blank space, no comment, and neither the end nor
the continuation of a line. -/
theorem first_of_scanToken (h : scanToken first rest = .token kind more) :
    first ≠ ' ' ∧ first ≠ '\t' ∧ first ≠ '\r' ∧ first ≠ '\n' ∧ first ≠ '#' ∧ first ≠ '\\' := by
  refine ⟨?_, ?_, ?_, ?_, ?_, ?_⟩ <;>
  · rintro rfl
    unfold scanToken at h
    rw [scanSymbol?_eq_none (by decide)] at h
    cases h

/-! ### How far a token reaches -/

theorem append_prefix_of_drop {read more : List Char} (h : read <+: text)
    (h' : more <+: text.drop read.length) : read ++ more <+: text := by
  obtain ⟨tail, rfl⟩ := h
  rw [List.drop_left] at h'
  exact (List.prefix_append_right_inj read).2 h'

namespace NumberText

theorem isPrefix_exponentPart (text : List Char) : exponentPart text <+: text := by
  unfold exponentPart
  split
  next e c rest =>
    have hdigits : e :: c :: rest.takeWhile Char.isDigit <+: e :: c :: rest :=
      List.cons_prefix_cons.2 ⟨rfl, List.cons_prefix_cons.2 ⟨rfl, List.takeWhile_prefix _⟩⟩
    split
    · split
      · exact hdigits
      · split
        · exact hdigits
        · exact List.nil_prefix
    · exact List.nil_prefix
  · exact List.nil_prefix

theorem isPrefix_fractionPart (text : List Char) : fractionPart text <+: text := by
  unfold fractionPart
  split
  next c rest =>
    split
    · exact List.cons_prefix_cons.2 ⟨rfl, List.cons_prefix_cons.2 ⟨rfl, List.takeWhile_prefix _⟩⟩
    · exact List.nil_prefix
  · exact List.nil_prefix

theorem isPrefix_text_read (text : List Char) : (read text).text <+: text := by
  unfold read NumberText.text
  split
  next rest =>
    have hdigits := List.takeWhile_prefix (l := rest) fun c => c.isDigit || c == '_'
    exact List.cons_prefix_cons.2 ⟨rfl, append_prefix_of_drop hdigits (isPrefix_exponentPart _)⟩
  · have hwhole := List.takeWhile_prefix (l := text) fun c => c.isDigit || c == '_'
    have hfraction := append_prefix_of_drop hwhole (isPrefix_fractionPart _)
    refine append_prefix_of_drop hfraction ?_
    rw [List.length_append, ← List.drop_drop]
    exact isPrefix_exponentPart _

end NumberText

/-- A scan takes no more than there is and complains about a place in what it takes. -/
def Scan.Within (rest : List Char) : Scan → Prop
  | .token _ more => more ≤ rest.length
  | .error _ offset more => offset ≤ more ∧ more ≤ rest.length

/-- A string scan ends within a bound, and an escape that it rejects lies before its end. -/
def StringScan.Within (bound : Nat) : StringScan → Prop
  | .closed _ unknown length => (∀ u ∈ unknown, u.2 < length) ∧ length ≤ bound
  | .unterminated length => length ≤ bound

theorem StringScan.Within.mono {bound bound' : Nat} (hle : bound ≤ bound') :
    ∀ {scan : StringScan}, scan.Within bound → scan.Within bound'
  | .closed .., h => ⟨h.1, Nat.le_trans h.2 hle⟩
  | .unterminated _, h => Nat.le_trans h hle

theorem ne_backslash {c : Char} (hend : c = '\\' → rest = [] → False)
    (hescape : ∀ e more, c = '\\' → rest = e :: more → False) : c ≠ '\\' := by
  intro hc
  cases rest with
  | nil => exact hend hc rfl
  | cons e rest => exact hescape e rest hc rfl

theorem scanString_within (quote : Char) (seen : Nat) (text : List Char)
    (unknown : Option (Char × Nat)) (body : List Char) (hunknown : ∀ u ∈ unknown, u.2 ≤ seen) :
    (scanString quote seen text unknown body).Within (seen + body.length) := by
  induction seen, text, unknown, body using scanString.induct quote with
  | case1 => exact Nat.le_refl _
  | case2 => rw [scanString]; exact Nat.le_add_right _ _
  | case3 => rw [scanString]; exact Nat.le_refl _
  | case4 seen text unknown e rest c he ih =>
    rw [scanString, he]
    refine (ih fun u hu => Nat.le_add_right_of_le (hunknown u hu)).mono ?_
    simp only [List.length_cons]
    omega
  | case5 seen text unknown e rest he ih =>
    rw [scanString, he]
    refine (ih fun u hu => ?_).mono (by simp only [List.length_cons]; omega)
    cases unknown with
    | none =>
      cases hu
      exact Nat.le_succ _
    | some v => exact Nat.le_add_right_of_le (hunknown u hu)
  | case6 seen text unknown rest hnewline hend hescape =>
    rw [scanString.eq_5 _ _ _ _ _ _ hnewline hend hescape, if_pos rfl]
    exact ⟨fun u hu => Nat.lt_succ_of_le (hunknown u hu), by simp only [List.length_cons]; omega⟩
  | case7 seen text unknown c rest hnewline hend hescape hquote ih =>
    rw [scanString.eq_5 _ _ _ _ _ _ hnewline hend hescape, if_neg hquote]
    refine (ih fun u hu => Nat.le_add_right_of_le (hunknown u hu)).mono ?_
    simp only [List.length_cons]
    omega

theorem scanQuoted_within (quote : Char) {opening : Nat} (literal : String → Token.Kind)
    {body : List Char} (hrest : opening + body.length ≤ rest.length) :
    (scanQuoted quote opening literal body).Within rest := by
  have h := scanString_within quote 0 [] none body nofun
  unfold scanQuoted
  split
  next hscan =>
    rw [hscan] at h
    obtain ⟨-, hlength⟩ := h
    exact Nat.le_trans (by omega) hrest
  next e offset length hscan =>
    rw [hscan] at h
    obtain ⟨hoffset, hlength⟩ := h
    have hoffset : offset < length := hoffset _ rfl
    exact ⟨by omega, by omega⟩
  next length hscan =>
    rw [hscan] at h
    have hlength : length ≤ 0 + body.length := h
    exact ⟨Nat.zero_le _, by omega⟩

theorem scanNumber_within (first : Char) (rest : List Char) :
    (scanNumber (first :: rest)).Within rest := by
  have hlength := (NumberText.isPrefix_text_read (first :: rest)).length_le
  rw [List.length_cons] at hlength
  unfold scanNumber
  dsimp only
  split
  · exact Nat.sub_le_of_le_add hlength
  · split
    · exact Nat.sub_le_of_le_add hlength
    · exact ⟨Nat.zero_le _, Nat.sub_le_of_le_add hlength⟩

theorem scanSymbol?_length_le {s : Symbol} (h : scanSymbol? first rest = some (s, more)) :
    more ≤ rest.length := by
  cases rest with
  | nil =>
    unfold scanSymbol? at h
    obtain ⟨short, -, hshort⟩ := Option.map_eq_some_iff.1 h
    cases hshort
    exact Nat.le_refl 0
  | cons c rest =>
    unfold scanSymbol? at h
    split at h
    · cases h; simp
    · obtain ⟨short, -, hshort⟩ := Option.map_eq_some_iff.1 h
      cases hshort
      exact Nat.zero_le _

/-- A scan stays within its text, whether it finds a token or something wrong. -/
theorem scanToken_within (first : Char) (rest : List Char) :
    (scanToken first rest).Within rest := by
  have hcases := scanToken_cases first rest
  generalize scanToken first rest = scan at hcases
  cases hcases with
  | number => exact scanNumber_within first rest
  | symbol h => exact scanSymbol?_length_le h
  | bang | unknown => exact ⟨Nat.le_refl 0, Nat.zero_le _⟩
  | text => exact scanQuoted_within first .str (by omega)
  | fields h => exact scanQuoted_within _ .fstr (by rw [h, List.length_cons]; omega)
  | name => exact (List.takeWhile_prefix _).length_le

theorem scanToken_length_le (h : scanToken first rest = .token kind more) : more ≤ rest.length := by
  have hwithin := scanToken_within first rest
  rwa [h] at hwithin

/-! ### The end of the line -/

/-- A character that ends the line, or goes before its end, with a text behind it. -/
def EndsLine (stop : Char) (tail : List Char) : Prop := stop = '\n' ∨ stop = '\r' ∧ tail = []

section

variable {stop : Char} {tail : List Char}

theorem EndsLine.char (h : EndsLine stop tail) : stop = '\n' ∨ stop = '\r' :=
  h.imp_right And.left

theorem takeWhile_append_end {P : Char → Bool} (hP : P stop = false) (tail : List Char) :
    ∀ text : List Char, (text ++ stop :: tail).takeWhile P = text.takeWhile P
  | [] => List.takeWhile_cons_of_neg (by simp [hP])
  | c :: text => by
    rw [List.cons_append, List.takeWhile_cons, List.takeWhile_cons,
      takeWhile_append_end hP tail text]

namespace NumberText

theorem exponentPart_append (h : EndsLine stop tail) (text : List Char) :
    exponentPart (text ++ stop :: tail) = exponentPart text := by
  have hdigit : stop.isDigit = false := by rcases h.char with rfl | rfl <;> rfl
  have hdigits := takeWhile_append_end hdigit tail
  match text with
  | [] =>
    have hletter : (stop == 'e' || stop == 'E') = false := by rcases h.char with rfl | rfl <;> rfl
    cases tail <;> simp [exponentPart, hletter]
  | [e] =>
    have hsign : (stop == '+' || stop == '-') = false := by rcases h.char with rfl | rfl <;> rfl
    simp [exponentPart, hdigit, hsign]
  | e :: c :: rest =>
    have hhead : (rest ++ stop :: tail).head?.any Char.isDigit = rest.head?.any Char.isDigit := by
      cases rest <;> simp [hdigit]
    rw [List.cons_append, List.cons_append, exponentPart, exponentPart, hdigits, hhead]

theorem fractionPart_append_stop (h : EndsLine stop tail) (text : List Char) :
    fractionPart (text ++ stop :: tail) = fractionPart text := by
  have hdigit : stop.isDigit = false := by rcases h.char with rfl | rfl <;> rfl
  match text with
  | [] =>
    have hpoint : stop ≠ '.' := by rcases h.char with rfl | rfl <;> decide
    rw [List.nil_append, fractionPart.eq_2, fractionPart.eq_2] <;> simp [hpoint]
  | [c] =>
    by_cases hc : c = '.'
    · subst hc
      simp [fractionPart, hdigit]
    · rw [List.singleton_append, fractionPart.eq_2, fractionPart.eq_2] <;> simp [hc]
  | c :: d :: rest =>
    by_cases hc : c = '.'
    · subst hc
      rw [List.cons_append, List.cons_append, fractionPart, fractionPart,
        takeWhile_append_end hdigit]
    · rw [List.cons_append, List.cons_append, fractionPart.eq_2, fractionPart.eq_2] <;> simp [hc]

theorem read_append (h : EndsLine stop tail) (hne : text ≠ []) :
    read (text ++ stop :: tail) = read text := by
  have hstop : (stop.isDigit || stop == '_') = false := by rcases h.char with rfl | rfl <;> rfl
  have hdigits := takeWhile_append_end (P := fun c => c.isDigit || c == '_') hstop tail
  have hexponent {rest more : List Char} (hmore : more <+: rest) :
      exponentPart ((rest ++ stop :: tail).drop more.length) =
        exponentPart (rest.drop more.length) := by
    rw [List.drop_append_of_le_length hmore.length_le, exponentPart_append h]
  match text with
  | [] => exact absurd rfl hne
  | c :: rest =>
    by_cases hc : c = '.'
    · subst hc
      rw [List.cons_append, read, read, hdigits, hexponent (List.takeWhile_prefix _)]
    · rw [read.eq_2 _ (by simp [hc]), read.eq_2 _ (by simp [hc]), hdigits,
        List.drop_append_of_le_length (List.takeWhile_prefix _).length_le,
        fractionPart_append_stop h, hexponent (isPrefix_fractionPart _)]

end NumberText

end

/-- A text in quotes that is closed is told by the characters up to its end, the closing quote:
whatever comes behind them, it is the same. What is read of it is no longer than these, and where
every escape is known it is within one line. -/
theorem scanString_closed {quote : Char} {read : List Char} {wrong : Option (Char × Nat)}
    {length : Nat} (seen : Nat) (text : List Char) (unknown : Option (Char × Nat))
    (body : List Char)
    (h : scanString quote seen text unknown body = .closed read wrong length) :
    seen < length ∧ read.length + seen ≤ text.length + length ∧
    (∃ front, body.take (length - seen) = front ++ [quote] ∧
      (wrong = none → unknown = none ∧ '\n' ∉ front)) ∧
    ∀ body', body.take (length - seen) <+: body' →
      scanString quote seen text unknown body' = .closed read wrong length := by
  induction seen, text, unknown, body using scanString.induct quote with
  | case1 => cases h
  | case2 => rw [scanString] at h; cases h
  | case3 => rw [scanString] at h; cases h
  | case4 seen text unknown e rest c he ih =>
    rw [scanString, he] at h
    obtain ⟨hseen, hread, ⟨front, hfront, hline⟩, hsame⟩ := ih h
    rw [List.length_cons] at hread
    refine ⟨by omega, by omega, ?_⟩
    rw [show length - seen = length - (seen + 2) + 1 + 1 by omega, List.take_succ_cons,
      List.take_succ_cons]
    refine ⟨⟨'\\' :: e :: front, by rw [hfront]; rfl, fun hwrong => ⟨(hline hwrong).1, ?_⟩⟩, ?_⟩
    · have hnewline : e ≠ '\n' := by
        rintro rfl
        cases he
      simp [(hline hwrong).2, hnewline.symm]
    · rintro _ ⟨tail, rfl⟩
      rw [List.cons_append, List.cons_append, scanString, he]
      exact hsame _ (List.prefix_append _ _)
  | case5 seen text unknown e rest he ih =>
    rw [scanString, he] at h
    obtain ⟨hseen, hread, ⟨front, hfront, hline⟩, hsame⟩ := ih h
    refine ⟨by omega, by omega, ?_⟩
    rw [show length - seen = length - (seen + 2) + 1 + 1 by omega, List.take_succ_cons,
      List.take_succ_cons]
    refine ⟨⟨'\\' :: e :: front, by rw [hfront]; rfl, fun hwrong => ?_⟩, ?_⟩
    · cases unknown <;> cases (hline hwrong).1
    · rintro _ ⟨tail, rfl⟩
      rw [List.cons_append, List.cons_append, scanString, he]
      exact hsame _ (List.prefix_append _ _)
  | case6 seen text unknown rest hnewline hend hescape =>
    rw [scanString.eq_5 _ _ _ _ _ _ hnewline hend hescape, if_pos rfl] at h
    cases h
    refine ⟨by omega, by rw [List.length_reverse]; omega, ?_⟩
    rw [Nat.add_sub_cancel_left, List.take_succ_cons]
    refine ⟨⟨[], rfl, fun hwrong => ⟨hwrong, List.not_mem_nil⟩⟩, ?_⟩
    rintro _ ⟨tail, rfl⟩
    have hslash := ne_backslash hend hescape
    rw [List.cons_append, scanString.eq_5 _ _ _ _ _ _ hnewline (fun hq => absurd hq hslash)
      (fun _ _ hq => absurd hq hslash), if_pos rfl]
  | case7 seen text unknown c rest hnewline hend hescape hquote ih =>
    rw [scanString.eq_5 _ _ _ _ _ _ hnewline hend hescape, if_neg hquote] at h
    obtain ⟨hseen, hread, ⟨front, hfront, hline⟩, hsame⟩ := ih h
    rw [List.length_cons] at hread
    refine ⟨by omega, by omega, ?_⟩
    rw [show length - seen = length - (seen + 1) + 1 by omega, List.take_succ_cons]
    refine ⟨⟨c :: front, by rw [hfront]; rfl, fun hwrong => ⟨(hline hwrong).1, ?_⟩⟩, ?_⟩
    · simp [(hline hwrong).2, Ne.symm hnewline]
    rintro _ ⟨tail, rfl⟩
    have hslash := ne_backslash hend hescape
    rw [List.cons_append, scanString.eq_5 _ _ _ _ _ _ hnewline (fun hc => absurd hc hslash)
      (fun _ _ hc => absurd hc hslash), if_neg hquote]
    exact hsame _ (List.prefix_append _ _)

section

variable {quote : Char} {opening : Nat} {literal : String → Token.Kind} {body : List Char}

theorem scanQuoted_of_front (h : scanQuoted quote opening literal body = .token kind more) :
    opening < more ∧ (∃ front, body.take (more - opening) = front ++ [quote] ∧ '\n' ∉ front) ∧
    ∀ body', body.take (more - opening) <+: body' →
      scanQuoted quote opening literal body' = .token kind more := by
  obtain ⟨text, length, hclosed, rfl, rfl⟩ := scanQuoted_kind h
  obtain ⟨hlength, -, ⟨front, hfront, hline⟩, hsame⟩ := scanString_closed _ _ _ _ hclosed
  rw [Nat.add_sub_cancel_left]
  refine ⟨by omega, ⟨front, hfront, (hline rfl).2⟩, fun body' hbody' => ?_⟩
  rw [scanQuoted, hsame body' hbody']

theorem scanQuoted_append {stop : Char} {tail : List Char} (hstop : EndsLine stop tail)
    (hquote : isQuote quote = true) :
    scanQuoted quote opening literal (body ++ stop :: tail) = .token kind more ↔
      scanQuoted quote opening literal body = .token kind more := by
  constructor
  · intro h
    obtain ⟨hmore, ⟨front, hfront, hline⟩, hsame⟩ := scanQuoted_of_front h
    refine hsame body ?_
    rcases Nat.lt_or_ge body.length (more - opening) with hlong | hshort
    · -- The end of the line would be among the characters up to the closing quote.
      have hne : quote ≠ stop := by
        rintro rfl
        rcases hstop.char with rfl | rfl <;> cases hquote
      rw [List.take_append, List.take_of_length_le (Nat.le_of_lt hlong),
        show more - opening - body.length = more - opening - body.length - 1 + 1 by omega,
        List.take_succ_cons] at hfront
      rcases hstop with rfl | ⟨rfl, rfl⟩
      · have hmem : '\n' ∈ front ++ [quote] := by
          rw [← hfront]
          exact List.mem_append_right _ (.head _)
        rcases List.mem_append.1 hmem with hmem | hmem
        · exact absurd hmem hline
        · exact absurd (List.mem_singleton.1 hmem).symm hne
      · rw [List.take_nil] at hfront
        exact absurd (List.cons.inj (List.append_inj' hfront rfl).2).1.symm hne
    · rw [List.take_append_of_le_length hshort]
      exact List.take_prefix _ _
  · intro h
    obtain ⟨-, -, hsame⟩ := scanQuoted_of_front h
    exact hsame _ ((List.take_prefix _ _).trans (List.prefix_append _ _))

end

section

variable {stop : Char} {tail : List Char}

theorem scanSymbol?_append (h : EndsLine stop tail) (first : Char) (rest : List Char) :
    scanSymbol? first (rest ++ stop :: tail) = scanSymbol? first rest := by
  have hlong : longSymbol? first stop = none := by
    rcases h.char with rfl | rfl <;>
    · unfold longSymbol?
      split <;> simp_all
  cases rest with
  | nil => simp [scanSymbol?, hlong]
  | cons c rest => rfl

/-- A token ends before the end of the line. -/
theorem scanToken_append (h : EndsLine stop tail) :
    scanToken first (rest ++ stop :: tail) = .token kind more ↔
      scanToken first rest = .token kind more := by
  have hdigit : ((rest ++ stop :: tail).headD ' ').isDigit = (rest.headD ' ').isDigit := by
    cases rest with
    | nil => rcases h.char with rfl | rfl <;> rfl
    | cons c rest => rfl
  have hquote : isQuote ((rest ++ stop :: tail).headD ' ') = isQuote (rest.headD ' ') := by
    cases rest with
    | nil => rcases h.char with rfl | rfl <;> rfl
    | cons c rest => rfl
  have hnumber : scanNumber (first :: (rest ++ stop :: tail)) = scanNumber (first :: rest) := by
    rw [← List.cons_append, scanNumber, scanNumber, NumberText.read_append h (List.cons_ne_nil _ _)]
  have hname : isNameContinue stop = false := by rcases h.char with rfl | rfl <;> rfl
  unfold scanToken
  dsimp only
  rw [hdigit, hquote, hnumber, scanSymbol?_append h, takeWhile_append_end hname]
  split
  · rfl
  split
  · rfl
  split
  · rfl
  split
  next hstr => exact scanQuoted_append h hstr
  · split
    next hfstr =>
      cases rest with
      | nil => simp [isQuote] at hfstr
      | cons c rest => exact scanQuoted_append h (Bool.and_eq_true_iff.1 hfstr).2
    · rfl

end

end Scripting
