/-
# The pieces of f-strings

An f-string is written from texts and fields. Braces in a text are doubled, and a field stands in
single ones. The source of a field is balanced (`FieldSource`): a colon, an exclamation mark or a
brace may stand in it within quotes and brackets, which the scan passes over (`Inside`). So it
finds where the field ends, whatever stands beside it (`splitFrom_fragments`), and within the field
where the source ends (`FieldSpelling.split_written`).

The source is read on its own, with a bound that depends on where the f-string stands. As the bound
is always enough, that makes no difference, and what is read is what was written
(`fstring_reads_fragments`).
-/
import Scripting.Proofs.Grammar.Expr

namespace Scripting

variable {c q : Char} {ts : List Token} {text : List Char} {b : Nat}

/-! ### BalancedText texts -/

/-- The characters that are neither quotes nor brackets. -/
def isPlain (c : Char) : Bool :=
  !(['\'', '"', '(', '[', '\x7b', ')', ']', '\x7d'].contains c)

/-- Texts with their quotes and brackets closed. -/
inductive BalancedText : List Char → Prop
  | nil : BalancedText []
  | plain {c : Char} {rest : List Char} (hc : isPlain c = true) (h : BalancedText rest) :
      BalancedText (c :: rest)
  | quoted {q : Char} {body rest : List Char} (hq : q ∈ ['\'', '"']) (hbody : q ∉ body)
      (h : BalancedText rest) : BalancedText (q :: (body ++ [q]) ++ rest)
  | bracketed {o c : Char} {inner rest : List Char} (ho : o ∈ ['(', '[', '\x7b'])
      (hc : c ∈ [')', ']', '\x7d']) (hinner : BalancedText inner) (h : BalancedText rest) :
      BalancedText (o :: (inner ++ [c]) ++ rest)

/-- Balanced texts that have no colon outside quotes and brackets, and no exclamation mark but that
of `!=`. -/
inductive FieldSource : List Char → Prop
  | nil : FieldSource []
  | plain {c : Char} {rest : List Char} (hc : isPlain c = true) (hcolon : c ≠ ':') (hmark : c ≠ '!')
      (h : FieldSource rest) : FieldSource (c :: rest)
  | notEqual {rest : List Char} (h : FieldSource rest) : FieldSource ('!' :: '=' :: rest)
  | quoted {q : Char} {body rest : List Char} (hq : q ∈ ['\'', '"']) (hbody : q ∉ body)
      (h : FieldSource rest) : FieldSource (q :: (body ++ [q]) ++ rest)
  | bracketed {o c : Char} {inner rest : List Char} (ho : o ∈ ['(', '[', '\x7b'])
      (hc : c ∈ [')', ']', '\x7d']) (hinner : BalancedText inner) (h : FieldSource rest) :
      FieldSource (o :: (inner ++ [c]) ++ rest)

namespace FieldScan

/-- The scan passes over a text without coming outside all brackets and quotes. -/
inductive Inside : FieldScan → List Char → FieldScan → Prop
  | nil {s : FieldScan} : Inside s [] s
  | cons {s s' s'' : FieldScan} {c : Char} {rest : List Char} (hfeed : s.feed c = (s', false))
      (h : Inside s' rest s'') : Inside s (c :: rest) s''

theorem Inside.append {s s' s'' : FieldScan} {rest : List Char} (h : Inside s text s')
    (h' : Inside s' rest s'') : Inside s (text ++ rest) s'' := by
  induction h with
  | nil => exact h'
  | cons hfeed _ ih => exact .cons hfeed (ih h')

theorem feed_plain (hc : isPlain c = true) (depth : Nat) :
    feed ⟨depth, none⟩ c = (⟨depth, none⟩, depth == 0) := by
  simp only [isPlain, List.contains_eq_mem, List.mem_cons, List.not_mem_nil, or_false,
    Bool.not_eq_true', decide_eq_false_iff_not, not_or] at hc
  simp [feed, hc]

theorem feed_opens {c : Char} (hc : c ∈ ['(', '[', '\x7b']) (depth : Nat) :
    feed ⟨depth, none⟩ c = (⟨depth + 1, none⟩, false) := by
  simp only [List.mem_cons, List.not_mem_nil, or_false] at hc
  rcases hc with rfl | rfl | rfl <;> rfl

theorem feed_closes {c : Char} (hc : c ∈ [')', ']', '\x7d']) (depth : Nat) :
    feed ⟨depth + 1, none⟩ c = (⟨depth, none⟩, false) := by
  simp only [List.mem_cons, List.not_mem_nil, or_false] at hc
  rcases hc with rfl | rfl | rfl <;> rfl

theorem feed_quote (hq : q ∈ ['\'', '"']) (depth : Nat) :
    feed ⟨depth, none⟩ q = (⟨depth, some q⟩, false) := by
  simp only [List.mem_cons, List.not_mem_nil, or_false] at hq
  rcases hq with rfl | rfl <;> rfl

theorem feed_endQuote (q : Char) (depth : Nat) :
    feed ⟨depth, some q⟩ q = (⟨depth, none⟩, false) := by simp [feed]

theorem feed_inQuote (h : c ≠ q) (depth : Nat) :
    feed ⟨depth, some q⟩ c = (⟨depth, some q⟩, false) := by simp [feed, h]

theorem inside_quote (depth : Nat) : ∀ {body : List Char}, q ∉ body →
    Inside ⟨depth, some q⟩ (body ++ [q]) ⟨depth, none⟩
  | [], _ => .cons (feed_endQuote q depth) .nil
  | c :: body, h => by
    have hne : c ≠ q := fun heq => h (by simp [heq])
    exact .cons (feed_inQuote hne depth) (inside_quote depth fun hmem => h (by simp [hmem]))

theorem inside_quoted {body : List Char} (hq : q ∈ ['\'', '"']) (hbody : q ∉ body) (depth : Nat) :
    Inside ⟨depth, none⟩ (q :: (body ++ [q])) ⟨depth, none⟩ :=
  .cons (feed_quote hq depth) (inside_quote depth hbody)

theorem inside_balanced (h : BalancedText text) (depth : Nat) :
    Inside ⟨depth + 1, none⟩ text ⟨depth + 1, none⟩ := by
  induction h generalizing depth with
  | nil => exact .nil
  | plain hc _ ih => exact .cons (feed_plain hc _) (ih depth)
  | quoted hq hbody _ ih => exact (inside_quoted hq hbody _).append (ih depth)
  | bracketed ho hc _ _ ihinner ih =>
    refine Inside.append (.cons (feed_opens ho _) ?_) (ih depth)
    exact (ihinner (depth + 1)).append (.cons (feed_closes hc _) .nil)

theorem inside_bracketed {o c : Char} {inner : List Char} (ho : o ∈ ['(', '[', '\x7b'])
    (hc : c ∈ [')', ']', '\x7d']) (hinner : BalancedText inner) :
    Inside .start (o :: (inner ++ [c])) .start :=
  .cons (feed_opens ho 0) ((inside_balanced hinner 0).append (.cons (feed_closes hc 0) .nil))

end FieldScan

/-! ### Scanning a field -/

open FieldScan

/-- A text that neither ends a field nor its source. -/
structure Passed (text : List Char) : Prop where
  field : ∀ read rest : List Char, Piece.splitFrom (.field read .start) (text ++ rest) =
    Piece.splitFrom (.field (text.reverse ++ read) .start) rest
  source : ∀ read rest : List Char, FieldText.splitFrom .start read (text ++ rest) =
    FieldText.splitFrom .start (text.reverse ++ read) rest

namespace Passed

theorem append {text' : List Char} (h : Passed text) (h' : Passed text') :
    Passed (text ++ text') where
  field read rest := by
    rw [List.append_assoc, h.field, h'.field, List.reverse_append, List.append_assoc]
  source read rest := by
    rw [List.append_assoc, h.source, h'.source, List.reverse_append, List.append_assoc]

theorem of_inside (h : Inside .start text .start) : Passed text := by
  have hfield {s s' : FieldScan} {text : List Char} (h : Inside s text s') (read rest : List Char) :
      Piece.splitFrom (.field read s) (text ++ rest) =
        Piece.splitFrom (.field (text.reverse ++ read) s') rest := by
    induction h generalizing read with
    | nil => rfl
    | cons hfeed _ ih =>
      rw [List.cons_append, Piece.splitFrom, hfeed]
      simpa using ih _
  have hsource {s s' : FieldScan} {text : List Char} (h : Inside s text s')
      (read rest : List Char) :
      FieldText.splitFrom s read (text ++ rest) =
        FieldText.splitFrom s' (text.reverse ++ read) rest := by
    induction h generalizing read with
    | nil => rfl
    | cons hfeed _ ih =>
      rw [List.cons_append, FieldText.splitFrom, hfeed]
      simpa using ih _
  exact ⟨hfield h, hsource h⟩

end Passed

theorem splitFrom_plain_cons (hc : isPlain c = true) (read rest : List Char) :
    Piece.splitFrom (.field read .start) (c :: rest) =
      Piece.splitFrom (.field (c :: read) .start) rest := by
  have hne : c ≠ '\x7d' := by rintro rfl; cases hc
  rw [Piece.splitFrom, start, feed_plain hc]
  simp [hne]

theorem passed_plain (hc : isPlain c = true) (hcolon : c ≠ ':') (hmark : c ≠ '!') :
    Passed [c] where
  field read rest := splitFrom_plain_cons hc read rest
  source read rest := by
    rw [List.singleton_append, FieldText.splitFrom, start, feed_plain hc]
    simp [hcolon, hmark]

theorem passed_notEqual : Passed ['!', '='] := ⟨fun _ _ => rfl, fun _ _ => rfl⟩

theorem FieldSource.passed {source : List Char} (h : FieldSource source) : Passed source := by
  induction h with
  | nil => exact ⟨fun _ _ => rfl, fun _ _ => rfl⟩
  | plain hc hcolon hmark _ ih => exact (passed_plain hc hcolon hmark).append ih
  | notEqual _ ih => exact passed_notEqual.append ih
  | quoted hq hbody _ ih => exact (Passed.of_inside (inside_quoted hq hbody 0)).append ih
  | bracketed ho hc hinner _ ih =>
    exact (Passed.of_inside (inside_bracketed ho hc hinner)).append ih

theorem FieldSource.split_source {source : List Char} (h : FieldSource source) :
    FieldText.split source = ⟨source, none, none⟩ := by
  have hsplit := h.passed.source [] []
  rw [List.append_nil, List.append_nil] at hsplit
  rw [FieldText.split, hsplit, FieldText.splitFrom, List.reverse_reverse]

/-! ### How f-strings are written -/

/-- A field as it is written, `source!conversion:spec`. -/
structure FieldSpelling where
  source : List Char
  conversion : Option Char
  spec : Option (List Char)
  source_balanced : FieldSource source
  source_head : source.head? ≠ some '\x7b'
  conversion_mem : ∀ c ∈ conversion, c = 'r' ∨ c = 's'
  spec_plain : ∀ text ∈ spec, ∀ c ∈ text, isPlain c = true

namespace FieldSpelling

variable (f : FieldSpelling)

def ending : List Char := f.conversion.elim [] (['!', ·]) ++ f.spec.elim [] (':' :: ·)

def written : List Char := f.source ++ f.ending

/-- The part of an f-string that the field is, with the value of its source. -/
def part (value : Expr) : FStringPart :=
  .field value (f.conversion == some 'r') (f.spec.map String.ofList)

variable {f}

theorem isPlain_ending (h : c ∈ f.ending) : isPlain c = true := by
  unfold ending at h
  rcases List.mem_append.1 h with hconversion | hspec
  · cases hf : f.conversion with
    | none => simp [hf] at hconversion
    | some k =>
      rw [hf, Option.elim_some] at hconversion
      rcases f.conversion_mem k hf with rfl | rfl
      all_goals
        simp only [List.mem_cons, List.not_mem_nil, or_false] at hconversion
        rcases hconversion with rfl | rfl <;> rfl
  cases hf : f.spec with
  | none => simp [hf] at hspec
  | some text =>
    rw [hf, Option.elim_some] at hspec
    rcases List.mem_cons.1 hspec with rfl | hmem
    · rfl
    · exact f.spec_plain text hf c hmem

theorem splitFrom_written (rest : List Char) :
    Piece.splitFrom (.field [] .start) (f.written ++ '\x7d' :: rest) =
      (.field f.written :: (Piece.splitFrom (.text []) rest).1,
        (Piece.splitFrom (.text []) rest).2) := by
  have hending : ∀ {text : List Char}, (∀ c ∈ text, isPlain c = true) → ∀ read : List Char,
      Piece.splitFrom (.field read .start) (text ++ '\x7d' :: rest) =
        (.field (read.reverse ++ text) :: (Piece.splitFrom (.text []) rest).1,
          (Piece.splitFrom (.text []) rest).2) := by
    intro text htext
    induction text with
    | nil =>
      intro read
      rw [List.nil_append, Piece.splitFrom]
      simp [start, feed]
    | cons c text ih =>
      intro read
      obtain ⟨hc, htext⟩ := List.forall_mem_cons.1 htext
      rw [List.cons_append, splitFrom_plain_cons hc, ih htext]
      simp
  rw [written, List.append_assoc, f.source_balanced.passed.field, hending fun c => isPlain_ending]
  simp

theorem split_written : FieldText.split f.written =
    ⟨f.source, f.conversion.map ([·]), f.spec⟩ := by
  rw [written, FieldText.split, f.source_balanced.passed.source, ending]
  cases hconversion : f.conversion with
  | some k =>
    rcases f.conversion_mem k hconversion with rfl | rfl
    all_goals
      cases hspec : f.spec <;>
        simp [FieldText.splitFrom, FieldText.atColon, start, feed]
  | none =>
    cases hspec : f.spec <;> simp [FieldText.splitFrom, start, feed]

end FieldSpelling

/-- What an f-string is written from: texts, and fields with what their sources are read as. -/
inductive Fragment where
  | text (s : List Char)
  | field (f : FieldSpelling) (value : Expr)

namespace Fragment

def escaped (c : Char) : List Char := if c = '\x7b' ∨ c = '\x7d' then [c, c] else [c]

def written : Fragment → List Char
  | .text s => s.flatMap escaped
  | .field f _ => '\x7b' :: (f.written ++ ['\x7d'])

/-- A text as a part of an f-string; no text is no part. -/
def literal (s : List Char) : List FStringPart := if s = [] then [] else [.text (String.ofList s)]

/-- The parts of an f-string, with the text before them. Texts that meet are one part. -/
def parts (before : List Char) : List Fragment → List FStringPart
  | [] => literal before
  | .text s :: rest => parts (before ++ s) rest
  | .field f value :: rest => literal before ++ f.part value :: parts [] rest

/-- The pieces of an f-string, with the text before them. -/
def pieces (before : List Char) : List Fragment → List Piece
  | [] => Piece.literal before.reverse
  | .text s :: rest => pieces (before ++ s) rest
  | .field f _ :: rest => Piece.literal before.reverse ++ .field f.written :: pieces [] rest

end Fragment

theorem splitFrom_escaped (rest : List Char) : ∀ s read : List Char,
    Piece.splitFrom (.text read) (s.flatMap Fragment.escaped ++ rest) =
      Piece.splitFrom (.text (s.reverse ++ read)) rest
  | [], _ => rfl
  | c :: s, read => by
    have hstep : Piece.splitFrom (.text read)
        (Fragment.escaped c ++ (s.flatMap Fragment.escaped ++ rest)) =
        Piece.splitFrom (.text (c :: read)) (s.flatMap Fragment.escaped ++ rest) := by
      unfold Fragment.escaped
      by_cases hopen : c = '\x7b'
      · rw [hopen]; rfl
      · by_cases hclose : c = '\x7d'
        · rw [hclose]; rfl
        · simp [hopen, hclose, Piece.splitFrom]
    rw [List.flatMap_cons, List.append_assoc, hstep, splitFrom_escaped rest s]
    simp

theorem splitFrom_open {rest : List Char} (h : rest.head? ≠ some '\x7b') (read : List Char) :
    Piece.splitFrom (.text read) ('\x7b' :: rest) =
      (Piece.literal read ++ (Piece.splitFrom (.field [] .start) rest).1,
        (Piece.splitFrom (.field [] .start) rest).2) := by
  cases rest with
  | nil => rfl
  | cons c rest =>
    have hne : c ≠ '\x7b' := by simpa using h
    simp [Piece.splitFrom, hne]

theorem FieldSpelling.head?_written (f : FieldSpelling) (rest : List Char) :
    (f.written ++ '\x7d' :: rest).head? ≠ some '\x7b' := by
  unfold written
  cases hsource : f.source with
  | cons c source => simpa [hsource] using f.source_head
  | nil =>
    cases hending : f.ending with
    | nil => simp
    | cons c ending =>
      have hc : isPlain c = true := isPlain_ending (f := f) (by simp [hending])
      intro hhead
      obtain rfl : c = '\x7b' := by simpa using hhead
      cases hc

theorem splitFrom_field (f : FieldSpelling) (read rest : List Char) :
    Piece.splitFrom (.text read) ('\x7b' :: (f.written ++ ['\x7d']) ++ rest) =
      (Piece.literal read ++ .field f.written :: (Piece.splitFrom (.text []) rest).1,
        (Piece.splitFrom (.text []) rest).2) := by
  rw [List.cons_append, List.append_assoc, List.singleton_append,
    splitFrom_open (f.head?_written rest), f.splitFrom_written]

/-- The pieces of an f-string are what it is written from. -/
theorem splitFrom_fragments : ∀ (fragments : List Fragment) (before : List Char),
    Piece.splitFrom (.text before.reverse) (fragments.flatMap Fragment.written) =
      (Fragment.pieces before fragments, none)
  | [], before => rfl
  | .text s :: rest, before => by
    rw [List.flatMap_cons, Fragment.written, splitFrom_escaped, ← List.reverse_append,
      splitFrom_fragments rest, Fragment.pieces]
  | .field f value :: rest, before => by
    have ih := splitFrom_fragments rest []
    rw [List.reverse_nil] at ih
    rw [List.flatMap_cons, Fragment.written, splitFrom_field, ih, Fragment.pieces]

/-! ### Reading fields -/

namespace Grammar

open Parse

/-- A source that is an expression. -/
structure ReadsSource (pos : Position) (source : List Char) (value : Expr) : Prop where
  nonempty : (Text.trim Text.isSpace source).isEmpty = false
  reads : ∃ inner bound left, tokenizeAt pos (Text.trim Text.isSpace source) = .ok inner ∧
    fieldValue bound inner = .ok value left

variable {pos : Position} {source : List Char} {value : Expr}

theorem within_eq_ok {inner rest : List Token} {p : Parse Expr}
    (h : within inner p ts = .ok value rest) : ∃ left, p inner = .ok value left := by
  unfold within at h
  cases hp : p inner with
  | ok v left =>
    rw [hp] at h
    cases h
    exact ⟨left, rfl⟩
  | error d left => rw [hp] at h; cases h
  | exhausted => rw [hp] at h; cases h

theorem readsSource_of_fstringField {bound : Nat} {field : FieldText} {repr : Bool}
    {spec : Option String} {rest : List Token}
    (h : fstringField bound pos field ts = .ok (.field value repr spec) rest) :
    ReadsSource pos field.source value := by
  cases bound with
  | zero => rw [fstringField] at h; cases h
  | succ bound =>
    rw [fstringField_eq] at h
    obtain ⟨repr, mid, -, h⟩ := bind_eq_ok h
    dsimp only at h
    split at h
    · cases h
    next hne =>
      obtain ⟨inner, mid', hinner, h⟩ := bind_eq_ok h
      obtain ⟨value', mid'', hvalue, h⟩ := bind_eq_ok h
      cases h
      obtain ⟨left, hleft⟩ := within_eq_ok hvalue
      exact ⟨by simpa using hne, inner, bound, left, (tokenizeAt_of_fieldTokens hinner).1, hleft⟩

/-- With room for its tokens an expression is read as with any other bound. -/
theorem fieldValue_of_room {bound : Nat} {body : List Token} {p : Position} {left : List Token}
    (hbody : ∀ t ∈ body, t.kind ≠ .eof)
    (hroom : demands Token.demand (body ++ [⟨.eof, p⟩]) + 17 ≤ b)
    (h : fieldValue bound (body ++ [⟨.eof, p⟩]) = .ok value left) :
    ∃ left', fieldValue b (body ++ [⟨.eof, p⟩]) = .ok value left' := by
  have hwhole := Abreast.whole 0 body p true 0 0 False.elim hbody fun _ _ => Nat.zero_le _
  rw [show Token.down 0 = id from rfl, List.map_id] at hwhole
  obtain ⟨ending, hseam, hR⟩ : ∃ ending : Ending, ending.seam = none ∧
      Abreast 0 0 ending true 0 0 (body ++ [⟨.eof, p⟩]) (body ++ [⟨.eof, p⟩]) := ⟨_, rfl, hwhole⟩
  have htracks {b b' : Nat} (hle : b ≤ b') : Tracks True b 17 32 (Abreast 0 0 ending true 0 0)
      (Abreast 0 0 ending true 0 0) (Expr.down 0) (Expr.Sound 0) (fieldValue b) (fieldValue b') :=
    (exprTracks (fun _ => rfl) hle).fieldValue hseam (Nat.le_refl (b + 17))
  -- Beside itself the reading shows that moving a value down by no lines changes nothing.
  have hself {b : Nat} {v : Expr} {rest : List Token}
      (hv : fieldValue b (body ++ [⟨.eof, p⟩]) = .ok v rest) : v.down 0 = v := by
    obtain ⟨-, -, rest', hv', -⟩ := (htracks (Nat.le_refl b)).ok hR hv
    rw [hv] at hv'
    injection hv' with hdown
    exact hdown.symm
  obtain ⟨-, -, left₁, hlarge, -⟩ := (htracks (Nat.le_max_left bound b)).ok hR h
  have halike := (htracks (Nat.le_max_right bound b)).run hR
  cases hfound : fieldValue b (body ++ [⟨.eof, p⟩]) with
  | ok v rest =>
    obtain ⟨-, -, rest', hlarge', -⟩ := (htracks (Nat.le_max_right bound b)).ok hR hfound
    rw [hself hfound, hlarge, hself h] at hlarge'
    cases hlarge'
    exact ⟨rest, rfl⟩
  | error d rest =>
    rw [hfound, hlarge] at halike
    cases halike with
    | error _ hfails =>
      obtain ⟨d', rest', hwrong⟩ := hfails trivial
      cases hwrong
  | exhausted =>
    rw [hfound] at halike
    cases halike with
    | exhausted hless => omega

/-- A source that is an expression is read in every field that has room for it. -/
theorem fstringField_of_readsSource {field : FieldText} (h : ReadsSource pos field.source value)
    {repr : Bool} (hconversion : conversion pos field.conversion ts = .ok repr ts)
    (hb : 32 * field.source.length + 19 ≤ b) :
    fstringField b pos field ts = .ok (.field value repr (field.spec.map String.ofList)) ts := by
  obtain ⟨hne, inner, bound, left, hinner, hleft⟩ := h
  rcases b with _ | b
  · omega
  have hroom := demands_of_tokenizeAt hinner
  have htrim := length_trim Text.isSpace field.source
  have htokens : fieldTokens pos (Text.trim Text.isSpace field.source) ts = .ok inner ts := by
    unfold fieldTokens
    rw [hinner]
    rfl
  obtain ⟨body, p, rfl, hbody⟩ := tokenizeAt_eof hinner
  obtain ⟨left', hvalue⟩ := fieldValue_of_room (b := b) hbody (by omega) hleft
  have hwithin : within (body ++ [⟨.eof, p⟩]) (fieldValue b) ts = .ok value ts := by
    unfold within
    rw [hvalue]
  rw [fstringField_eq, bind_of_ok hconversion, hne, if_neg Bool.false_ne_true, bind_of_ok htokens,
    bind_of_ok hwithin]
  rfl

theorem fstringField_written {f : FieldSpelling} (h : ReadsSource pos f.source value)
    (hb : 32 * f.source.length + 19 ≤ b) (ts : List Token) :
    fstringField b pos (FieldText.split f.written) ts = .ok (f.part value) ts := by
  rw [f.split_written]
  refine fstringField_of_readsSource h ?_ hb
  cases hf : f.conversion with
  | none => rfl
  | some k => rcases f.conversion_mem k hf with rfl | rfl <;> rfl

theorem fstringParts_literal {pieces : List Piece} {parts : List FStringPart}
    (h : ∀ b, demands pieceDemand pieces + 1 ≤ b → fstringParts b pos pieces ts = .ok parts ts)
    (before : List Char)
    (hb : demands pieceDemand (Piece.literal before.reverse ++ pieces) + 1 ≤ b) :
    fstringParts b pos (Piece.literal before.reverse ++ pieces) ts =
      .ok (Fragment.literal before ++ parts) ts := by
  unfold Piece.literal Fragment.literal at *
  by_cases hnil : before = []
  · simpa [hnil] using h b (by simpa [hnil] using hb)
  rw [if_neg (by simpa using hnil), List.reverse_reverse, List.singleton_append] at hb ⊢
  rw [demands, pieceDemand] at hb
  rcases b with _ | b
  · omega
  rw [fstringParts, bind_of_ok (h b (by omega)), if_neg hnil]
  rfl

theorem fstringParts_pieces : ∀ {fragments : List Fragment},
    (∀ f value, .field f value ∈ fragments → ReadsSource pos f.source value) →
    ∀ (before : List Char) {b : Nat},
      demands pieceDemand (Fragment.pieces before fragments) + 1 ≤ b →
      fstringParts b pos (Fragment.pieces before fragments) ts =
        .ok (Fragment.parts before fragments) ts
  | [], _, before, b, hb => by
    rw [Fragment.pieces, ← List.append_nil (Piece.literal _)] at hb ⊢
    rw [Fragment.parts, ← List.append_nil (Fragment.literal _)]
    refine fstringParts_literal (fun b hb => ?_) before hb
    rcases b with _ | b
    · omega
    rfl
  | .text s :: fragments, h, before, b, hb =>
    fstringParts_pieces (fun f value hmem => h f value (by simp [hmem])) (before ++ s) hb
  | .field f value :: fragments, h, before, b, hb => by
    refine fstringParts_literal (fun b hb => ?_) before hb
    rw [demands, pieceDemand, FieldSpelling.written, List.length_append] at hb
    rcases b with _ | b
    · omega
    have hfield := fstringField_written (h f value (by simp)) (b := b) (by omega) ts
    have hmore : ∀ f value, .field f value ∈ fragments → ReadsSource pos f.source value :=
      fun f value hmem => h f value (by simp [hmem])
    have hrest : fstringParts b pos (Fragment.pieces [] fragments) ts =
        .ok (Fragment.parts [] fragments) ts := fstringParts_pieces hmore [] (by omega)
    rw [fstringParts, bind_of_ok hfield, bind_of_ok hrest]
    rfl

end Grammar

/-- **An f-string is read as what it was written from.** Where the source of every field is accepted
as a field of its own, the texts and fields come back in order, with the texts that meet as one, and
each field with its expression, its conversion and its format. The share that the f-string has in
the bound is enough. -/
theorem fstring_reads_fragments (pos : Position) (fragments : List Fragment) (rest : List Token)
    (bound : Nat) (hrest : rest ≠ [])
    (haccepts : ∀ f value, .field f value ∈ fragments → ∃ bound ts left,
      Grammar.fstringField bound pos (FieldText.split f.source) ts =
        .ok (.field value false none) left)
    (hbound :
      Token.weight ⟨.fstr (String.ofList (fragments.flatMap Fragment.written)), pos⟩ ≤ bound) :
    Grammar.primary bound
        (⟨.fstr (String.ofList (fragments.flatMap Fragment.written)), pos⟩ :: rest) =
      .ok (.fstring pos (Fragment.parts [] fragments)) rest := by
  have hreads : ∀ f value, .field f value ∈ fragments →
      Grammar.ReadsSource pos f.source value := by
    intro f value hmem
    obtain ⟨bound, ts, left, hfield⟩ := haccepts f value hmem
    have hsource := Grammar.readsSource_of_fstringField hfield
    rwa [f.source_balanced.split_source] at hsource
  have hsplit : Piece.split (fragments.flatMap Fragment.written) =
      (Fragment.pieces [] fragments, none) := splitFrom_fragments fragments []
  have hdemand := Grammar.demand_split (fragments.flatMap Fragment.written)
  rw [hsplit] at hdemand
  dsimp only [Token.weight] at hdemand hbound
  rw [String.length_ofList] at hbound
  obtain ⟨b, rfl⟩ : ∃ b, bound = b + 1 := ⟨bound - 1, by omega⟩
  have hparts : Grammar.fstringParts b pos (Fragment.pieces [] fragments) rest =
      .ok (Fragment.parts [] fragments) rest :=
    Grammar.fstringParts_pieces hreads [] (by omega)
  rw [Grammar.primary, Parse.bind_peek]
  dsimp only [Token.front]
  rw [Parse.bind_advance, Token.behind_cons hrest, String.toList_ofList, hsplit]
  dsimp only
  rw [Parse.bind_of_ok hparts]
  rfl

/-- A field whose source has a colon and a brace in it, between braces that stand for themselves. -/
theorem fstring_reads_fragments_nested : ∃ value : Expr,
    (∃ bound ts left, Grammar.fstringField bound ⟨1, 1⟩
      (FieldText.split ['d', '[', '\'', ':', '\x7d', '\'', ']']) ts =
        .ok (.field value false none) left) ∧
    Grammar.primary 2000
        [⟨.fstr "\x7b\x7b\x7bd[':\x7d']!r:>5\x7d\x7d\x7d", ⟨1, 1⟩⟩, ⟨.eof, ⟨1, 22⟩⟩] =
      .ok (.fstring ⟨1, 1⟩ [.text "\x7b", .field value true (some ">5"), .text "\x7d"])
        [⟨.eof, ⟨1, 22⟩⟩] := by
  have hinner : BalancedText ('\'' :: ([':', '\x7d'] ++ ['\'']) ++ []) :=
    .quoted (by decide) (by decide) .nil
  have hsource : FieldSource ['d', '[', '\'', ':', '\x7d', '\'', ']'] :=
    .plain rfl (by decide) (by decide)
      (.bracketed (o := '[') (c := ']') (by decide) (by decide) hinner .nil)
  let f : FieldSpelling :=
    ⟨_, some 'r', some ['>', '5'], hsource, by decide, by simp, by simp [isPlain]⟩
  have hread : (match Grammar.fstringField 300 ⟨1, 1⟩
      (FieldText.split ['d', '[', '\'', ':', '\x7d', '\'', ']']) [] with
      | .ok (.field _ false none) _ => true
      | _ => false) = true := by decide +kernel
  have hbound : Token.weight ⟨.fstr "\x7b\x7b\x7bd[':\x7d']!r:>5\x7d\x7d\x7d", ⟨1, 1⟩⟩ ≤ 2000 := by
    decide
  split at hread
  next value left hvalue =>
    refine ⟨value, ⟨300, [], left, hvalue⟩, ?_⟩
    refine fstring_reads_fragments ⟨1, 1⟩ [.text ['\x7b'], .field f value, .text [], .text ['\x7d']]
      [⟨.eof, ⟨1, 22⟩⟩] 2000 (by simp) (fun f' value' hmem => ?_) hbound
    obtain ⟨rfl, rfl⟩ : f' = f ∧ value' = value := by simpa using hmem
    exact ⟨300, [], left, hvalue⟩
  · cases hread

end Scripting
