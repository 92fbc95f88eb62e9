/-
# Standard texts

A document without floats has many standard texts: characters of a text may be escaped in several
ways, and blanks may stand around every part. The relation says which texts these are, with no
regard to any reader or writer. A codec is asked to write one of them for every document and to
read all of them in which less than 128 containers stand inside each other.
-/
import Scripting.Document.Exchange

namespace Scripting.Document

/-- What may stand between the parts of a text. -/
def isBlank (c : Char) : Bool := c == ' ' || c == '\n' || c == '\t' || c == '\r'

def Blank (cs : List Char) : Prop := ∀ c ∈ cs, isBlank c = true

/-- The letters of escapes and what they stand for. -/
def escapes : List (Char × Char) :=
  [('"', '"'), ('\\', '\\'), ('/', '/'), ('b', '\x08'), ('f', '\x0c'), ('n', '\n'), ('r', '\r'),
    ('t', '\t')]

/-- The ways to write a character inside quotes: as it is, with a letter, or by its number. -/
inductive SpellsChar (c : Char) : List Char → Prop
  | plain (hcontrol : 32 ≤ c.toNat) (hquote : c ≠ '"') (hslash : c ≠ '\\') : SpellsChar c [c]
  | letter {e : Char} (h : (e, c) ∈ escapes) : SpellsChar c ['\\', e]
  | number (h : c.toNat < 65536) : SpellsChar c
      ['\\', 'u', hexDigit (c.toNat / 4096), hexDigit (c.toNat / 256 % 16),
        hexDigit (c.toNat / 16 % 16), hexDigit (c.toNat % 16)]

/-- The characters of a text and the closing quote. -/
inductive SpellsChars : List Char → List Char → Prop
  | nil : SpellsChars [] ['"']
  | cons {c : Char} {cs text more : List Char} (hc : SpellsChar c text) (h : SpellsChars cs more) :
      SpellsChars (c :: cs) (text ++ more)

section Parts

variable {α : Type} (spells : α → List Char → Prop)

/-- Parts with commas between them and blanks around them, up to a closing bracket. -/
inductive SpellsParts (closing : Char) : List α → List Char → Prop
  | last {a : α} {before text behind : List Char} (hbefore : Blank before) (ha : spells a text)
      (hbehind : Blank behind) :
      SpellsParts closing [a] (before ++ (text ++ (behind ++ [closing])))
  | comma {a next : α} {parts : List α} {before text behind more : List Char}
      (hbefore : Blank before) (ha : spells a text) (hbehind : Blank behind)
      (h : SpellsParts closing (next :: parts) more) :
      SpellsParts closing (a :: next :: parts) (before ++ (text ++ (behind ++ ',' :: more)))

/-- Parts between two brackets. -/
inductive SpellsList (opening closing : Char) : List α → List Char → Prop
  | empty {blanks : List Char} (h : Blank blanks) :
      SpellsList opening closing [] (opening :: (blanks ++ [closing]))
  | parts {a : α} {parts : List α} {more : List Char}
      (h : SpellsParts spells closing (a :: parts) more) :
      SpellsList opening closing (a :: parts) (opening :: more)

/-- A key and a value with a colon between them. -/
inductive SpellsEntry : String × α → List Char → Prop
  | mk {key : String} {a : α} {quoted before behind text : List Char}
      (hkey : SpellsChars key.toList quoted) (hbefore : Blank before) (hbehind : Blank behind)
      (ha : spells a text) :
      SpellsEntry (key, a) ('"' :: (quoted ++ (before ++ ':' :: (behind ++ text))))

end Parts

/-- The standard texts of a document of at most some levels. -/
def Spells : (levels : Nat) → Document → List Char → Prop
  | 0, _, _ => False
  | _ + 1, .null, cs => cs = ['n', 'u', 'l', 'l']
  | _ + 1, .bool b, cs => cs = if b then ['t', 'r', 'u', 'e'] else ['f', 'a', 'l', 's', 'e']
  | _ + 1, .int n, cs => cs = (Word64.text n).toList
  | _ + 1, .float _, _ => False
  | _ + 1, .text s, cs => ∃ quoted, cs = '"' :: quoted ∧ SpellsChars s.toList quoted
  | levels + 1, .array items, cs => SpellsList (Spells levels) '[' ']' items cs
  | levels + 1, .object entries, cs => (entries.map Prod.fst).Nodup ∧
      SpellsList (SpellsEntry (Spells levels)) '\x7b' '\x7d' entries cs

/-- A document of at most some levels, without floats and with distinct keys. -/
def Fits : Nat → Document → Prop
  | 0, _ => False
  | _ + 1, .float _ => False
  | levels + 1, .array items => ∀ d ∈ items, d.Fits levels
  | levels + 1, .object entries =>
    (entries.map Prod.fst).Nodup ∧ ∀ e ∈ entries, e.2.Fits levels
  | _ + 1, _ => True

/-- What is asked of a codec. -/
structure Codec.Standard (codec : Codec) : Prop where
  writes : ∀ (layout : Layout) (levels : Nat) (d : Document), d.Fits levels →
    Spells levels d (codec.write layout d).toList
  reads : ∀ (levels : Nat) (d : Document) (text : String), levels < 128 →
    Spells levels d text.toList → codec.read text = .ok d

/-! ### The writer -/

variable {layout : Layout} {level levels : Nat}

theorem blank_nil : Blank [] := List.forall_mem_nil _

theorem blank_lineBreak (layout : Layout) (level : Nat) : Blank (layout.lineBreak level).toList := by
  cases layout with
  | compact => exact blank_nil
  | indented width =>
    intro c hc
    simp only [Layout.lineBreak, String.toList_append, String.toList_ofList, List.mem_append] at hc
    rcases hc with hc | hc
    · obtain rfl : c = '\n' := by simpa using hc
      rfl
    · rw [List.eq_of_mem_replicate hc]
      rfl

theorem colon_blank (layout : Layout) :
    ∃ blanks, layout.colon.toList = ':' :: blanks ∧ Blank blanks := by
  cases layout with
  | compact => exact ⟨[], rfl, blank_nil⟩
  | indented width => exact ⟨[' '], by simp [Layout.colon], List.forall_mem_singleton.2 rfl⟩

theorem spellsChar_quotedTextChar (c : Char) : SpellsChar c (quotedTextChar c) := by
  unfold quotedTextChar
  split
  case h_8 hquote hslash _ _ _ _ _ =>
    split
    next hcontrol =>
      have hnumber := SpellsChar.number (c := c) (by omega)
      rw [show c.toNat / 4096 = 0 by omega, show c.toNat / 256 % 16 = 0 by omega,
        show c.toNat / 16 % 16 = c.toNat / 16 by omega] at hnumber
      exact hnumber
    next hcontrol => exact .plain (Nat.le_of_not_lt hcontrol) hquote hslash
  all_goals exact .letter (by decide)

theorem spellsChars_quoted : ∀ cs : List Char,
    SpellsChars cs (cs.flatMap quotedTextChar ++ ['"'])
  | [] => .nil
  | c :: cs => by
    rw [List.flatMap_cons, List.append_assoc]
    exact .cons (spellsChar_quotedTextChar c) (spellsChars_quoted cs)

theorem toList_quotedText (s : String) :
    (quotedText s).toList = '"' :: (s.toList.flatMap quotedTextChar ++ ['"']) := by
  simp [quotedText]

theorem spellsParts_intercalate {α : Type} {spells : α → List Char → Prop} {text : α → String}
    (closing : Char) {inner outer : List Char} (hinner : Blank inner) (houter : Blank outer) :
    ∀ (a : α) (parts : List α), (∀ x ∈ a :: parts, spells x (text x).toList) →
    SpellsParts spells closing (a :: parts) (inner ++ ((',' :: inner).intercalate
      ((a :: parts).map fun x => (text x).toList) ++ (outer ++ [closing])))
  | a, [], h => by
    rw [List.map_singleton, List.intercalate_singleton]
    exact .last hinner (h a (.head _)) houter
  | a, next :: parts, h => by
    have ih := spellsParts_intercalate closing hinner houter next parts
      fun x hx => h x (.tail _ hx)
    have hwhole := SpellsParts.comma hinner (h a (.head _)) blank_nil ih
    rw [List.map_cons, List.map_cons, List.intercalate_cons_cons]
    simpa using hwhole

theorem spellsList_enclose {α : Type} {spells : α → List Char → Prop} {text : α → String}
    (opening closing : Char) {parts : List α} (h : ∀ a ∈ parts, spells a (text a).toList) :
    SpellsList spells opening closing parts (enclose layout level (String.singleton opening)
      (String.singleton closing) (parts.map text)).toList := by
  cases parts with
  | nil =>
    rw [List.map_nil, enclose, List.isEmpty_nil, if_pos rfl, String.toList_append,
      String.toList_singleton, String.toList_singleton]
    exact .empty blank_nil
  | cons a parts =>
    have hparts : SpellsList spells opening closing (a :: parts) _ :=
      .parts (spellsParts_intercalate closing (blank_lineBreak layout (level + 1))
        (blank_lineBreak layout level) a parts h)
    rw [enclose, List.map_cons, List.isEmpty_cons, if_neg Bool.false_ne_true, ← List.map_cons]
    simpa [String.toList_intercalate, Function.comp_def] using hparts

theorem writeItems_eq_map (layout : Layout) (level : Nat) : ∀ items : List Document,
    writeItems layout level items = items.map (writeAt layout level)
  | [] => rfl
  | d :: rest => by rw [writeItems, writeItems_eq_map layout level rest, List.map_cons]

def entryText (layout : Layout) (level : Nat) (e : String × Document) : String :=
  quotedText e.1 ++ layout.colon ++ writeAt layout level e.2

theorem writeEntries_eq_map (layout : Layout) (level : Nat) : ∀ entries : List (String × Document),
    writeEntries layout level entries = entries.map (entryText layout level)
  | [] => rfl
  | e :: rest => by
    rw [writeEntries, writeEntries_eq_map layout level rest, List.map_cons, entryText]

theorem spellsEntry_entryText {e : String × Document}
    (h : Spells levels e.2 (writeAt layout level e.2).toList) :
    SpellsEntry (Spells levels) e (entryText layout level e).toList := by
  obtain ⟨blanks, hcolon, hblanks⟩ := colon_blank layout
  have hentry := SpellsEntry.mk (spellsChars_quoted e.1.toList) blank_nil hblanks h
  simpa [entryText, toList_quotedText, hcolon] using hentry

theorem spells_writeAt (layout : Layout) : ∀ (levels level : Nat) (d : Document),
    d.Fits levels → Spells levels d (writeAt layout level d).toList
  | 0, _, _, h => h.elim
  | levels + 1, level, d, h => by
    cases d with
    | null => simp [writeAt, Spells]
    | bool b => cases b <;> simp [writeAt, Spells]
    | int n => simp [writeAt, Spells]
    | float x => exact h.elim
    | text s =>
      rw [writeAt]
      exact ⟨_, toList_quotedText s, spellsChars_quoted s.toList⟩
    | array items =>
      rw [writeAt, writeItems_eq_map]
      exact spellsList_enclose '[' ']' fun d hd => spells_writeAt layout levels _ d (h d hd)
    | object entries =>
      rw [writeAt, writeEntries_eq_map]
      exact ⟨h.1, spellsList_enclose '\x7b' '\x7d' fun e he =>
        spellsEntry_entryText (spells_writeAt layout levels _ e.2 (h.2 e he))⟩

end Scripting.Document
