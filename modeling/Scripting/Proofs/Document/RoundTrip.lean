/-
# Values that come back from JSON

Nothing, truth values, whole numbers, texts, and lists and dicts of them come back from
their JSON text as they were: a value that stands for some tree is written, in every layout,
as a text that is read as a value that stands for the same tree (`json_round_trip`). The
order of the keys of a dict belongs to the tree. Values may be as deep as they can be
written, which is less than what can be read. Nothing is known of the codec but that it
writes and reads standard texts.

The tree of a value is a document (`Heap.Holds`). Writing takes a value to its tree
(`toDocumentWithin_of_holds`) and the tree to a text, reading takes the text to the tree
and the tree to a new value (`ofDocument_holds`).
-/
import Scripting.Proofs.Document.ReadBack
import Scripting.Proofs.RoundTrip.Datum
import Scripting.Proofs.Run.Evaluator
import Scripting.Session
import Scripting.Sample

namespace Scripting

/-- A value stands for a tree of at most so many levels: the root lies on the first level and
is no deeper than zero. There are no floats, functions and errors in it. -/
def Heap.Holds (h : Heap) : (levels : Nat) → Document → Value → Prop
  | 0, _, _ => False
  | levels + 1, d, v =>
    match d, v with
    | .null, .none => True
    | .bool b, .bool b' => b = b'
    | .int n, .int n' => n = n'
    | .text s, .str s' => s = s'
    | .array items, .list r => List.Forall₂ (h.Holds levels) items (h.list r).toList
    | .object entries, .dict r =>
      List.Forall₂ (fun e x => e.1 = x.1 ∧ h.Holds levels e.2 x.2) entries (h.dict r).entries
    | _, _ => False

/-! ### From values to documents -/

theorem mapItems_of_forall₂ {α β : Type} {f : α → Except Fault β} {as : List α} {bs : List β}
    (h : List.Forall₂ (fun b a => f a = .ok b) bs as) : mapItems f as = .ok bs := by
  induction h with
  | nil => rfl
  | cons hb _ ih => rw [mapItems, hb, ih]

theorem toDocumentWithin_of_holds {h : Heap} : ∀ {levels : Nat} {d : Document} {v : Value},
    h.Holds levels d v → h.toDocumentWithin levels v = .ok d
  | 0, _, _, hd => hd.elim
  | levels + 1, d, v, hd => by
    unfold Heap.Holds at hd
    split at hd
    · rfl
    · rw [hd]; rfl
    · rw [hd]; rfl
    · rw [hd]; rfl
    · rw [Heap.toDocumentWithin, mapItems_of_forall₂ (hd.imp fun _ _ => toDocumentWithin_of_holds)]
      rfl
    next entries r =>
      have hentries : mapItems (fun x => (h.toDocumentWithin levels x.2).map fun d => (x.1, d))
          (h.dict r).entries = .ok entries := by
        refine mapItems_of_forall₂ (hd.imp fun e x hx => ?_)
        rw [toDocumentWithin_of_holds hx.2, ← hx.1]
        rfl
      rw [Heap.toDocumentWithin, hentries]
      rfl
    · exact hd.elim

theorem fits_of_holds {h : Heap} : ∀ {levels : Nat} {d : Document} {v : Value},
    h.Holds levels d v → d.Fits levels
  | 0, _, _, hd => hd.elim
  | levels + 1, d, v, hd => by
    unfold Heap.Holds at hd
    split at hd
    · trivial
    · trivial
    · trivial
    · trivial
    · intro d hmem
      obtain ⟨v, -, hv⟩ := exists_of_forall₂ hd.flip d hmem
      exact fits_of_holds hv
    next entries r =>
      have hkeys : entries.map Prod.fst = (h.dict r).entries.map Prod.fst := by
        refine List.forall₂_eq_eq_eq ▸
          (List.forall₂_map_left_iff.2 (List.forall₂_map_right_iff.2 ?_))
        exact hd.imp fun _ _ hx => hx.1
      refine ⟨hkeys ▸ (h.dict r).distinct, fun e hmem => ?_⟩
      obtain ⟨x, -, hx⟩ := exists_of_forall₂ hd.flip e hmem
      exact fits_of_holds hx.2
    · exact hd.elim

/-! ### From documents to values -/

theorem Heap.Keeps.trans {h h' h'' : Heap} (g : h.Keeps h') (g' : h'.Keeps h'') : h.Keeps h'' :=
  ⟨g.lists.trans g'.lists, g.dicts.trans g'.dicts⟩

/-- A document becomes a value on a heap that only grows, and the value stands for the document
there and on every heap that keeps it. -/
def MakesValue (levels : Nat) (d : Document) : Prop :=
  ∀ h : Heap, h.Grows (h.ofDocument d).2 ∧
    ∀ h', (h.ofDocument d).2.Keeps h' → h'.Holds levels d (h.ofDocument d).1

theorem ofDocuments_holds {levels : Nat} : ∀ {items : List Document},
    (∀ d ∈ items, MakesValue levels d) → ∀ h : Heap, h.Grows (h.ofDocuments items).2 ∧
      ∀ h', (h.ofDocuments items).2.Keeps h' →
        List.Forall₂ (h'.Holds levels) items (h.ofDocuments items).1
  | [], _, h => ⟨.refl h, fun _ _ => .nil⟩
  | d :: items, hitems, h => by
    obtain ⟨g, hd⟩ := hitems d (.head _) h
    obtain ⟨g', hrest⟩ := ofDocuments_holds (fun d hd => hitems d (.tail _ hd))
      (h.ofDocument d).2
    rw [Heap.ofDocuments]
    exact ⟨g.trans g', fun h' hkeeps => .cons (hd h' (g'.toKeeps.trans hkeeps)) (hrest h' hkeeps)⟩

theorem ofEntries_holds {levels : Nat} : ∀ {entries : List (String × Document)},
    (∀ e ∈ entries, MakesValue levels e.2) → ∀ (h : Heap) (table : Table Value),
    (table.keys ++ entries.map Prod.fst).Nodup →
    h.Grows (h.ofEntries entries table).2 ∧
      ∃ made, (h.ofEntries entries table).1.entries = table.entries ++ made ∧
        ∀ h', (h.ofEntries entries table).2.Keeps h' →
          List.Forall₂ (fun e x => e.1 = x.1 ∧ h'.Holds levels e.2 x.2) entries made
  | [], _, h, table, _ => ⟨.refl h, [], (List.append_nil _).symm, fun _ _ => .nil⟩
  | (key, d) :: entries, hentries, h, table, hkeys => by
    obtain ⟨g, hd⟩ := hentries (key, d) (.head _) h
    have hnew : key ∉ table.entries.map Prod.fst := fun hmem =>
      (List.nodup_append.1 hkeys).2.2 key hmem key (.head _) rfl
    have hput : (table.insert key (h.ofDocument d).1).entries =
        table.entries ++ [(key, (h.ofDocument d).1)] := Table.put_of_not_mem hnew
    have hkeys' : ((table.insert key (h.ofDocument d).1).keys ++ entries.map Prod.fst).Nodup := by
      rw [Table.keys, hput]
      simpa [Table.keys] using hkeys
    obtain ⟨g', made, hmade, hrest⟩ := ofEntries_holds
      (fun e he => hentries e (.tail _ he)) (h.ofDocument d).2 _ hkeys'
    rw [Heap.ofEntries]
    refine ⟨g.trans g', (key, (h.ofDocument d).1) :: made, ?_, fun h' hkeeps => ?_⟩
    · rw [hmade, hput, List.append_assoc]
      rfl
    · exact .cons ⟨rfl, hd h' (g'.toKeeps.trans hkeeps)⟩ (hrest h' hkeeps)

theorem Heap.Keeps.newList {h h' : Heap} {items : Array Value} (g : (h.newList items).2.Keeps h') :
    h'.list (h.newList items).1 = items := by
  rw [g.list_eq (by simp [Heap.newList])]
  simp [Heap.newList, Heap.list, Array.getD_eq_getD_getElem?]

theorem Heap.Keeps.newDict {h h' : Heap} {entries : Table Value}
    (g : (h.newDict entries).2.Keeps h') : h'.dict (h.newDict entries).1 = entries := by
  rw [g.dict_eq (by simp [Heap.newDict])]
  simp [Heap.newDict, Heap.dict, Array.getD_eq_getD_getElem?]

theorem ofDocument_holds : ∀ {levels : Nat} {d : Document}, d.Fits levels → MakesValue levels d
  | 0, _, hd => hd.elim
  | levels + 1, d, hd => by
    intro h
    cases d with
    | null => exact ⟨.refl h, fun _ _ => trivial⟩
    | bool b => exact ⟨.refl h, fun _ _ => rfl⟩
    | int n => exact ⟨.refl h, fun _ _ => rfl⟩
    | float x => exact hd.elim
    | text s => exact ⟨.refl h, fun _ _ => rfl⟩
    | array items =>
      obtain ⟨g, hitems⟩ := ofDocuments_holds (fun d hmem => ofDocument_holds (hd d hmem)) h
      rw [Heap.ofDocument]
      refine ⟨g.trans (.newList _ _), fun h' hkeeps => ?_⟩
      change List.Forall₂ _ items (h'.list _).toList
      rw [hkeeps.newList]
      exact hitems h' ((Heap.Grows.newList _ _).toKeeps.trans hkeeps)
    | object entries =>
      obtain ⟨g, made, hmade, hentries⟩ :=
        ofEntries_holds (fun e hmem => ofDocument_holds (hd.2 e hmem)) h .empty hd.1
      rw [Heap.ofDocument]
      refine ⟨g.trans (.newDict _ _), fun h' hkeeps => ?_⟩
      change List.Forall₂ _ entries (h'.dict _).entries
      rw [hkeeps.newDict, hmade]
      exact hentries h' ((Heap.Grows.newDict _ _).toKeeps.trans hkeeps)

/-! ### Calls -/

/-- The keywords of a call that asks for no indent, or for one of some width. -/
inductive AsksIndent : Keywords → Prop
  | absent : AsksIndent .empty
  | none : AsksIndent (.ofList [("indent", .none)])
  | width (n : Int64) (h : 0 ≤ n) : AsksIndent (.ofList [("indent", .int n)])

theorem AsksIndent.layout {keywords : Keywords} (h : AsksIndent keywords) (name : String) :
    ∃ layout, JsonFunction.layoutOf name keywords = .ok layout := by
  cases h with
  | absent => exact ⟨.compact, rfl⟩
  | none => exact ⟨.compact, rfl⟩
  | width n h =>
    refine ⟨.indented n.toInt.toNat, ?_⟩
    change (if 0 ≤ n then _ else _) = _
    rw [if_pos h]

theorem failOnError_of_ok {act : Run Value} {w w' : World} {v : Value} (hact : act w = .ok v w')
    (hv : v.isError = false) : failOnError act w = .ok v w' := by
  change Run.bind act _ w = _
  unfold Run.bind
  rw [hact]
  cases v with
  | error message => cases hv
  | _ => rfl

theorem Heap.Holds.isError {h : Heap} {levels : Nat} {d : Document} {v : Value}
    (hd : h.Holds levels d v) : v.isError = false := by
  cases v with
  | error message =>
    cases levels with
    | zero => exact hd.elim
    | succ levels => cases d <;> exact hd.elim
  | _ => rfl

theorem callValue_dumps {env : Environment} {fuel : Nat} {f v : Value} {g : HostFunction}
    {w : World} {d : Document} {keywords : Keywords} (hf : w.heap.asFunction f = .ok (.host g))
    (hg : g.code = .json .dumps) (hd : w.heap.Holds (displayDepth + 1) d v)
    (hkeywords : AsksIndent keywords) (line : Nat) : ∃ layout,
    callValue env (fuel + 1) f [v] keywords line w = .ok (.str (env.codec.write layout d)) w := by
  obtain ⟨layout, hlayout⟩ := hkeywords.layout "dumps"
  have hwrite : JsonFunction.dumps.run env.codec [v] keywords w =
      .ok (.str (env.codec.write layout d)) w := by
    change JsonFunction.writing env.codec "dumps" [v] keywords w = _
    rw [JsonFunction.writing, hlayout]
    dsimp only [Run.view]
    rw [Heap.toDocument, toDocumentWithin_of_holds hd]
  refine ⟨layout, ?_⟩
  rw [Modality.callValue_succ, hf]
  dsimp only [Run.atLine]
  rw [HostFunction.invoke, hg]
  dsimp only
  rw [failOnError_of_ok hwrite rfl]

theorem callValue_loads {env : Environment} {fuel : Nat} {f : Value} {g : HostFunction} {w : World}
    {d : Document} {text : String} (hf : w.heap.asFunction f = .ok (.host g))
    (hg : g.code = .json .loads) (hd : d.Fits (displayDepth + 1))
    (htext : env.codec.read text = .ok d) (keywords : Keywords) (line : Nat) :
    ∃ v h, callValue env (fuel + 1) f [.str text] keywords line w = .ok v { w with heap := h } ∧
      w.heap.Grows h ∧ h.Holds (displayDepth + 1) d v := by
  obtain ⟨hgrows, hholds⟩ := ofDocument_holds hd w.heap
  have hnew := hholds _ ⟨List.prefix_rfl, List.prefix_rfl⟩
  have hread : JsonFunction.loads.run env.codec [.str text] keywords w =
      .ok (w.heap.ofDocument d).1 { w with heap := (w.heap.ofDocument d).2 } := by
    change JsonFunction.reading env.codec "loads" [.str text] w = _
    rw [JsonFunction.reading, htext]
    rfl
  refine ⟨_, _, ?_, hgrows, hnew⟩
  rw [Modality.callValue_succ, hf]
  dsimp only [Run.atLine]
  rw [HostFunction.invoke, hg]
  dsimp only
  rw [failOnError_of_ok hread hnew.isError]

/-- Data come back from their JSON text, whatever codec is used that writes and reads standard
texts. A value that is built from nothing, truth values, whole numbers, texts, lists and dicts,
with no part deeper than what is displayed, is written as a text, whatever indent is asked for,
and nothing changes. In every world the text is read as a new value that stands for the same tree,
the order of keys included. -/
theorem json_round_trip (env : Environment) (hcodec : env.codec.Standard) (fuel : Nat) {w : World} {v : Value} {d : Document}
    (hd : w.heap.Holds (displayDepth + 1) d v) {dumps : Value} {g : HostFunction}
    (hdumps : w.heap.asFunction dumps = .ok (.host g)) (hg : g.code = .json .dumps)
    {keywords : Keywords} (hkeywords : AsksIndent keywords) (line : Nat) :
    ∃ text, callValue env (fuel + 1) dumps [v] keywords line w = .ok (.str text) w ∧
      ∀ (w' : World) (loads : Value) (g' : HostFunction) (keywords' : Keywords) (line' : Nat),
        w'.heap.asFunction loads = .ok (.host g') → g'.code = .json .loads →
        ∃ v' h', callValue env (fuel + 1) loads [.str text] keywords' line' w' =
            .ok v' { w' with heap := h' } ∧
          w'.heap.Grows h' ∧ h'.Holds (displayDepth + 1) d v' := by
  obtain ⟨layout, hwrite⟩ := callValue_dumps hdumps hg hd hkeywords line
  have hfits := fits_of_holds hd
  -- The tree has at most 65 levels, and 127 can be read.
  have hread : env.codec.read (env.codec.write layout d) = .ok d :=
    hcodec.reads _ d _ (by decide) (hcodec.writes layout _ d hfits)
  exact ⟨_, hwrite, fun w' loads g' keywords' line' hloads hg' =>
    callValue_loads hloads hg' hfits hread keywords' line'⟩

/-- A world with the functions that write and read, and with a dict that holds a list with the
least number and a text that has to be escaped, and an empty dict. -/
def Sample.writingWorld : World :=
  { World.fresh .live .capture with
    heap :=
      { lists := #[#[.int Int64.minValue, .str "\x01\"\n", .none]]
        dicts := #[.ofList [("k", .list ⟨0⟩), ("", .dict ⟨1⟩)], .empty]
        functions := #[.host ⟨"json.dumps", .json .dumps⟩, .host ⟨"json.loads", .json .loads⟩]
        scopes := #[] } }

def Sample.writtenTree : Document :=
  .object [("k", .array [.int Int64.minValue, .text "\x01\"\n", .null]), ("", .object [])]

/-- Written with two blanks a level, the dict comes back. -/
theorem json_round_trip_nested :
    let s := Session.build Sample.body {}
    let w := Sample.writingWorld
    let indent : Keywords := .ofList [("indent", .int 2)]
    s.env.codec.Standard ∧ w.heap.Holds (displayDepth + 1) Sample.writtenTree (.dict ⟨0⟩) ∧ AsksIndent indent ∧
      ∃ text, callValue s.env 1 (.function ⟨0⟩) [.dict ⟨0⟩] indent 1 w = .ok (.str text) w ∧
        ∃ v' h', callValue s.env 1 (.function ⟨1⟩) [.str text] .empty 1 w =
            .ok v' { w with heap := h' } ∧
          w.heap.Grows h' ∧ h'.Holds (displayDepth + 1) Sample.writtenTree v' := by
  intro s w indent
  have hholds : w.heap.Holds (displayDepth + 1) Sample.writtenTree (.dict ⟨0⟩) :=
    .cons ⟨rfl, .cons rfl (.cons rfl (.cons trivial .nil))⟩ (.cons ⟨rfl, .nil⟩ .nil)
  have hindent : AsksIndent indent := .width 2 (by decide)
  obtain ⟨text, hwrite, hread⟩ :=
    json_round_trip s.env Document.standard_codec 0 hholds (rfl : w.heap.asFunction (.function ⟨0⟩) = _) rfl hindent 1
  exact ⟨Document.standard_codec, hholds, hindent, text, hwrite, hread w (.function ⟨1⟩) _ .empty 1 rfl rfl⟩

end Scripting
