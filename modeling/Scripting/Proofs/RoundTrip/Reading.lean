/-
# Reading back what was written

Assigning the written form of some data to a name succeeds, and afterwards the name
stands for the same data (`eval_assign_repr`). How the text and the tokens are read is
in `Spelling` and `Writing`. Here the expression is evaluated, which puts new lists and
dicts on the heap and changes nothing that is there (`evalExpr_written`), and its value
is bound to the name.
-/
import Scripting.Proofs.Globals
import Scripting.Proofs.RoundTrip.Writing

namespace Scripting

variable {h : Heap} {levels : Nat}

/-- A value stands for some data, and its references lead somewhere. -/
def Heap.Shows (h : Heap) (levels : Nat) (d : Datum) (v : Value) : Prop :=
  h.Solid levels v ∧ h.datum? levels v = some d

theorem Heap.Shows.keeps {h' : Heap} {d : Datum} {v : Value}
    (hs : h.Shows levels d v) (g : h.Keeps h') : h'.Shows levels d v := by
  obtain ⟨hsolid, hdatum⟩ := hs.1.keeps g
  exact ⟨hsolid, hdatum.trans hs.2⟩

theorem Table.entries_insert {α : Type} (t : Table α) {name : String} (h : name ∉ t.keys)
    (value : α) : (t.insert name value).entries = t.entries ++ [(name, value)] :=
  Table.put_of_not_mem h

/-! ### Evaluating data -/

/-- An expression gives data in every world, by putting new things on the heap. -/
def GivesData (eval : Expr → Run Value) (levels : Nat) (d : Datum) (e : Expr) : Prop :=
  ∀ w : World, ∃ v h, eval e w = .ok v { w with heap := h } ∧ w.heap.Grows h ∧ h.Shows levels d v

theorem evalEach_gives {eval : Expr → Run Value} {ds : List Datum} {es : List Expr}
    (h : List.Forall₂ (GivesData eval levels) ds es) : ∀ (done : Array Value) (w : World),
    ∃ vs heap, evalEach eval done es w = .ok (done ++ vs) { w with heap := heap } ∧
      w.heap.Grows heap ∧ List.Forall₂ (heap.Shows levels) ds vs.toList := by
  induction h with
  | nil =>
    intro done w
    exact ⟨#[], w.heap, by rw [Array.append_empty]; rfl, .refl _, .nil⟩
  | @cons d e ds es he _ ih =>
    intro done w
    obtain ⟨v, h₁, hv, g₁, hshows⟩ := he w
    obtain ⟨vs, h₂, hvs, g₂, hall⟩ := ih (done.push v) { w with heap := h₁ }
    refine ⟨#[v] ++ vs, h₂, ?_, g₁.trans g₂, ?_⟩
    · rw [evalEach, Run.bind_of_ok hv, hvs]
      simp
    · simpa using List.Forall₂.cons (hshows.keeps g₂.toKeeps) hall

theorem evalEntries_gives {eval : Expr → Run Value} (line : Nat)
    (htext : ∀ p s w, eval (.str p s) w = .ok (.str s) w) {ds : List (String × Datum)}
    {es : List DictEntry} (h : List.Forall₂ (fun d entry => (∃ p, entry.key = .str p d.1) ∧
      GivesData eval levels d.2 entry.value) ds es) :
    ∀ (done : Table Value) (w : World), (done.keys ++ ds.map Prod.fst).Nodup →
    ∃ table heap vs, evalEntries eval line done es w = .ok table { w with heap := heap } ∧
      w.heap.Grows heap ∧ table.entries = done.entries ++ vs ∧
      List.Forall₂ (fun v d => v.1 = d.1 ∧ heap.Shows levels d.2 v.2) vs ds := by
  induction h with
  | nil =>
    intro done w _
    exact ⟨done, w.heap, [], rfl, .refl _, by simp, .nil⟩
  | @cons d entry ds es hentry _ ih =>
    intro done w hkeys
    obtain ⟨⟨p, hkey⟩, hvalue⟩ := hentry
    obtain ⟨v, h₁, hv, g₁, hshows⟩ := hvalue w
    rw [List.map_cons] at hkeys
    have hnew : d.1 ∉ done.keys := fun hmem =>
      (List.nodup_append.1 hkeys).2.2 d.1 hmem d.1 (.head _) rfl
    have hentries := done.entries_insert hnew v
    have hkeys' : ((done.insert d.1 v).keys ++ ds.map Prod.fst).Nodup := by
      rw [Table.keys, hentries]
      simpa [Table.keys] using hkeys
    obtain ⟨table, h₂, vs, hrun, g₂, htable, hall⟩ :=
      ih (done.insert d.1 v) { w with heap := h₁ } hkeys'
    refine ⟨table, h₂, (d.1, v) :: vs, ?_, g₁.trans g₂, ?_, .cons ⟨rfl, hshows.keeps g₂.toKeeps⟩ hall⟩
    · have hname : eval entry.key w = .ok (.str d.1) w := by rw [hkey, htext]
      rw [evalEntries, Run.bind_of_ok hname]
      change (eval entry.value >>= _) w = _
      rw [Run.bind_of_ok hv, hrun]
    · rw [htable, hentries]
      simp

theorem shows_newList {ds : List Datum} {vs : Array Value}
    (hall : List.Forall₂ (h.Shows levels) ds vs.toList) :
    (h.newList vs).2.Shows (levels + 1) (.list ds) (.list (h.newList vs).1) := by
  have hread : (h.newList vs).2.list (h.newList vs).1 = vs := by
    simp [Heap.newList, Heap.list, Array.getD_eq_getD_getElem?]
  have hgrown := hall.imp fun d v (hs : h.Shows levels d v) => hs.keeps (Heap.Grows.newList h vs).toKeeps
  refine ⟨⟨by simp [Heap.newList], fun v hv => ?_⟩, Heap.datum?_list_iff.2 ⟨ds, rfl, ?_⟩⟩
  · rw [hread] at hv
    obtain ⟨d, -, hs⟩ := exists_of_forall₂ hgrown v hv
    exact hs.1
  · rw [hread]
    exact (hgrown.imp fun d v hs => hs.2).flip

theorem shows_newDict {ds : List (String × Datum)} {table : Table Value}
    (hall : List.Forall₂ (fun v d => v.1 = d.1 ∧ h.Shows levels d.2 v.2) table.entries ds) :
    (h.newDict table).2.Shows (levels + 1) (.dict ds) (.dict (h.newDict table).1) := by
  have hread : (h.newDict table).2.dict (h.newDict table).1 = table := by
    simp [Heap.newDict, Heap.dict, Array.getD_eq_getD_getElem?]
  have hgrown := hall.imp fun (v : String × Value) (d : String × Datum)
    (hs : v.1 = d.1 ∧ h.Shows levels d.2 v.2) => And.intro hs.1 (hs.2.keeps (Heap.Grows.newDict h table).toKeeps)
  refine ⟨⟨by simp [Heap.newDict], fun e he => ?_⟩, Heap.datum?_dict_iff.2 ⟨ds, rfl, ?_⟩⟩
  · rw [hread] at he
    obtain ⟨d, -, hs⟩ := exists_of_forall₂ hgrown.flip e he
    exact hs.2.1
  · rw [hread]
    exact hgrown.imp fun v d hs => ⟨hs.1, hs.2.2⟩

/-- An expression that writes data gives them. A list or a dict takes one step more
than what is in it, and a sign one step more than the number. -/
theorem evalExpr_written (env : Environment) (scope : ScopeRef) :
    ∀ {levels fuel : Nat} {d : Datum} {e : Expr}, d.Written levels e → d.Keyed levels →
      levels < fuel → GivesData (evalExpr env fuel scope) levels d e
  | 0, _, _, _, h, _, _ => h.elim
  | levels + 1, fuel + 2, d, e, h, hkeyed, hfuel => by
    have hconst (v : Value) (hv : ∀ w, evalExpr env (fuel + 2) scope e w = .ok v w)
        (hs : ∀ x : Heap, x.Shows (levels + 1) d v) :
        GivesData (evalExpr env (fuel + 2) scope) (levels + 1) d e := fun w =>
      ⟨v, w.heap, hv w, .refl _, hs w.heap⟩
    cases d with
    | none =>
      obtain ⟨p, rfl⟩ := h
      exact hconst .none (fun w => by rw [evalExpr.eq_def]; rfl) fun x => ⟨trivial, rfl⟩
    | bool b =>
      obtain ⟨p, rfl⟩ := h
      exact hconst (.bool b) (fun w => by rw [evalExpr.eq_def]; rfl) fun x => ⟨trivial, rfl⟩
    | str s =>
      obtain ⟨p, rfl⟩ := h
      exact hconst (.str s) (fun w => by rw [evalExpr.eq_def]; rfl) fun x => ⟨trivial, rfl⟩
    | int n hn =>
      have hs (x : Heap) : x.Shows (levels + 1) (.int n hn) (.int n) :=
        ⟨trivial, by rw [Heap.datum?]; exact dif_pos hn⟩
      rcases h with ⟨p, rfl⟩ | ⟨p, q, m, hm, rfl⟩
      · exact hconst (.int n) (fun w => by rw [evalExpr.eq_def]; rfl) hs
      refine hconst (.int n) (fun w => ?_) hs
      have hoperand : evalExpr env (fuel + 1) scope (.int q m) w = .ok (.int m) w := by
        rw [evalExpr.eq_def]
        rfl
      have hneg : unary w.heap .neg (.int m) = .ok (.int n) := by
        change wordResult (Word64.neg? m) = _
        rw [hm]
        rfl
      rw [evalExpr.eq_def]
      dsimp only
      rw [evalUnary, Run.bind_of_ok hoperand]
      dsimp only [Run.atLine, Run.inspect]
      rw [hneg]
    | list items =>
      obtain ⟨p, es, rfl, hes⟩ := h
      intro w
      have hparts : List.Forall₂ (GivesData (evalExpr env (fuel + 1) scope) levels) items es := by
        refine forall₂_imp_mem hes fun d hd e he => ?_
        exact evalExpr_written env scope he (hkeyed d hd) (by omega)
      obtain ⟨vs, heap, hrun, g, hall⟩ := evalEach_gives hparts #[] w
      rw [Array.empty_append] at hrun
      refine ⟨.list (heap.newList vs).1, (heap.newList vs).2, ?_, g.trans (.newList heap vs),
        shows_newList hall⟩
      rw [evalExpr.eq_def]
      exact Run.bind_of_ok hrun _
    | dict entries =>
      obtain ⟨p, es, rfl, hes⟩ := h
      intro w
      have hparts : List.Forall₂ (fun d entry => (∃ p, entry.key = .str p d.1) ∧
          GivesData (evalExpr env (fuel + 1) scope) levels d.2 entry.value) entries es := by
        refine forall₂_imp_mem hes fun d hd e he => ⟨he.1, ?_⟩
        exact evalExpr_written env scope he.2 (hkeyed.2 d hd) (by omega)
      have htext (p : Position) (s : String) (w : World) :
          evalExpr env (fuel + 1) scope (.str p s) w = .ok (.str s) w := by
        rw [evalExpr.eq_def]
        rfl
      obtain ⟨table, heap, vs, hrun, g, hentries, hall⟩ :=
        evalEntries_gives p.line htext hparts .empty w hkeyed.1
      have htable : table.entries = vs := hentries
      refine ⟨.dict (heap.newDict table).1, (heap.newDict table).2, ?_, g.trans (.newDict heap table),
        shows_newDict (htable ▸ hall)⟩
      rw [evalExpr.eq_def]
      exact Run.bind_of_ok hrun _

/-! ### The line of an assignment -/

theorem tokenizeAt_assign {x : String} (hx : IsIdentifier x) {d : Datum}
    {text : List Char} (h : SpelledAs text (d.Spelled levels)) (pos : Position) :
    ∃ p q ts r, d.Spelled levels (ts.map Token.kind) ∧
      tokenizeAt pos (x.toList ++ ' ' :: '=' :: ' ' :: text) =
        .ok (⟨.name x, p⟩ :: ⟨.symbol .assign, q⟩ :: (ts ++ [⟨.newline, r⟩, ⟨.eof, r⟩])) := by
  obtain ⟨own, hown, hvalue⟩ := h [] [] (by simp [Closes]) .nil
  rw [List.append_nil, List.append_nil] at hvalue
  have hsign : Spells ('=' :: ' ' :: text) (.symbol .assign :: own) :=
    .char (scanToken_symbol rfl (by simp; rfl) fun h => absurd h (by decide)) (.blank rfl hvalue)
  have hline : Spells (x.toList ++ ' ' :: '=' :: ' ' :: text) (.name x :: .symbol .assign :: own) :=
    spells_identifier hx (by simp; rfl) (by simp; rfl) (.blank rfl hsign)
  obtain ⟨found, r, hkinds, htokens⟩ := hline.tokenizeAt (fun c hc => (hx.head _ c hc).1) pos
  obtain ⟨⟨_, q⟩, ts, rfl, rfl, rfl⟩ := List.map_eq_cons_iff.1 hkinds
  exact ⟨pos, q, ts, r, hown, htokens⟩

/-! ### The round trip -/

theorem runProgram_assign {env : Environment} {fuel : Nat} {d : Datum} {e : Expr}
    (he : d.Written levels e) (hkeyed : d.Keyed levels) (hfuel : levels < fuel) (p : Position)
    (x : String) {w : World} (hroot : w.heap.IsRoot env.globals)
    (htoken : ¬ w.token.hasFired w.now = true) :
    ∃ v h, w.heap.Grows h ∧ h.Shows levels d v ∧
      runProgram env (fuel + 1) [.assign p (.name x) e] w =
        .ok .none { w with heap := h.define env.globals x v, now := w.now + 1 } := by
  let later : World := { w with now := w.now + 1 }
  obtain ⟨v, h, hv, g, hshows⟩ := evalExpr_written env env.globals he hkeyed hfuel later
  have hroot' : h.IsRoot env.globals := by
    rw [Heap.IsRoot, Heap.shape, g.scopes]
    exact hroot
  refine ⟨v, h, g, hshows, ?_⟩
  have hassign : assignTarget (evalExpr env fuel env.globals) env.globals p.line (.name x) v
      { later with heap := h } = .ok () { later with heap := h.define env.globals x v } := by
    rw [assignTarget, Run.changeHeap, hroot'.assign]
  have hexec : execStmt env (fuel + 1) env.globals (.assign p (.name x) e) w =
      .ok .normal { later with heap := h.define env.globals x v } := by
    rw [execStmt.eq_def]
    refine (Run.bind_of_ok (checkpoint_of_not_hasFired htoken _ 1) _).trans ?_
    exact (Run.bind_of_ok hv _).trans (Run.bind_of_ok hassign _)
  unfold runProgram
  rw [Run.bind_of_ok hexec]
  rfl

/-- What an evaluation changed if it bound one global name: the name, and lists and
dicts that were not there before. -/
structure Session.BindsOnly (s s' : Session) (x : String) : Prop where
  others : ∀ y, y ≠ x → s'.getVar y = s.getVar y
  modules : s'.world.modules = s.world.modules
  lists : s.world.heap.lists.toList <+: s'.world.heap.lists.toList
  dicts : s.world.heap.dicts.toList <+: s'.world.heap.dicts.toList
  functions : s'.world.heap.functions = s.world.heap.functions
  scopes : ∀ r, r ≠ s.env.globals → s'.world.heap.scope r = s.world.heap.scope r
  env : s'.env = s.env
  output : s'.world.output = s.world.output

theorem Heap.scope_define_of_ne {r r' : ScopeRef} (hr : r' ≠ r) (name : String)
    (v : Value) : (h.define r name v).scope r' = h.scope r' := by
  have hid : r.id ≠ r'.id := fun heq => hr (by cases r; cases r'; cases heq; rfl)
  simp [Heap.define, Heap.modifyVars, Heap.scope, Array.getD_eq_getD_getElem?,
    Array.getElem?_modify, hid]

/-- Assigning the written form of plain data to a name succeeds. Afterwards the name
stands for the same data, and nothing else has changed. -/
theorem eval_assign_repr {s : Session} (hs : s.Rooted) {token : CancelToken}
    (htoken : ¬ token.hasFired s.world.now = true) {x : String} (hx : IsIdentifier x) {h : Heap}
    {v : Value} {d : Datum} (hd : h.datum? (displayDepth + 1) v = some d) :
    ∃ s' v', s.eval token (x ++ " = " ++ h.repr v) = (.ok .none, s') ∧ s'.getVar x = .ok v' ∧
      s'.world.heap.datum? (displayDepth + 1) v' = some d ∧ s.BindsOnly s' x := by
  obtain ⟨p, q, ts, r, hts, htokens⟩ := tokenizeAt_assign hx (h.spelledAs_render hd) .start
  obtain ⟨e, he, hprogram⟩ := Grammar.program_assign hts x p q r r
  have hparse : parse (x ++ " = " ++ h.repr v) = .ok [.assign p (.name x) e] := by
    have hchars : (x ++ " = " ++ h.repr v).toList =
        x.toList ++ ' ' :: '=' :: ' ' :: (h.render (displayDepth + 1) true v).toList := by
      rw [String.toList_append, String.toList_append, Heap.repr]
      simp
    unfold parse tokenize
    rw [hchars, htokens]
    exact hprogram
  let w := { s.world with token := token, depth := 0, handling := [] }
  obtain ⟨v', h', g, hshows, hrun⟩ : ∃ v' h', w.heap.Grows h' ∧ h'.Shows (displayDepth + 1) d v' ∧
      runProgram s.env stepBudget [.assign p (.name x) e] w =
        .ok .none { w with heap := h'.define s.env.globals x v', now := w.now + 1 } :=
    runProgram_assign he (Heap.keyed_of_datum? hd) (by decide : displayDepth + 1 < stepBudget - 1) p x
      hs htoken
  have hlocal (y : String) : (h'.define s.env.globals x v').local? s.env.globals y =
      if y = x then some v' else s.world.heap.local? s.env.globals y := by
    have hroot : h'.IsRoot s.env.globals := by
      rw [Heap.IsRoot, Heap.shape, g.scopes]
      exact hs
    rw [hroot.local?_define, Heap.local?, Heap.scope, g.scopes]
    rfl
  have hdata : (h'.define s.env.globals x v').Shows (displayDepth + 1) d v' :=
    hshows.keeps ⟨List.prefix_rfl, List.prefix_rfl⟩
  refine ⟨{ s with world := { w with heap := h'.define s.env.globals x v', now := w.now + 1 } }, v', ?_,
    ?_, hdata.2, ?_⟩
  · unfold Session.eval Session.run
    rw [hparse]
    dsimp only
    rw [hrun]
  · unfold Session.getVar
    dsimp only
    rw [hlocal, if_pos rfl]
  refine ⟨fun y hy => ?_, rfl, g.lists, g.dicts, g.functions, fun r hr => ?_, rfl, rfl⟩
  · unfold Session.getVar
    dsimp only
    rw [hlocal, if_neg hy]
  · dsimp only
    rw [Heap.scope_define_of_ne hr, Heap.scope, g.scopes]
    rfl

/-- A heap with a dict that holds a list, under keys and with texts that need escapes. -/
def Sample.nested : Heap where
  lists := #[#[.int (-5), .none, .bool true]]
  dicts := #[.ofList [("it's \"here\"", .list ⟨0⟩), ("", .str "\x00\n\\")]]
  functions := #[]
  scopes := #[]

def Sample.nestedDatum : Datum :=
  .dict [("it's \"here\"", .list [.int (-5) (by decide), .none, .bool true]), ("", .str "\x00\n\\")]

/-- The round trip of the sample dict, in a session that a script was evaluated in. -/
theorem eval_assign_repr_nested :
    let s := ((Session.build Sample.body {}).eval .live "x = [1]").2
    s.Rooted ∧ ¬ CancelToken.live.hasFired s.world.now = true ∧ IsIdentifier "x" ∧
    Sample.nested.datum? (displayDepth + 1) (.dict ⟨0⟩) = some Sample.nestedDatum ∧
    ∃ s' v', s.eval .live ("x" ++ " = " ++ Sample.nested.repr (.dict ⟨0⟩)) = (.ok .none, s') ∧
      s'.getVar "x" = .ok v' ∧
      s'.world.heap.datum? (displayDepth + 1) v' = some Sample.nestedDatum ∧ s.BindsOnly s' "x" := by
  intro s
  have hs : s.Rooted := (Session.build_rooted Sample.body {}).eval Sample.body_keepsScopes _ _
  have htoken : ¬ CancelToken.live.hasFired s.world.now = true := Bool.false_ne_true
  have hx : IsIdentifier "x" := by decide
  have hd : Sample.nested.datum? (displayDepth + 1) (.dict ⟨0⟩) = some Sample.nestedDatum := by rfl
  exact ⟨hs, htoken, hx, hd, eval_assign_repr hs htoken hx hd⟩

end Scripting
