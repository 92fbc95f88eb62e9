/-
# Reading displays, comprehensions and lambdas

Lists and dicts are read item by item, like arguments. The loop of a comprehension binds
names and groups of them, and what it goes through may be anything but a conditional or a
lambda, since an `if` behind it is the comprehension's own. The parameters of a lambda are
read up to its colon; each is checked against the ones in front of it.
-/
import Scripting.Proofs.Precedence.Brackets

namespace Scripting

variable {n : Nat} {t : Target}

open Grammar
open Parse (Leads Reads)

/-! ### Items -/

section

variable {β : Type} {reader : Nat → Parse β} {closing : Token.Kind} {more : Nat → Parse (List β)}
  (hends : closing.ends .lambda = true) (hopens : closing.opens .lambda = false)
  (hcomma : closing.same (.symbol .comma) = false) {kinds : β → List Token.Kind} {bare : β → β}
  {items : List β} (hopen : ∀ a ∈ items, Opening .lambda (kinds a))
  (hitem : ∀ a ∈ items, ∀ n, 20 * (kinds a).length ≤ n →
    Reads (reader n) (kinds a) (fun k => k.ends .lambda = true) fun b => bare b = bare a)

include hends hopens hcomma hopen hitem

theorem Grammar.ReadsMore.reads (hmore : ReadsMore reader closing more) :
    ∀ n, 20 * (behindCommas (items.map kinds)).length < n →
    Reads (more n) (behindCommas (items.map kinds)) (fun k => k = closing)
      fun found => found.map bare = items.map bare := by
  induction items with
  | nil =>
    intro n hn
    rcases n with _ | n
    · omega
    have hend : Leading [] (fun k => k = closing) fun k => k.same (.symbol .comma) = false :=
      fun k hk => hk ▸ hcomma
    exact Leads.look hend (.done (a := []) rfl) fun ts hts => hmore.stop n ts hts
  | cons a items ih =>
    intro n hn
    have hbehind : behindCommas ((a :: items).map kinds) =
        .symbol .comma :: (kinds a ++ behindCommas (items.map kinds)) := rfl
    rw [hbehind] at hn ⊢
    simp only [List.length_cons, List.length_append] at hn
    rcases n with _ | n
    · omega
    have hfirst := (hopen a (.head _)).append_not_same (behindCommas (items.map kinds))
      (fun k => k = closing) hopens
    have hothers := ih (fun b hb => hopen b (List.mem_cons_of_mem a hb))
      (fun b hb => hitem b (List.mem_cons_of_mem a hb)) n (by omega)
    refine .consFront hfirst ?_ fun p ts hne hts => hmore.item n p ts hne hts
    refine (hitem a (.head _) n (by omega)).bind (leading_behindCommas hends _) fun b hb => ?_
    exact hothers.last fun bs hbs => .done (by simp only [List.map_cons, hb, hbs])

theorem Grammar.ReadsMore.reads_display (hmore : ReadsMore reader closing more)
    (hsame : closing.same closing = true) (hfor : closing.same (.word .for_) = false)
    {loop : β → Parse Expr} (make : List β → Expr)
    (hn : 20 * (separated (items.map kinds)).length < n) :
    Reads (do
        if ← Parse.accept closing then pure (make [])
        else
          let first ← reader n
          if ← Parse.check (.word .for_) then loop first
          else
            let rest ← more n
            Parse.expect closing
            pure (make (first :: rest)))
      (separated (items.map kinds) ++ [closing]) (fun _ => True)
      fun e => ∃ found, e = make found ∧ found.map bare = items.map bare := by
  cases items with
  | nil => exact .accept (.done ⟨[], rfl, rfl⟩) hsame
  | cons a items =>
    rw [List.map_cons, separated, List.append_assoc]
    rw [List.map_cons, separated, List.length_append] at hn
    have hothers := hmore.reads hends hopens hcomma (fun b hb => hopen b (List.mem_cons_of_mem a hb))
      (fun b hb => hitem b (List.mem_cons_of_mem a hb)) n (by omega)
    -- a comma or the closing bracket comes behind the first item
    have hnext : Leading (behindCommas (items.map kinds) ++ [closing]) (fun _ => True)
        fun k => k.ends .lambda = true ∧ k.same (.word .for_) = false := by
      cases items with
      | nil => exact ⟨hends, hfor⟩
      | cons b items => exact ⟨rfl, rfl⟩
    refine .skip ((hopen a (.head _)).append_not_same _ _ hopens) ?_
    refine (hitem a (.head _) n (by omega)).bind (hnext.imp fun _ hk => hk.1) fun b hb => ?_
    refine .miss (hnext.imp fun _ hk => hk.2) (hothers.bind rfl fun bs hbs => ?_)
    exact .expect (.done ⟨b :: bs, rfl, by rw [List.map_cons, List.map_cons, hb, hbs]⟩) hsame

end

theorem dictEntry_reads {entry : DictEntry} (hkey : entry.key.Legible) (hvalue : entry.value.Legible)
    (n : Nat) (hn : 20 * (entry.kinds true).length ≤ n) :
    Reads (dictEntry n) (entry.kinds true) (fun k => k.ends .lambda = true)
      fun found => found.bare = entry.bare := by
  obtain ⟨key, value⟩ := entry
  rw [DictEntry.kinds] at hn ⊢
  simp only [List.length_append, List.length_cons] at hn
  rcases n with _ | n
  · omega
  rw [dictEntry]
  refine (hkey.reads (by simp only; omega)).bind rfl fun key' hkey' => .expect ?_ rfl
  refine (hvalue.reads (by simp only; omega)).last fun value' hvalue' => .done ?_
  simp only [DictEntry.bare, hkey', hvalue']

theorem DictEntry.opening {entry : DictEntry} (hkey : entry.key.Legible) :
    Opening .lambda (entry.kinds true) := by
  obtain ⟨key, value⟩ := entry
  rw [DictEntry.kinds]
  exact hkey.opening.append (by simp)

namespace Rank

theorem admits_list {items : List Expr} (h : ∀ a ∈ items, a.Legible) (p : Position) :
    applied.Admits (.list p items) ((Expr.list p items).kinds true) fun k => k.isText = false := by
  rw [Expr.kinds]
  refine admits_behind listLiteral (fun _ _ _ => rfl) fun n pos hn => ?_
  rw [List.length_append] at hn
  rw [listLiteral]
  refine .imp (moreItems_readsMore.reads_display rfl rfl rfl (fun a ha => (h a ha).opening)
    (fun a ha m hm => (h a ha).reads hm) rfl rfl (.list pos) (by omega)) (fun _ _ => trivial) ?_
  rintro _ ⟨found, rfl, hfound⟩
  simp only [Expr.bare, hfound]

theorem admits_dict {entries : List DictEntry}
    (h : ∀ entry ∈ entries, entry.key.Legible ∧ entry.value.Legible) (p : Position) :
    applied.Admits (.dict p entries) ((Expr.dict p entries).kinds true) fun k => k.isText = false := by
  rw [Expr.kinds]
  refine admits_behind dictLiteral (fun _ _ _ => rfl) fun n pos hn => ?_
  rw [List.length_append] at hn
  have hopen : ∀ entry ∈ entries, Opening .lambda (DictEntry.kinds true entry) :=
    fun entry hentry => DictEntry.opening (h entry hentry).1
  have hentries (entry) (hentry : entry ∈ entries) :=
    dictEntry_reads (h entry hentry).1 (h entry hentry).2
  rw [dictLiteral]
  refine .imp (moreEntries_readsMore.reads_display rfl rfl rfl hopen hentries rfl rfl
    (.dict pos) (by omega)) (fun _ _ => trivial) ?_
  rintro _ ⟨found, rfl, hfound⟩
  simp only [Expr.bare, hfound]

end Rank

/-! ### Comprehensions -/

def Target.atomKinds (t : Target) : List Token.Kind :=
  if t.isGroup then bracketed t.kinds else t.kinds

theorem Target.kinds_group (targets : List Target) :
    (Target.group targets).kinds = separated (targets.map Target.atomKinds) := by
  rw [Target.kinds]
  rfl

theorem Target.Spread.leading (h : t.Spread) (ks : List Token.Kind) (follow : Token.Kind → Prop) :
    Leading (t.atomKinds ++ ks) follow fun k => k.same (.word .in_) = false := by
  unfold Target.atomKinds
  cases h with
  | name x => rw [Target.kinds]; exact rfl
  | group several each => exact rfl

theorem targetAtom_reads (h : t.Spread)
    (hinner : t.isGroup = true → Reads (loopTarget n) t.kinds
      (fun k => k = .word .in_ ∨ k = .symbol .rightParen) fun found => found = t) :
    Reads (targetAtom (n + 1)) t.atomKinds (fun _ => True) fun found => found = t := by
  rw [targetAtom]
  cases h with
  | name x =>
    rw [Target.atomKinds, if_neg (by simp [Target.isGroup]), Target.kinds]
    exact .skip rfl (.expectName (.done rfl))
  | @group targets several each =>
    change Reads _ (bracketed (Target.group targets).kinds) _ _
    rw [bracketed]
    refine .accept ?_ rfl
    exact (hinner rfl).bind (.inr rfl) fun found hfound => .expect (.done hfound) rfl

theorem loopTargets_reads {atom : Parse Target} {targets : List Target}
    (hspread : ∀ t ∈ targets, t.Spread)
    (hatom : ∀ t ∈ targets, Reads atom t.atomKinds (fun _ => True) fun found => found = t) :
    ∀ n, targets.length < n →
    Reads (loopTargets atom n) (behindCommas (targets.map Target.atomKinds))
      (fun k => k = .word .in_ ∨ k = .symbol .rightParen) fun found => found = targets := by
  induction targets with
  | nil =>
    intro n hn
    rcases n with _ | n
    · omega
    rw [loopTargets]
    exact .skip (by rintro k (rfl | rfl) <;> rfl) (.done rfl)
  | cons t targets ih =>
    intro n hn
    rw [List.length_cons] at hn
    rcases n with _ | n
    · omega
    have hrest := ih (fun u hu => hspread u (List.mem_cons_of_mem t hu))
      (fun u hu => hatom u (List.mem_cons_of_mem t hu)) n (by omega)
    rw [loopTargets]
    change Leads _ (.symbol .comma :: (t.atomKinds ++ behindCommas (targets.map Target.atomKinds))) _ _ _
    refine .accept (.miss ((hspread t (.head _)).leading _ _) ?_) rfl
    refine (hatom t (.head _)).bind (.trivial _ _) fun u hu => ?_
    exact hrest.last fun us hus => .done (by rw [hu, hus])

theorem length_le_behindCommas (items : List (List Token.Kind)) :
    items.length ≤ (behindCommas items).length := by
  induction items with
  | nil => exact Nat.le_refl 0
  | cons item items ih =>
    change _ ≤ (.symbol .comma :: (item ++ behindCommas items)).length
    simp only [List.length_cons, List.length_append]
    omega

theorem length_le_separated {items : List (List Token.Kind)} {ks : List Token.Kind}
    (h : ks ∈ items) : ks.length ≤ (separated items).length := by
  induction items with
  | nil => cases h
  | cons item items ih =>
    have hlength := length_separated_le items
    rw [separated, List.length_append]
    rcases List.mem_cons.1 h with rfl | h
    · omega
    · have := ih h
      omega

theorem loopTarget_reads (h : t.Spread) :
    ∀ n, 20 * t.kinds.length ≤ n →
    Reads (loopTarget n) t.kinds (fun k => k = .word .in_ ∨ k = .symbol .rightParen)
      fun found => found = t := by
  induction h with
  | name x =>
    intro n hn
    rw [Target.kinds, List.length_singleton] at hn
    obtain ⟨n, rfl⟩ : ∃ m, n = m + 2 := ⟨n - 2, by omega⟩
    have hatom := targetAtom_reads (.name x) (n := n) (by simp [Target.isGroup])
    rw [Target.atomKinds, if_neg (by simp [Target.isGroup])] at hatom
    rw [loopTarget]
    refine (hatom.imp (fun _ _ => trivial) fun _ h => h).last fun found hfound => ?_
    exact .miss (by rintro k (rfl | rfl) <;> rfl) (.done hfound)
  | @group targets several each ih =>
    intro n hn
    rw [Target.kinds_group] at hn ⊢
    have hkinds {t : Target} (ht : t ∈ targets) (hgroup : t.isGroup = true) :
        20 * t.kinds.length + 40 ≤ n := by
      have hlength := length_le_separated (List.mem_map_of_mem ht : t.atomKinds ∈ _)
      rw [Target.atomKinds, if_pos hgroup] at hlength
      simp only [bracketed, List.length_cons, List.length_append, List.length_nil] at hlength
      omega
    obtain ⟨t, u, us, rfl⟩ : ∃ t u us, targets = t :: u :: us := by
      rcases targets with _ | ⟨t, _ | ⟨u, us⟩⟩ <;> simp at several ⊢
    rw [List.map_cons, separated] at hn ⊢
    have hcount := length_le_behindCommas ((u :: us).map Target.atomKinds)
    simp only [List.length_append, List.length_map] at hn hcount
    have hfew : 0 < (u :: us).length := Nat.succ_pos _
    obtain ⟨n, rfl⟩ : ∃ m, n = m + 2 := ⟨n - 2, by omega⟩
    have hatom (v : Target) (hv : v ∈ t :: u :: us) :
        Reads (targetAtom (n + 1)) v.atomKinds (fun _ => True) fun found => found = v :=
      targetAtom_reads (each v hv) fun hgroup => ih v hv n (by have := hkinds hv hgroup; omega)
    have hrest := loopTargets_reads (fun v hv => each v (List.mem_cons_of_mem t hv))
      (fun v hv => hatom v (List.mem_cons_of_mem t hv)) (n + 1) (by omega)
    rw [loopTarget]
    refine (hatom t (.head _)).bind (.trivial _ _) fun t' ht => ?_
    refine .check rfl (hrest.last fun rest hrest => .done ?_)
    rw [ht, hrest]

theorem clause_reads {c : Clause} (htarget : c.target.Spread)
    (hiterable : Rank.or.Accepts c.iterable (c.iterable.kindsAt true .or))
    (hcondition : ∀ e ∈ c.condition, Rank.or.Accepts e (e.kindsAt true .or))
    (hn : 20 * (c.kinds true).length ≤ n) :
    Reads (clause n) (c.kinds true) (fun k => k = .symbol .rightBracket ∨ k = .symbol .rightBrace)
      fun found => found.bare = c.bare := by
  obtain ⟨target, iterable, condition⟩ := c
  unfold Expr.kindsAt at hiterable hcondition
  rw [Clause.kinds] at hn ⊢
  simp only [List.length_cons, List.length_append] at hn
  rcases n with _ | n
  · omega
  rw [clause]
  refine .expect ?_ rfl
  refine (loopTarget_reads htarget n (by simp only; omega)).bind (.inl rfl) fun t ht => .expect ?_ rfl
  have hread := hiterable n (by simp only [Rank.depth]; omega)
  cases condition with
  | none =>
    rw [Clause.conditionKinds, List.append_nil]
    refine (hread.imp ?_ fun _ h => h).last fun it hit => .skip ?_ (.done ?_)
    · rintro k (rfl | rfl) <;> rfl
    · rintro k (rfl | rfl) <;> rfl
    · simp only [Clause.bare, ht, hit, Expr.bareIf]
  | some e =>
    rw [Clause.conditionKinds, List.length_cons] at hn
    rw [Clause.conditionKinds]
    refine hread.bind rfl fun it hit => .accept ?_ rfl
    have hcond := hcondition e rfl n (by simp only [Rank.depth]; omega)
    refine (hcond.imp ?_ fun _ h => h).last fun e' he => .done ?_
    · rintro k (rfl | rfl) <;> rfl
    · simp only [Clause.bare, ht, hit, he, Expr.bareIf]

theorem Clause.leading (c : Clause) (ks : List Token.Kind) (follow : Token.Kind → Prop) :
    Leading (c.kinds true ++ ks) follow fun k => k = .word .for_ := by
  obtain ⟨target, iterable, condition⟩ := c
  rw [Clause.kinds]
  exact rfl

namespace Rank

variable {c : Clause} (htarget : c.target.Spread)
  (hiterable : or.Accepts c.iterable (c.iterable.kindsAt true .or))
  (hcondition : ∀ e ∈ c.condition, or.Accepts e (e.kindsAt true .or))

include htarget hiterable hcondition

theorem admits_listOf {item : Expr} (hitem : item.Legible) (p : Position) :
    applied.Admits (.listOf p item c) ((Expr.listOf p item c).kinds true)
      fun k => k.isText = false := by
  rw [Expr.kinds]
  refine admits_behind listLiteral (fun _ _ _ => rfl) fun n pos hn => ?_
  simp only [List.length_append] at hn
  rw [listLiteral]
  refine .skip (hitem.opening.append_not_same _ _ rfl) ?_
  refine (hitem.reads (by omega)).bind ((c.leading _ _).imp (by rintro k rfl; rfl)) fun e he => ?_
  refine .check ((c.leading _ _).imp (by rintro k rfl; rfl)) ?_
  refine (clause_reads htarget hiterable hcondition (by omega)).bind (.inl rfl) fun c' hc => ?_
  exact .expect (.done (by simp only [Expr.bare, he, hc])) rfl

theorem admits_dictOf {key value : Expr} (hkey : key.Legible) (hvalue : value.Legible)
    (p : Position) :
    applied.Admits (.dictOf p key value c) ((Expr.dictOf p key value c).kinds true)
      fun k => k.isText = false := by
  have hkinds : (Expr.dictOf p key value c).kinds true = .symbol .leftBrace ::
      (DictEntry.kinds true ⟨key, value⟩ ++ (c.kinds true ++ [.symbol .rightBrace])) := by
    simp [Expr.kinds, DictEntry.kinds]
  have hentry : Opening .lambda (DictEntry.kinds true ⟨key, value⟩) := DictEntry.opening hkey
  rw [hkinds]
  refine admits_behind dictLiteral (fun _ _ _ => rfl) fun n pos hn => ?_
  simp only [List.length_append] at hn
  rw [dictLiteral]
  refine .skip (hentry.append_not_same _ _ rfl) ?_
  refine (dictEntry_reads hkey hvalue n (by omega)).bind
    ((c.leading _ _).imp (by rintro k rfl; rfl)) fun entry' hentry' => ?_
  obtain ⟨key', value'⟩ := entry'
  refine .check ((c.leading _ _).imp (by rintro k rfl; rfl)) ?_
  refine (clause_reads htarget hiterable hcondition (by omega)).bind (.inr rfl) fun c' hc => ?_
  refine .expect (.done ?_) rfl
  simp only [DictEntry.bare, DictEntry.mk.injEq] at hentry'
  simp only [Expr.bare, hentry'.1, hentry'.2, hc]

end Rank

/-! ### Lambdas -/

theorem defaultValue_reads {default : Option Expr} (h : ∀ e ∈ default, e.Legible)
    (hn : 20 * (Expr.kindsIf true [.symbol .assign] default).length < n) :
    Reads (defaultValue n) (Expr.kindsIf true [.symbol .assign] default)
      (fun k => k = .symbol .comma ∨ k = .symbol .colon)
      fun found => Expr.bareIf found = Expr.bareIf default := by
  rcases n with _ | n
  · omega
  rw [defaultValue]
  cases default with
  | none =>
    rw [Expr.kindsIf]
    exact .skip (by rintro k (rfl | rfl) <;> rfl) (.done rfl)
  | some e =>
    rw [Expr.kindsIf, List.singleton_append, List.length_cons] at hn
    rw [Expr.kindsIf, List.singleton_append]
    refine .accept ?_ rfl
    refine (((h e rfl).reads (by omega)).imp ?_ fun _ he => he).last fun e' he => .done ?_
    · rintro k (rfl | rfl) <;> rfl
    · simp only [Expr.bareIf, he]

theorem isSome_of_bareIf {o o' : Option Expr} (h : Expr.bareIf o = Expr.bareIf o') :
    o.isSome = o'.isSome := by
  cases o <;> cases o' <;> simp_all [Expr.bareIf]

/-- Whether parameters are listed well depends on their names and on which have defaults. -/
theorem Param.Listed.replace {seen more : List Param} {p q : Param}
    (h : Param.Listed (seen ++ p :: more)) (hname : q.name = p.name)
    (hdefault : q.default.isSome = p.default.isSome) : Param.Listed (seen ++ [q] ++ more) where
  distinct := by simpa [hname] using h.distinct
  defaultsLast := by
    have hlast := h.defaultsLast
    simp only [List.append_assoc, List.singleton_append, List.pairwise_append, List.pairwise_cons,
      List.forall_mem_cons, hdefault] at hlast ⊢
    exact hlast

theorem params_reads {params : List Param} (h : ∀ p ∈ params, ∀ e ∈ p.default, e.Legible) :
    ∀ (n : Nat) (seen : List Param), Param.Listed (seen ++ params) →
    20 * (separated (params.map (Param.kinds true))).length + 1 ≤ n →
    Reads (Grammar.params n (.symbol .colon) seen) (separated (params.map (Param.kinds true)))
      (fun k => k = .symbol .colon)
      fun found => found.map Param.bare = (seen ++ params).map Param.bare := by
  induction params with
  | nil =>
    intro n seen _ hn
    rcases n with _ | n
    · omega
    refine Leads.look (fun k hk => hk : Leading [] _ fun k => k = .symbol .colon)
      (.done (a := seen) (by rw [List.append_nil])) fun ts hts => ?_
    rw [Grammar.params, Parse.bind_check, hts]
    rfl
  | cons param params ih =>
    intro n seen hlisted hn
    obtain ⟨name, pos, default⟩ := param
    rw [List.map_cons, separated, Param.kinds, List.cons_append] at hn ⊢
    simp only [List.length_cons, List.length_append] at hn
    rcases n with _ | n
    · omega
    have hnew := not_any_of_nodup hlisted.distinct
    rw [Grammar.params]
    refine .missBoth ⟨rfl, rfl⟩ (.here fun pos' => .expectName ?_)
    rw [if_neg hnew]
    refine (defaultValue_reads (h _ (.head _)) (by simp only; omega)).bind ?_ fun d hd => ?_
    · cases params with
      | nil => exact fun k hk => .inr hk
      | cons param params => exact .inl rfl
    have hgiven : d.isSome = default.isSome := isSome_of_bareIf hd
    have hbare : Param.bare ⟨name, pos', d⟩ = Param.bare ⟨name, pos, default⟩ := by
      simp only [Param.bare, hd]
    have hlast : ¬ (d.isNone && seen.any fun p => p.default.isSome) = true := by
      simp only [Bool.and_eq_true, List.any_eq_true, not_and, not_exists]
      intro hnone p hp hsome
      have hdefault := (List.pairwise_append.1 hlisted.defaultsLast).2.2 p hp _ (.head _) hsome
      rw [← hgiven, ← Option.not_isNone, hnone] at hdefault
      cases hdefault
    rw [if_neg hlast]
    change Reads (do
      if ← Parse.accept (.symbol .comma) then
        Grammar.params n (.symbol .colon) (seen ++ [⟨name, pos', d⟩])
      else pure (seen ++ [⟨name, pos', d⟩])) _ _ _
    refine reads_behindCommas rfl (fun hnil => ?_) fun _ => ?_
    · cases List.map_eq_nil_iff.1 hnil
      simp [hbare]
    have hlength := length_separated_le (params.map (Param.kinds true))
    refine (ih (fun p hp => h p (.tail _ hp)) n (seen ++ [⟨name, pos', d⟩]) ?_
      (by omega)).imp (fun _ hk => hk) fun found hfound => ?_
    · exact hlisted.replace rfl hgiven
    · simpa [hbare] using hfound

theorem Rank.accepts_function {params : List Param} {body : Expr} (hlisted : Param.Listed params)
    (hparams : ∀ p ∈ params, ∀ e ∈ p.default, e.Legible) (hbody : body.Legible) (p : Position) :
    Rank.lambda.Accepts (.lambda p params body) ((Expr.lambda p params body).kinds true) := by
  rw [Expr.kinds]
  refine accepts_of_succ (Nat.succ_pos _) fun n hn => ?_
  simp only [List.length_cons, List.length_append, depth] at hn
  rcases n with _ | n
  · omega
  change Reads (expr (n + 2)) _ _ _
  rw [expr]
  refine .check rfl ?_
  rw [Grammar.lambda]
  refine .here fun pos => .expect ?_ rfl
  refine (params_reads hparams n [] hlisted (by omega)).bind rfl fun params' hparams' => ?_
  refine .expect ((hbody.reads (by omega)).last fun body' hbody' => .done ?_) rfl
  simp only [Expr.bare, hparams', hbody', List.nil_append]

end Scripting
