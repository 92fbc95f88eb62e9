/-
# Which calls bind

A call binds its arguments if it fits the parameters of the function: no positional argument is
left over, every keyword names a parameter that no positional argument fills, and what neither
fills has a default (`Fits`). Then every parameter gets its positional argument, its keyword or
its default, the first of these that is there (`ParamSlot.given`).

The slots are filled in rounds, and each round can fail. The first round takes a keyword out when
its parameter comes; as no two parameters have one name, the parameters behind it do not notice
(`fillSlots_eq_ok`).
-/
import Scripting.Arguments
import Scripting.Proofs.Faults.Fails
import Scripting.Proofs.Table

namespace Scripting

/-- What a parameter gets in a call: its positional argument, its keyword or its default. -/
def ParamSlot.given (p : ParamSlot) (positional : Option Value) (keywords : Keywords) :
    Option Value :=
  (positional.or (keywords.get? p.name)).or p.default

/-- A call that fits some parameters. -/
structure Fits (params : List ParamSlot) (args : List Value) (keywords : Keywords) : Prop where
  positional : args.length ≤ params.length
  keyword : ∀ name ∈ keywords.keys, ∃ p ∈ params.drop args.length, p.name = name
  complete : ∀ p ∈ params.drop args.length, p.name ∉ keywords.keys → p.default.isSome = true

/-! ### The rounds -/

def Keywords.beyond (keywords : Keywords) (params : List ParamSlot) : Keywords :=
  params.foldl (fun rest p => rest.erase p.name) keywords

theorem Keywords.mem_keys_beyond {name : String} : ∀ {params : List ParamSlot}
    {keywords : Keywords}, name ∈ (keywords.beyond params).keys ↔
      name ∈ keywords.keys ∧ name ∉ params.map ParamSlot.name
  | [], keywords => by simp [Keywords.beyond]
  | p :: params, keywords => by
    change name ∈ (Keywords.beyond (keywords.erase p.name) params).keys ↔ _
    rw [mem_keys_beyond, Table.keys_erase]
    simp [and_assoc]

section Rounds

variable (function : String)

/-- Where no keyword clashes with a positional argument, every parameter gets the one that
is there. -/
theorem fillSlots_eq_ok : ∀ (params : List ParamSlot) (args : List Value) (keywords : Keywords),
    (params.map ParamSlot.name).Nodup →
    (∀ p ∈ params.take args.length, keywords.get? p.name = none) →
    fillSlots function params args keywords =
      .ok (params.mapIdx fun i p => (p, args[i]?.or (keywords.get? p.name)), keywords.beyond params)
  | [], args, keywords, _, _ => rfl
  | p :: params, args, keywords, hdistinct, hclear => by
    rw [List.map_cons, List.nodup_cons] at hdistinct
    -- What a parameter behind this one is called by is still there when this one's is taken out.
    have hbehind (q : ParamSlot) (hq : q ∈ params) :
        (keywords.erase p.name).get? q.name = keywords.get? q.name :=
      keywords.get?_erase_of_ne fun h => hdistinct.1 (h ▸ List.mem_map_of_mem hq)
    have hslots :
        (params.mapIdx fun i q => (q, args.tail[i]?.or ((keywords.erase p.name).get? q.name))) =
          params.mapIdx fun i q => (q, args[i + 1]?.or (keywords.get? q.name)) := by
      refine List.mapIdx_eq_mapIdx_iff.2 fun i hi => ?_
      rw [hbehind _ (List.getElem_mem hi), List.getElem?_tail]
    have ih := fillSlots_eq_ok params args.tail (keywords.erase p.name) hdistinct.2
    rw [hslots] at ih
    rw [List.mapIdx_cons]
    cases args with
    | nil =>
      rw [fillSlots, List.head?_nil, ih (by simp)]
      cases keywords.get? p.name <;> rfl
    | cons a args =>
      rw [List.length_cons, List.take_succ_cons, List.forall_mem_cons] at hclear
      have hrest : ∀ q ∈ params.take args.length, (keywords.erase p.name).get? q.name = none :=
        fun q hq => (hbehind q (List.mem_of_mem_take hq)).trans (hclear.2 q hq)
      rw [fillSlots, hclear.1, List.head?_cons, ih hrest]
      rfl

theorem get?_eq_none_of_fillSlots : ∀ (params : List ParamSlot) (args : List Value)
    (keywords : Keywords) {r : List (ParamSlot × Option Value) × Keywords},
    (params.map ParamSlot.name).Nodup → fillSlots function params args keywords = .ok r →
    ∀ p ∈ params.take args.length, keywords.get? p.name = none
  | [], args, keywords, r, _, _ => by simp
  | p :: params, [], keywords, r, _, _ => by simp
  | p :: params, a :: args, keywords, r, hdistinct, h => by
    rw [List.map_cons, List.nodup_cons] at hdistinct
    rw [fillSlots] at h
    cases hp : keywords.get? p.name with
    | some v =>
      rw [hp] at h
      cases h
    | none =>
      rw [hp] at h
      cases hrest : fillSlots function params args (keywords.erase p.name) with
      | error f =>
        rw [List.tail_cons, hrest] at h
        cases h
      | ok r' =>
        have ih := get?_eq_none_of_fillSlots params args _ hdistinct.2 hrest
        rw [List.length_cons, List.take_succ_cons, List.forall_mem_cons]
        refine ⟨hp, fun q hq => ?_⟩
        rw [← ih q hq]
        refine (keywords.get?_erase_of_ne fun h => hdistinct.1 ?_).symm
        exact h ▸ List.mem_map_of_mem (List.mem_of_mem_take hq)

theorem fillDefaults_eq_ok_iff : ∀ {slots : List (ParamSlot × Option Value)} {values : List Value},
    fillDefaults function slots = .ok values ↔
      slots.map (fun s => s.2.or s.1.default) = values.map some
  | [], values => by
    cases values <;> simp [fillDefaults]
  | (p, slot) :: rest, values => by
    rw [fillDefaults]
    cases hslot : slot.or p.default with
    | none => cases values <;> simp [hslot]
    | some v =>
      cases hrest : fillDefaults function rest with
      | error f =>
        have hnone (values' : List Value) :
            ¬ rest.map (fun s => s.2.or s.1.default) = values'.map some := by
          rw [← fillDefaults_eq_ok_iff, hrest]
          exact nofun
        cases values <;> simp [hslot, hnone]
      | ok values' =>
        have ih := fillDefaults_eq_ok_iff.1 hrest
        cases values with
        | nil => simp
        | cons v' values =>
          simp only [Except.ok.injEq, List.cons.injEq, List.map_cons, hslot, ih, Option.some.injEq]
          rw [List.map_inj_right fun _ _ => Option.some.inj]

/-- Whatever goes wrong, it is the arguments that are wrong. -/
theorem fillSlots_fails : ∀ (params : List ParamSlot) (args : List Value) (keywords : Keywords),
    Fails (fun f => f.kind = .argument) (fillSlots function params args keywords)
  | [], _, _ => .ok _
  | p :: params, args, keywords => by
    rw [fillSlots]
    split
    · exact .error rfl
    · split
      next f hf => exact .error (fillSlots_fails params _ _ f hf)
      · exact .ok _

theorem fillDefaults_fails : ∀ slots : List (ParamSlot × Option Value),
    Fails (fun f => f.kind = .argument) (fillDefaults function slots)
  | [] => .ok _
  | (p, slot) :: rest => by
    rw [fillDefaults]
    split
    · exact .error rfl
    · split
      next f hf => exact .error (fillDefaults_fails rest f hf)
      · exact .ok _

end Rounds

/-! ### Calls -/

section Calls

variable {function : String} {params : List ParamSlot} {args : List Value} {keywords : Keywords}

theorem bindArguments_fails :
    Fails (fun f => f.kind = .argument) (bindArguments function params args keywords) := by
  refine .ite (.error rfl) ?_
  split
  next f hf => exact .error (fillSlots_fails function params args keywords f hf)
  · split
    · exact .error rfl
    · exact fillDefaults_fails function _

/-- The two rounds that look at keywords let a call pass if each of its keywords names a
parameter that no positional argument fills. -/
theorem keywords_pass_iff (hdistinct : (params.map ParamSlot.name).Nodup) :
    ((∀ p ∈ params.take args.length, keywords.get? p.name = none) ∧
      (keywords.beyond params).keys = []) ↔
    ∀ name ∈ keywords.keys, ∃ p ∈ params.drop args.length, p.name = name := by
  constructor
  · rintro ⟨hclear, hknown⟩ name hname
    have hparam : name ∈ params.map ParamSlot.name := by
      refine Decidable.byContradiction fun hnot => ?_
      exact List.eq_nil_iff_forall_not_mem.1 hknown name (Keywords.mem_keys_beyond.2 ⟨hname, hnot⟩)
    obtain ⟨p, hp, rfl⟩ := List.mem_map.1 hparam
    rw [← List.take_append_drop args.length params, List.mem_append] at hp
    rcases hp with hp | hp
    · exact absurd hname (Table.get?_eq_none_iff.1 (hclear p hp))
    · exact ⟨p, hp, rfl⟩
  intro hkeywords
  refine ⟨fun p hp => Table.get?_eq_none_iff.2 fun hname => ?_, ?_⟩
  · obtain ⟨q, hq, hsame⟩ := hkeywords p.name hname
    rw [← List.take_append_drop args.length params, List.map_append,
      List.nodup_append] at hdistinct
    exact hdistinct.2.2 _ (List.mem_map_of_mem hp) _ (List.mem_map_of_mem hq) hsame.symm
  refine List.eq_nil_iff_forall_not_mem.2 fun name hname => ?_
  obtain ⟨hmem, hnot⟩ := Keywords.mem_keys_beyond.1 hname
  obtain ⟨p, hp, rfl⟩ := hkeywords name hmem
  exact hnot (List.mem_map_of_mem (List.mem_of_mem_drop hp))

/-- A call binds some values exactly if its arguments pass the rounds and these are the
values that the parameters get. -/
theorem bindArguments_eq_ok_iff (hdistinct : (params.map ParamSlot.name).Nodup)
    {values : List Value} : bindArguments function params args keywords = .ok values ↔
      args.length ≤ params.length ∧
      (∀ name ∈ keywords.keys, ∃ p ∈ params.drop args.length, p.name = name) ∧
      (params.mapIdx fun i p => p.given args[i]? keywords) = values.map some := by
  have hgiven : (params.mapIdx fun i p => (p, args[i]?.or (keywords.get? p.name))).map
      (fun s => s.2.or s.1.default) = params.mapIdx fun i p => p.given args[i]? keywords := by
    refine List.ext_getElem? fun i => ?_
    rw [List.getElem?_map, List.getElem?_mapIdx, List.getElem?_mapIdx, Option.map_map]
    rfl
  rw [← keywords_pass_iff hdistinct, ← hgiven, ← fillDefaults_eq_ok_iff function]
  unfold bindArguments
  split
  next hmany => simp [Nat.not_le.2 hmany]
  next hfew =>
    rw [and_iff_right (Nat.not_lt.1 hfew)]
    by_cases hclear : ∀ p ∈ params.take args.length, keywords.get? p.name = none
    · rw [fillSlots_eq_ok function params args keywords hdistinct hclear, and_iff_right hclear]
      dsimp only
      split
      next hkeys => simp [hkeys]
      next hkeys => simp [hkeys]
    cases hslots : fillSlots function params args keywords with
    | error f => simp [hclear]
    | ok r =>
      exact absurd (get?_eq_none_of_fillSlots function params args keywords hdistinct hslots)
        hclear

theorem isSome_given_iff {i : Nat} {p : ParamSlot} :
    (p.given args[i]? keywords).isSome = true ↔
      i < args.length ∨ p.name ∈ keywords.keys ∨ p.default.isSome = true := by
  rw [ParamSlot.given, Option.isSome_or, Option.isSome_or, Bool.or_eq_true, Bool.or_eq_true,
    Table.isSome_get?_iff, or_assoc]
  simp

theorem exists_given_iff : (∃ values : List Value,
      (params.mapIdx fun i p => p.given args[i]? keywords) = values.map some) ↔
    ∀ p ∈ params.drop args.length, p.name ∉ keywords.keys → p.default.isSome = true := by
  constructor
  · rintro ⟨values, hvalues⟩ p hp hname
    obtain ⟨i, hi⟩ := List.mem_iff_getElem?.1 hp
    rw [List.getElem?_drop] at hi
    have hgiven := List.mapIdx_eq_iff.1 hvalues (args.length + i)
    rw [hi, List.getElem?_map, Option.map_some] at hgiven
    obtain ⟨v, -, hv⟩ := Option.map_eq_some_iff.1 hgiven
    have hsome := isSome_given_iff.1 (Option.isSome_of_eq_some hv.symm)
    exact (hsome.resolve_left (by omega)).resolve_left hname
  intro hcomplete
  refine ⟨params.mapIdx fun i p => (p.given args[i]? keywords).getD .none,
    List.mapIdx_eq_iff.2 fun i => ?_⟩
  rw [List.getElem?_map, List.getElem?_mapIdx]
  cases hp : params[i]? with
  | none => rfl
  | some p =>
    obtain ⟨v, hv⟩ : ∃ v, p.given args[i]? keywords = some v := by
      refine Option.isSome_iff_exists.1 (isSome_given_iff.2 ?_)
      by_cases hi : i < args.length
      · exact .inl hi
      have hdrop : p ∈ params.drop args.length := by
        refine List.mem_iff_getElem?.2 ⟨i - args.length, ?_⟩
        rw [List.getElem?_drop, Nat.add_sub_cancel' (Nat.not_lt.1 hi), hp]
      exact .inr (Decidable.or_iff_not_imp_left.2 (hcomplete p hdrop))
    rw [Option.map_some, Option.map_some, Option.map_some, hv]
    rfl

/-- The order of the keywords does not matter to what a call binds. -/
theorem toOption_bindArguments_of_perm (hdistinct : (params.map ParamSlot.name).Nodup)
    {keywords' : Keywords} (h : keywords'.entries.Perm keywords.entries) :
    (bindArguments function params args keywords').toOption =
      (bindArguments function params args keywords).toOption := by
  have hgiven (p : ParamSlot) (positional : Option Value) :
      p.given positional keywords' = p.given positional keywords := by
    rw [ParamSlot.given, ParamSlot.given, Table.get?_of_perm h]
  have hsame (values : List Value) : bindArguments function params args keywords' = .ok values ↔
      bindArguments function params args keywords = .ok values := by
    simp only [bindArguments_eq_ok_iff hdistinct, hgiven, Table.keys, (h.map Prod.fst).mem_iff]
  cases hbind' : bindArguments function params args keywords' with
  | ok values => rw [(hsame values).1 hbind']
  | error f' =>
    cases hbind : bindArguments function params args keywords with
    | ok values =>
      rw [(hsame values).2 hbind] at hbind'
      cases hbind'
    | error f => rfl

end Calls

/-- A call binds its arguments exactly if it fits the parameters. Then there is one value for
each parameter: its positional argument, its keyword or its default, the first of these that
is there. If the call does not fit, the arguments are at fault. And in which order the
keywords stand does not matter. -/
theorem bindArguments_exact (function : String) (params : List ParamSlot)
    (hdistinct : (params.map ParamSlot.name).Nodup) (args : List Value) (keywords : Keywords) :
    ((∃ values, bindArguments function params args keywords = .ok values) ↔
      Fits params args keywords) ∧
    (∀ values, bindArguments function params args keywords = .ok values →
      values.length = params.length ∧
        ∀ (i : Nat) (p : ParamSlot), params[i]? = some p →
          values[i]? = p.given args[i]? keywords) ∧
    (∀ f, bindArguments function params args keywords = .error f → f.kind = .argument) ∧
    ∀ keywords' : Keywords, keywords'.entries.Perm keywords.entries →
      (bindArguments function params args keywords').toOption =
        (bindArguments function params args keywords).toOption := by
  refine ⟨?_, fun values hvalues => ?_, bindArguments_fails, fun keywords' hperm =>
    toOption_bindArguments_of_perm hdistinct hperm⟩
  · simp only [bindArguments_eq_ok_iff hdistinct, exists_and_left, exists_given_iff]
    exact ⟨fun ⟨hlength, hknown, hcomplete⟩ => ⟨hlength, hknown, hcomplete⟩,
      fun h => ⟨h.positional, h.keyword, h.complete⟩⟩
  obtain ⟨-, -, hgiven⟩ := (bindArguments_eq_ok_iff hdistinct).1 hvalues
  refine ⟨?_, fun i p hp => ?_⟩
  · simpa using (congrArg List.length hgiven).symm
  have hi := List.mapIdx_eq_iff.1 hgiven i
  rw [hp, List.getElem?_map, Option.map_some] at hi
  obtain ⟨v, hv, hsome⟩ := Option.map_eq_some_iff.1 hi
  rw [hv, hsome]

/-- Someone to greet, and how. -/
def Sample.greeting : List ParamSlot :=
  [⟨"name", none⟩, ⟨"greeting", some (.str "Hello")⟩, ⟨"mark", some (.str "!")⟩]

/-- A call with a positional argument, a keyword and a default fits, and two keywords can be
swapped. With a keyword for what the positional argument fills, or without the name, a call
does not fit. -/
theorem bindArguments_exact_greeting :
    let asked : Keywords := .ofList [("mark", .str "?"), ("greeting", .str "Hi")]
    let swapped : Keywords := .ofList [("greeting", .str "Hi"), ("mark", .str "?")]
    (Sample.greeting.map ParamSlot.name).Nodup ∧
      Fits Sample.greeting [.str "Ann"] (.ofList [("mark", .str "?")]) ∧
      (∃ values, bindArguments "greet" Sample.greeting [.str "Ann"] (.ofList [("mark", .str "?")]) =
        .ok values ∧ values[0]? = some (.str "Ann") ∧ values[1]? = some (.str "Hello") ∧
        values[2]? = some (.str "?")) ∧
      (bindArguments "greet" Sample.greeting [.str "Ann"] swapped).toOption =
        (bindArguments "greet" Sample.greeting [.str "Ann"] asked).toOption ∧
      ¬ Fits Sample.greeting [.str "Ann"] (.ofList [("name", .str "Bo")]) ∧
      ¬ Fits Sample.greeting [] asked := by
  intro asked swapped
  have hdistinct : (Sample.greeting.map ParamSlot.name).Nodup := by decide
  have hexact := bindArguments_exact "greet" Sample.greeting hdistinct
  have hfits : Fits Sample.greeting [.str "Ann"] (.ofList [("mark", .str "?")]) :=
    ⟨by decide, by decide, by decide⟩
  refine ⟨hdistinct, hfits, ?_, ?_, fun h => ?_, fun h => ?_⟩
  · obtain ⟨values, hvalues⟩ := (hexact _ _).1.2 hfits
    obtain ⟨-, hgiven⟩ := (hexact _ _).2.1 values hvalues
    exact ⟨values, hvalues, hgiven 0 _ rfl, hgiven 1 _ rfl, hgiven 2 _ rfl⟩
  · exact (hexact _ asked).2.2.2 swapped (.swap _ _ _)
  · obtain ⟨values, hvalues⟩ := (hexact _ _).1.2 h
    cases hvalues
  · obtain ⟨values, hvalues⟩ := (hexact _ _).1.2 h
    cases hvalues

end Scripting
