import QueryContainment.Proofs.Conjunctive.Parts
import QueryContainment.Proofs.Rdf.LiteralText

namespace QueryContainment

/-- The same IRI, written form of a literal, variable name or blank node label. -/
def Term.Same : Term → Term → Prop
  | .iri a, .iri b => a = b
  | .literal a, .literal b => a.text = b.text
  | .var a, .var b => a = b
  | .blank a, .blank b => a = b
  | _, _ => False

theorem Term.same_iff {t u : Term} : t.Same u ↔ t = u := by
  cases t <;> cases u <;> simp [Term.Same, Literal.text_inj]

namespace Naming

/-- The terms of a list, each with the symbol that it is given when its turn comes. -/
def handedOut (n : Naming) : List Term → List (Term × Symbol)
  | [] => []
  | t :: ts => (t, n.symbol t) :: (n.add t).handedOut ts

/-- What a check asks of the table of symbols. -/
inductive Call where
  | term (t : Term)
  | scope
  | pattern (p : Pattern)
  | query (q : Query)

namespace Call

/-- What a call reads, if it reads anything. -/
def reads (k : Nat) : Call → Option (Flattened (ConjunctiveQuery Term))
  | term _ | scope => none
  | pattern p => some (.ofPattern k p)
  | query q => some (.ofQuery k q)

/-- The terms that a call meets, in that order; a rejected pattern is read in part. -/
def terms (k : Nat) : Call → List Term
  | term t => [t]
  | c => (c.reads k).elim [] (·.terms)

/-- The table after a call. -/
def apply (n : Naming) : Call → Naming
  | term t => n.add t
  | scope => n.newScope.2
  | pattern p => (n.readPattern p).2
  | query q => (n.readQuery q).2

/-- The query that a call makes, unless it is rejected. -/
def made (n : Naming) : Call → Option (ConjunctiveQuery Symbol)
  | pattern p => (n.readPattern p).1.toOption
  | query q => (n.readQuery q).1.toOption
  | _ => none

end Call

/-- The table after a sequence of calls. -/
def after (n : Naming) (calls : List Call) : Naming := calls.foldl Call.apply n

/-- All that is handed out in a sequence of calls. -/
def log : Naming → List Call → List (Term × Symbol)
  | _, [] => []
  | n, c :: calls => n.handedOut (c.terms n.scopes) ++ (c.apply n).log calls

/-- The queries that are made in a sequence of calls, with the queries of their endpoints. -/
def made : Naming → List Call → List (ConjunctiveQuery Symbol)
  | _, [] => []
  | n, c :: calls => (c.made n).elim [] (·.parts) ++ (c.apply n).made calls

/-- A table as it stands after some calls on an empty one. -/
structure Sound (n : Naming) : Prop extends n.WellFormed where
  kind_eq : ∀ e ∈ n.entries, e.2.kind = kindOf e.1
  nameChars : ∀ e ∈ n.entries, ∀ c ∈ e.2.name.toList, isNameChar c

theorem mem_entries_add {n : Naming} {t : Term} {e : Term × Symbol} :
    e ∈ (n.add t).entries ↔ e ∈ n.entries ∨ e = (t, n.symbol t) := by
  cases h : n.symbol? t with
  | none => simp [add, h, or_comm]
  | some s =>
    rw [add, if_pos (by simp [h]), symbol_of_symbol? h]
    exact ⟨.inl, fun he => he.elim id fun he => he ▸ mem_entries_of_symbol? h⟩

theorem mem_entries_addAll {n : Naming} {ts : List Term} {e : Term × Symbol} :
    e ∈ (n.addAll ts).entries ↔ e ∈ n.entries ∨ e ∈ n.handedOut ts := by
  induction ts generalizing n with
  | nil => simp [addAll, handedOut]
  | cons t ts ih =>
    show e ∈ ((n.add t).addAll ts).entries ↔ _
    rw [ih, mem_entries_add, handedOut, List.mem_cons, or_assoc]

theorem nameChars_toString (n : Nat) : ∀ c ∈ (toString n).toList, isNameChar c := by
  intro c hc
  rw [Nat.toString_eq_ofList_toDigits, String.toList_ofList] at hc
  have hd : c.isDigit := Nat.isDigit_of_mem_toDigits (by decide) (by decide) hc
  simp [isNameChar, Char.isAlphanum, hd]

theorem nameChars_toNameChars (l : List Char) : ∀ c ∈ toNameChars l, isNameChar c := by
  intro c hc
  obtain ⟨d, -, rfl⟩ := List.mem_map.1 hc
  by_cases hd : isNameChar d = true
  · rwa [if_pos hd]
  · rw [if_neg hd]
    decide

theorem nameChars_append {a b : String} (ha : ∀ c ∈ a.toList, isNameChar c)
    (hb : ∀ c ∈ b.toList, isNameChar c) : ∀ c ∈ (a ++ b).toList, isNameChar c := by
  intro c hc
  rw [String.toList_append] at hc
  exact (List.mem_append.1 hc).elim (ha c) (hb c)

theorem nameChars_baseName (n : Naming) (t : Term) :
    ∀ c ∈ (n.baseName t).toList, isNameChar c := by
  cases t with
  | iri value =>
    show ∀ c ∈ (iriName value).toList, isNameChar c
    unfold iriName
    split
    · exact List.all_eq_true.1 rfl
    · rw [String.toList_ofList]
      exact nameChars_toNameChars _
  | literal l => exact nameChars_append (List.all_eq_true.1 rfl) (nameChars_toString _)
  | var name =>
    unfold baseName
    rw [String.toList_ofList]
    exact nameChars_toNameChars _
  | blank label => exact nameChars_append (List.all_eq_true.1 rfl) (nameChars_toString _)

theorem nameChars_fresh (taken : List String) {base : String}
    (h : ∀ c ∈ base.toList, isNameChar c) : ∀ c ∈ (fresh taken base).toList, isNameChar c := by
  by_cases hb : base ∈ taken
  · obtain ⟨k, -, -, heq, -⟩ := fresh_of_mem hb
    rw [heq]
    exact nameChars_append (nameChars_append h (List.all_eq_true.1 rfl)) (nameChars_toString k)
  · rwa [fresh_of_not_mem hb]

theorem sound_empty : empty.Sound :=
  ⟨wellFormed_empty, by simp [empty], by simp [empty]⟩

theorem sound_add {n : Naming} (h : n.Sound) (t : Term) : (n.add t).Sound := by
  have hnew (he : n.symbol? t = none) :
      (n.symbol t).kind = kindOf t ∧ ∀ c ∈ (n.symbol t).name.toList, isNameChar c := by
    rw [symbol_kind_of_new he]
    exact ⟨rfl, nameChars_fresh _ (nameChars_baseName n t)⟩
  have hsymbol : (n.symbol t).kind = kindOf t ∧ ∀ c ∈ (n.symbol t).name.toList, isNameChar c := by
    cases hs : n.symbol? t with
    | none => exact hnew hs
    | some s =>
      rw [symbol_of_symbol? hs]
      have hmem := mem_entries_of_symbol? hs
      exact ⟨h.kind_eq _ hmem, h.nameChars _ hmem⟩
  -- an entry of the longer table is an old one, or that of the term
  refine ⟨wellFormed_add h.toWellFormed t, fun e he => ?_, fun e he => ?_⟩
  · rcases mem_entries_add.1 he with he | rfl
    · exact h.kind_eq e he
    · exact hsymbol.1
  · rcases mem_entries_add.1 he with he | rfl
    · exact h.nameChars e he
    · exact hsymbol.2

theorem sound_addAll {n : Naming} (h : n.Sound) (ts : List Term) : (n.addAll ts).Sound := by
  induction ts generalizing n with
  | nil => exact h
  | cons t ts ih => exact ih (sound_add h t)

theorem Sound.dot_not_mem {n : Naming} (h : n.Sound) {e : Term × Symbol} (he : e ∈ n.entries) :
    '.' ∉ e.2.name.toList := fun hdot => absurd (h.nameChars e he '.' hdot) (by decide)

theorem sound_scopes {n : Naming} (h : n.Sound) (k : Nat) : { n with scopes := k }.Sound :=
  ⟨⟨h.nodup_taken, h.nodup_terms⟩, h.kind_eq, h.nameChars⟩

theorem entries_apply (n : Naming) (c : Call) :
    (c.apply n).entries = (n.addAll (c.terms n.scopes)).entries := by
  cases c <;> rfl

theorem sound_apply {n : Naming} (h : n.Sound) (c : Call) : (c.apply n).Sound := by
  cases c with
  | term t => exact sound_add h t
  | scope => exact sound_scopes h _
  | pattern p => exact sound_scopes (sound_addAll h _) _
  | query q => exact sound_scopes (sound_addAll h _) _

theorem sound_after {n : Naming} (h : n.Sound) (calls : List Call) : (n.after calls).Sound := by
  induction calls generalizing n with
  | nil => exact h
  | cons c calls ih => exact ih (sound_apply h c)

theorem after_append (n : Naming) (calls more : List Call) :
    n.after (calls ++ more) = (n.after calls).after more := List.foldl_append

/-- The table holds what it held before and all that was handed out since. -/
theorem mem_entries_after {n : Naming} (calls : List Call) {e : Term × Symbol} :
    e ∈ (n.after calls).entries ↔ e ∈ n.entries ∨ e ∈ n.log calls := by
  induction calls generalizing n with
  | nil => simp [after, log]
  | cons c calls ih =>
    show e ∈ ((c.apply n).after calls).entries ↔ _
    rw [ih, entries_apply, mem_entries_addAll, log, List.mem_append, or_assoc]

theorem mem_entries_iff_log {calls : List Call} {e : Term × Symbol} :
    e ∈ (empty.after calls).entries ↔ e ∈ empty.log calls := by
  simp [mem_entries_after, empty]

theorem symbol?_of_mem_entries {n : Naming} (h : n.WellFormed) {e : Term × Symbol}
    (he : e ∈ n.entries) : n.symbol? e.1 = some e.2 := by
  cases hs : n.symbol? e.1 with
  | none => simpa using List.lookup_eq_none_iff.1 hs e he
  | some s =>
    have hmem := mem_entries_of_symbol? hs
    have hsame := Distinct.eq_of_nodup_map h.nodup_terms he hmem rfl
    exact congrArg some (congrArg Prod.snd hsame).symm

theorem symbol_of_mem_entries {n : Naming} (h : n.WellFormed) {e : Term × Symbol}
    (he : e ∈ n.entries) : n.symbol e.1 = e.2 := symbol_of_symbol? (symbol?_of_mem_entries h he)

end Naming

/-- A query whose terms have been replaced by the symbols that a table has for them. -/
structure ConjunctiveQuery.NamedBy (n : Naming) (q : ConjunctiveQuery Symbol) : Prop where
  named : ∀ a ∈ q.atoms, ∀ s ∈ a.toList, ∃ t, (t, s) ∈ n.entries
  graph_kind : ∀ a ∈ q.atoms, ∀ s, a.graph = some s → s.kind = .iri
  occurs : ∀ x ∈ q.answer ++ q.other, ∃ s, (.var x, s) ∈ n.entries ∧ ∃ a ∈ q.atoms, s ∈ a.places

theorem ConjunctiveQuery.NamedBy.mono {n n' : Naming} {q : ConjunctiveQuery Symbol}
    (h : q.NamedBy n) (hn : ∀ e ∈ n.entries, e ∈ n'.entries) : q.NamedBy n' where
  named a ha s hs := (h.named a ha s hs).imp fun _ ht => hn _ ht
  graph_kind := h.graph_kind
  occurs x hx := (h.occurs x hx).imp fun _ hs => ⟨hn _ hs.1, hs.2⟩

namespace Naming

/-- The symbol of a term that has one is in the table. -/
theorem mem_entries_symbol {n : Naming} {t : Term} (h : (n.symbol? t).isSome) :
    (t, n.symbol t) ∈ n.entries := by
  obtain ⟨s, hs⟩ := Option.isSome_iff_exists.1 h
  rw [symbol_of_symbol? hs]
  exact mem_entries_of_symbol? hs

theorem namedBy_map {n : Naming} (h : n.Sound) {met : List Term} {q : ConjunctiveQuery Term}
    (hq : q.Over met) (hm : ∀ t ∈ met, (n.symbol? t).isSome) : (q.map n.symbol).NamedBy n := by
  refine ⟨fun a ha s hs => ?_, fun a ha s hs => ?_, fun x hx => ?_⟩
  · rw [ConjunctiveQuery.atoms_map] at ha
    obtain ⟨b, hb, rfl⟩ := List.mem_map.1 ha
    rw [Atom.toList_map] at hs
    obtain ⟨t, ht, rfl⟩ := List.mem_map.1 hs
    exact ⟨t, mem_entries_symbol (hm t (hq.met_of_mem b hb t ht))⟩
  · rw [ConjunctiveQuery.atoms_map] at ha
    obtain ⟨b, hb, rfl⟩ := List.mem_map.1 ha
    obtain ⟨t, ht, rfl⟩ := Option.map_eq_some_iff.1 hs
    obtain ⟨url, rfl⟩ := hq.graph_iri b hb t ht
    have hmet := hm _ (hq.met_of_mem b hb _ (Atom.mem_toList.2 (.inr ht)))
    exact h.kind_eq _ (mem_entries_symbol hmet)
  · rw [ConjunctiveQuery.answer_map, ConjunctiveQuery.other_map] at hx
    obtain ⟨a, ha, hplace⟩ := hq.occurs x hx
    have hmet := hm _ (hq.met_of_mem a ha _ (Atom.mem_toList.2 (.inl hplace)))
    refine ⟨n.symbol (.var x), mem_entries_symbol hmet, a.map n.symbol, ?_, ?_⟩
    · rw [ConjunctiveQuery.atoms_map]
      exact List.mem_map_of_mem ha
    · rw [Atom.places_map]
      exact List.mem_map_of_mem hplace

/-- What is made of an outcome is what has been read, with symbols in place of the terms. -/
theorem name_eq_ok {n : Naming} {f : Flattened (ConjunctiveQuery Term)}
    {q : ConjunctiveQuery Symbol} (hq : (n.name f).1 = .ok q) :
    ∃ r, f.result = .ok r ∧ q = r.map (n.name f).2.symbol := by
  cases hres : f.result with
  | error reason => simp [name, hres, Except.map] at hq
  | ok r =>
    simp only [name, hres, Except.map, Except.ok.injEq] at hq
    exact ⟨r, rfl, hq.symm⟩

/-- What has been read keeps its symbols in every table that keeps them. -/
theorem eq_map_of_name {n n' : Naming} (hn' : n'.WellFormed)
    {f : Flattened (ConjunctiveQuery Term)} (hf : f.WellDrawn) {s : ConjunctiveQuery Symbol}
    (hs : (n.name f).1 = .ok s) (hkeep : ∀ e ∈ (n.name f).2.entries, e ∈ n'.entries) : ∃ r,
      f.result = .ok r ∧ s = r.map n'.symbol ∧ ∀ t ∈ f.terms, (t, n'.symbol t) ∈ n'.entries := by
  obtain ⟨r, hr, rfl⟩ := name_eq_ok hs
  have hentry (t : Term) (ht : t ∈ f.terms) : (t, (n.name f).2.symbol t) ∈ n'.entries :=
    hkeep _ (mem_entries_symbol (n := (n.name f).2) (symbol?_addAll_of_mem ht))
  have hsame (t : Term) (ht : t ∈ f.terms) : n'.symbol t = (n.name f).2.symbol t :=
    symbol_of_mem_entries hn' (hentry t ht)
  refine ⟨r, hr, ConjunctiveQuery.map_congr fun part hpart a ha t ht => ?_, fun t ht => ?_⟩
  · exact (hsame t ((hf r hr part hpart).met_of_mem a ha t ht)).symm
  · rw [hsame t ht]
    exact hentry t ht

theorem eq_map_of_readQuery {n n' : Naming} (hn' : n'.WellFormed) {q : Query}
    {s : ConjunctiveQuery Symbol} (hs : (n.readQuery q).1 = .ok s)
    (hkeep : ∀ e ∈ (n.readQuery q).2.entries, e ∈ n'.entries) : ∃ r,
      (Flattened.ofQuery n.scopes q).result = .ok r ∧ s = r.map n'.symbol ∧
        ∀ t ∈ (Flattened.ofQuery n.scopes q).terms, (t, n'.symbol t) ∈ n'.entries :=
  eq_map_of_name hn' (Flattened.wellDrawn_ofQuery n.scopes q) hs hkeep

theorem namedBy_name {n : Naming} (h : n.Sound) {f : Flattened (ConjunctiveQuery Term)}
    (hf : f.WellDrawn) {q : ConjunctiveQuery Symbol} (hq : (n.name f).1 = .ok q) :
    ∀ part ∈ q.parts, part.NamedBy (n.name f).2 := by
  have hsound : (n.name f).2.Sound := sound_scopes (sound_addAll h _) _
  obtain ⟨r, hr, rfl⟩ := name_eq_ok hq
  intro part hpart
  rw [ConjunctiveQuery.parts_map] at hpart
  obtain ⟨rpart, hrpart, rfl⟩ := List.mem_map.1 hpart
  exact namedBy_map hsound (hf r hr rpart hrpart) fun t ht => symbol?_addAll_of_mem ht

theorem namedBy_call {n : Naming} (h : n.Sound) (c : Call) :
    ∀ part ∈ (c.made n).elim [] (·.parts), part.NamedBy (c.apply n) := by
  have hread (f : Flattened (ConjunctiveQuery Term)) (hf : f.WellDrawn) :
      ∀ part ∈ (n.name f).1.toOption.elim [] (·.parts), part.NamedBy (n.name f).2 := by
    intro part hpart
    cases hq : (n.name f).1 with
    | error reason => simp [hq, Except.toOption] at hpart
    | ok q =>
      rw [hq] at hpart
      exact namedBy_name h hf hq part hpart
  cases c with
  | term t => simp [Call.made]
  | scope => simp [Call.made]
  | pattern p => exact hread _ (Flattened.wellDrawn_ofPattern _ p)
  | query q => exact hread _ (Flattened.wellDrawn_ofQuery _ q)

/-- All queries that a run makes are named by the table at its end. -/
theorem namedBy_made {n : Naming} (h : n.Sound) (calls : List Call) :
    ∀ part ∈ n.made calls, part.NamedBy (n.after calls) := by
  induction calls generalizing n with
  | nil => simp [made]
  | cons c calls ih =>
    intro part hpart
    rcases List.mem_append.1 hpart with hpart | hpart
    -- what the first call has named keeps its symbols through the others
    · refine (namedBy_call h c part hpart).mono fun e he => ?_
      exact (mem_entries_after (n := c.apply n) calls).2 (.inl he)
    · exact ih (sound_apply h c) part hpart

/-- The queries of the endpoints of a query that is made are made. -/
theorem made_of_mem_parts {n : Naming} {calls : List Call} {part q : ConjunctiveQuery Symbol}
    (hq : q ∈ n.made calls) (hpart : part ∈ q.parts) : part ∈ n.made calls := by
  induction calls generalizing n with
  | nil => simp [made] at hq
  | cons c calls ih =>
    rcases List.mem_append.1 hq with hq | hq
    · cases hc : c.made n with
      | none => simp [hc] at hq
      | some r =>
        simp only [hc, Option.elim_some] at hq
        refine List.mem_append_left _ ?_
        simp only [hc, Option.elim_some]
        exact ConjunctiveQuery.mem_parts_trans hpart r hq
    · exact List.mem_append_right _ (ih hq)

theorem taken_iff {n : Naming} {name : String} :
    name ∈ n.taken ↔ name = defaultGraph ∨ ∃ e ∈ n.entries, e.2.name = name := by
  simp [taken]

theorem name_eq_iff {n : Naming} (h : n.WellFormed) {e e' : Term × Symbol} (he : e ∈ n.entries)
    (he' : e' ∈ n.entries) : e.2.name = e'.2.name ↔ e.1 = e'.1 := by
  have hn := (List.nodup_cons.1 h.nodup_taken).2
  refine ⟨fun heq => ?_, fun heq => ?_⟩
  · rw [Distinct.eq_of_nodup_map hn he he' heq]
  · rw [Distinct.eq_of_nodup_map h.nodup_terms he he' heq]

/-- Terms that two entries of a table share have the same symbol, and the other way round. -/
theorem symbol_eq_iff {n : Naming} (h : n.WellFormed) {e e' : Term × Symbol} (he : e ∈ n.entries)
    (he' : e' ∈ n.entries) : e.2 = e'.2 ↔ e.1 = e'.1 := by
  refine ⟨fun heq => (name_eq_iff h he he').1 (congrArg Symbol.name heq), fun heq => ?_⟩
  rw [Distinct.eq_of_nodup_map h.nodup_terms he he' heq]

theorem name_ne_defaultGraph {n : Naming} (h : n.WellFormed) {e : Term × Symbol}
    (he : e ∈ n.entries) : e.2.name ≠ defaultGraph :=
  fun heq => (List.nodup_cons.1 h.nodup_taken).1 (heq ▸ List.mem_map_of_mem he)

/--
Whatever is asked of a table that was empty at first, rejected patterns included: two terms get the
same symbol, and the same name, if and only if they are the same term; a term keeps its symbol
through all further calls, and a variable is found under its name; no symbol has the name of the
default graph, and names have letters, digits and underscores only; the names that are taken are
that of the default graph and those handed out; and the symbols of the queries that are made, those
of their endpoints included, are among the symbols handed out.
-/
theorem run_invariant (calls : List Call) :
    (∀ e ∈ empty.log calls, ∀ e' ∈ empty.log calls,
      (e.2 = e'.2 ↔ e.1.Same e'.1) ∧ (e.2.name = e'.2.name ↔ e.1.Same e'.1)) ∧
    (∀ e ∈ empty.log calls, ∀ more : List Call,
      (empty.after (calls ++ more)).symbol? e.1 = some e.2 ∧
      (empty.after (calls ++ more)).symbol e.1 = e.2 ∧
      ∀ x, e.1 = .var x → (empty.after (calls ++ more)).varSymbol? x = some e.2) ∧
    (∀ e ∈ empty.log calls, e.2.name ≠ defaultGraph ∧ ∀ c ∈ e.2.name.toList, isNameChar c) ∧
    (∀ name, name ∈ (empty.after calls).taken ↔
      name = defaultGraph ∨ ∃ e ∈ empty.log calls, e.2.name = name) ∧
    ∀ part ∈ empty.made calls, ∀ a ∈ part.atoms, ∀ s ∈ a.toList,
      ∃ t, (t, s) ∈ empty.log calls := by
  have hsound := sound_after sound_empty calls
  have hlog (e : Term × Symbol) : e ∈ (empty.after calls).entries ↔ e ∈ empty.log calls :=
    mem_entries_iff_log
  refine ⟨fun e he e' he' => ?_, fun e he more => ?_, fun e he => ?_, fun name => ?_, ?_⟩
  · have hname := name_eq_iff hsound.toWellFormed ((hlog e).2 he) ((hlog e').2 he')
    rw [Term.same_iff]
    refine ⟨⟨fun h => hname.1 (congrArg Symbol.name h), fun h => ?_⟩, hname⟩
    have hs := symbol?_of_mem_entries hsound.toWellFormed ((hlog e).2 he)
    have hs' := symbol?_of_mem_entries hsound.toWellFormed ((hlog e').2 he')
    rw [h, hs', Option.some.injEq] at hs
    exact hs.symm
  · have hmore := sound_after sound_empty (calls ++ more)
    have hmem : e ∈ (empty.after (calls ++ more)).entries := by
      rw [after_append]
      exact (mem_entries_after more).2 (.inl ((hlog e).2 he))
    have hs := symbol?_of_mem_entries hmore.toWellFormed hmem
    exact ⟨hs, symbol_of_mem_entries hmore.toWellFormed hmem, fun x hx => by rwa [hx] at hs⟩
  · exact ⟨name_ne_defaultGraph hsound.toWellFormed ((hlog e).2 he),
      hsound.nameChars e ((hlog e).2 he)⟩
  · simp only [taken_iff, hlog]
  · intro part hpart a ha s hs
    obtain ⟨t, ht⟩ := (namedBy_made sound_empty calls part hpart).named a ha s hs
    exact ⟨t, (hlog _).1 ht⟩

/-- Two IRIs ask for one name, and a variable for the next one, in a pattern that is rejected. -/
def collidingCalls : List Call :=
  [ .term (.iri "http://a.b"), .term (.iri "https://a/b"),
    .pattern (.join (.bgp [⟨.var "a_b_1", .iri "http://a.b", .blank "b"⟩]) (.values [])) ]

theorem run_invariant_colliding :
    (⟨.iri, "a_b"⟩ : Symbol) ≠ ⟨.iri, "a_b_1"⟩ ∧
    (empty.after (collidingCalls ++ [.scope])).varSymbol? "a_b_1" = some ⟨.var, "a_b_1_1"⟩ ∧
    "_b0" ∈ (empty.after collidingCalls).taken := by
  have hlog : empty.log collidingCalls =
      [ (.iri "http://a.b", ⟨.iri, "a_b"⟩), (.iri "https://a/b", ⟨.iri, "a_b_1"⟩),
        (.var "a_b_1", ⟨.var, "a_b_1_1"⟩), (.iri "http://a.b", ⟨.iri, "a_b"⟩),
        (.blank "b", ⟨.var, "_b0"⟩) ] := by decide
  obtain ⟨hsame, hkept, -, htaken, -⟩ := run_invariant collidingCalls
  have hfirst : (.iri "http://a.b", ⟨.iri, "a_b"⟩) ∈ empty.log collidingCalls := by simp [hlog]
  have hsecond : (.iri "https://a/b", ⟨.iri, "a_b_1"⟩) ∈ empty.log collidingCalls := by
    simp [hlog]
  have hvar : (.var "a_b_1", ⟨.var, "a_b_1_1"⟩) ∈ empty.log collidingCalls := by simp [hlog]
  refine ⟨fun h => ?_, (hkept _ hvar [.scope]).2.2 "a_b_1" rfl, (htaken "_b0").2 (.inr ?_)⟩
  · have hterm := (hsame _ hfirst _ hsecond).1.1 h
    simp [Term.Same] at hterm
  · exact ⟨(.blank "b", ⟨.var, "_b0"⟩), by simp [hlog], rfl⟩

end Naming

end QueryContainment
