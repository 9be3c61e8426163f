import Mathlib.Data.List.Basic
import QueryContainment.Proofs.Conjunctive.Adequacy

namespace QueryContainment

open Naming

theorem Term.toList_varName?_ofPattern {p : PatternTerm} {t : Term} (h : ofPattern p = .ok t) :
    t.varName?.toList = p.vars := by
  rcases ofPattern_eq_ok h with ⟨_, rfl, rfl⟩ | ⟨_, rfl, rfl⟩ | ⟨_, rfl, rfl⟩ | ⟨_, rfl, rfl⟩ <;> rfl

theorem Term.toList_varName?_ofIriOrVar (p : IriOrVar) :
    (ofIriOrVar p).varName?.toList = p.vars := by
  cases p <;> rfl

theorem Triple.filterMap_varName? (terms : Triple Term) :
    terms.toList.filterMap Term.varName? = terms.subject.varName?.toList ++
      terms.predicate.varName?.toList ++ terms.object.varName?.toList := by
  obtain ⟨s, p, o⟩ := terms
  cases s <;> cases p <;> cases o <;> rfl

theorem Step.visible_ofTriple {c : Context} {t : TriplePattern}
    (h : (ofTriple c t).rejection? = none) :
    (ofTriple c t).visible = t.vars.filter fun x => (c.hiddenIn x).isNone := by
  obtain ⟨a, visible, hstep⟩ := exists_atom_of_accepted h
  obtain ⟨terms, hterms, -, hvisible⟩ := ofTriple_eq_atom hstep
  obtain ⟨hs, hp, ho⟩ := TriplePattern.terms_eq_ok hterms
  have hvars : terms.toList.filterMap Term.varName? = t.vars := by
    rw [Triple.filterMap_varName?, Term.toList_varName?_ofPattern hs, hp,
      Term.toList_varName?_ofIriOrVar, Term.toList_varName?_ofPattern ho]
    rfl
  rw [hstep, Step.visible, hvisible, hvars]

theorem Pattern.visible_steps {p : Pattern} {c : Context} {k : Nat}
    (h : Step.Accepted (p.steps c k)) : (p.steps c k).flatMap Step.visible =
      p.bound.filter fun x => (c.hiddenIn x).isNone := by
  induction p generalizing c k with
  | bgp triples =>
    simp only [steps, bound, List.flatMap_map, List.filter_flatMap]
    refine List.flatMap_congr fun t ht => ?_
    exact Step.visible_ofTriple (h _ (List.mem_map_of_mem ht))
  | join left right ihl ihr =>
    simp only [steps, List.flatMap_append, bound, List.filter_append]
    rw [ihl fun s hs => h s (List.mem_append_left _ hs),
      ihr fun s hs => h s (List.mem_append_right _ hs)]
  | distinct inner ih => exact ih h
  | reduced inner ih => exact ih h
  | orderBy inner ih => exact ih h
  | project inner names ih =>
    simp only [steps, List.flatMap_cons, Step.visible, List.nil_append, bound]
    rw [ih fun s hs => h s (List.mem_cons_of_mem _ hs), List.filter_filter]
    refine List.filter_congr fun x _ => ?_
    rw [Context.hiddenIn_cons]
    by_cases hx : x ∈ names <;> simp [hx]
  | service name inner ih =>
    cases name with
    | var name => exact absurd (h _ List.mem_cons_self) (by simp [Step.rejection?])
    | iri url =>
      simp only [steps, List.flatMap_cons, Step.visible, List.nil_append, bound]
      exact ih (c := { c with graph := some url }) fun s hs => h s (List.mem_cons_of_mem _ hs)
  | _ => exact absurd (h _ List.mem_cons_self) (by simp [Step.rejection?])

/-- At the root no variable is hidden. -/
theorem Pattern.visible_root {p : Pattern} {k : Nat} (h : Step.Accepted (p.steps .root k)) :
    (p.steps .root k).flatMap Step.visible = p.bound := by
  rw [visible_steps h]
  exact List.filter_eq_self.2 fun _ _ => rfl

namespace Pattern

theorem basics_splitProjection (p : Pattern) : p.splitProjection.2.basics = p.basics := by
  fun_induction splitProjection p <;> simp_all

/-- Where solution modifiers do not matter to `f`, the final projection is all that does. -/
theorem eq_project_of_some {β : Type} {f : Pattern → β}
    (hf : ∀ p, f (distinct p) = f p ∧ f (reduced p) = f p ∧ f (orderBy p) = f p) {p : Pattern}
    {names : List String} (h : p.splitProjection.1 = some names) :
    f p = f (project p.splitProjection.2 names) := by
  fun_induction splitProjection p with
  | case1 inner ih => exact (hf inner).1.trans (ih h)
  | case2 inner ih => exact (hf inner).2.1.trans (ih h)
  | case3 inner ih => exact (hf inner).2.2.trans (ih h)
  | case4 inner names' =>
    obtain rfl : names' = names := by simpa using h
    rfl
  | case5 => simp at h

theorem eq_of_none {β : Type} {f : Pattern → β}
    (hf : ∀ p, f (distinct p) = f p ∧ f (reduced p) = f p ∧ f (orderBy p) = f p) {p : Pattern}
    (h : p.splitProjection.1 = none) : f p = f p.splitProjection.2 := by
  fun_induction splitProjection p with
  | case1 inner ih => exact (hf inner).1.trans (ih h)
  | case2 inner ih => exact (hf inner).2.1.trans (ih h)
  | case3 inner ih => exact (hf inner).2.2.trans (ih h)
  | case4 inner names' => simp at h
  | case5 => rfl

theorem mem_bound_of_some {p : Pattern} {names : List String}
    (h : p.splitProjection.1 = some names) {x : String} :
    x ∈ p.bound ↔ x ∈ p.splitProjection.2.bound ∧ x ∈ names := by
  rw [eq_project_of_some (f := bound) (fun _ => ⟨rfl, rfl, rfl⟩) h, bound, List.mem_filter,
    List.contains_iff_mem]

/-- A final projection restricts the solutions of what it is a projection of. -/
theorem solutions_of_some {p : Pattern} {names : List String}
    (h : p.splitProjection.1 = some names) (D : Dataset) (g : Option String) :
    p.solutions D g = {μ | ∃ ν ∈ p.splitProjection.2.solutions D g, μ = ν.restrict names} :=
  eq_project_of_some (f := fun p => p.solutions D g) (fun _ => ⟨rfl, rfl, rfl⟩) h

theorem solutions_of_none {p : Pattern} (h : p.splitProjection.1 = none) (D : Dataset)
    (g : Option String) : p.solutions D g = p.splitProjection.2.solutions D g :=
  eq_of_none (f := fun p => p.solutions D g) (fun _ => ⟨rfl, rfl, rfl⟩) h

end Pattern

/-- A valuation to begin with: the values of a mapping, and anything for other variables. -/
def start (μ : Mapping) (t : Term) : RdfTerm :=
  match t with
  | .iri value => .iri value
  | .literal value => .literal value
  | .var name => (μ name).getD (.blank "")
  | .blank _ => .blank ""

theorem faithful_start (μ : Mapping) : Faithful (start μ) := by
  intro t r h
  cases t <;> simp_all [Term.ground?, start]

theorem Pattern.solutions_root {p : Pattern} {k : Nat}
    (hn : p.AvoidsScopes k (k + Step.scopes (p.steps .root k))) (hb : p.BlanksApart)
    (ha : Step.Accepted (p.steps .root k)) (D : Dataset) : p.solutions D none =
      {μ | ∃ v, Faithful v ∧ Step.AllFacts D v (p.steps .root k) ∧
        μ = fun x => if x ∈ p.bound then some (v (.var x)) else none} := by
  ext μ
  constructor
  · intro hμ
    -- the variables that the solution binds are private to no part, and keep their values
    obtain ⟨w, hw⟩ := exists_fills (c := .root) hn hb (by simp [Context.root]) ha
      (faithful_start μ) hμ fun x r hx => by simp [Context.rename, Context.hiddenIn,
        Context.root, start, hx]
    refine ⟨w, hw.faithful, hw.facts, funext fun x => ?_⟩
    by_cases hx : x ∈ p.bound
    · obtain ⟨r, hr⟩ := Option.isSome_iff_exists.1 ((isSome_iff_mem_bound hμ x).2 hx)
      have hroot : ∀ s ∈ Context.root.subSelects, s.scope < k := by simp [Context.root]
      have hplain := Context.not_inner_rename_var hroot p.blanks (hn.of_mem_bound hx)
      rw [if_pos hx, hw.agrees (.var x) hplain, hr]
      simp [start, hr]
    · rw [if_neg hx]
      exact Option.not_isSome_iff_eq_none.1 fun h => hx ((isSome_iff_mem_bound hμ x).1 h)
  · rintro ⟨v, hv, hfacts, rfl⟩
    exact read_mem_solutions (c := .root) hv ha hfacts

/-- The atoms, and the variables in the answers, of a pattern that is read to its end. -/
theorem Flattened.body_answers {read : Nat → Pattern → Flattened (ConjunctiveQuery Term)}
    {k : Nat} {projection : Option (List String)} {p : Pattern} {q : ConjunctiveQuery Term}
    (h : (body read k projection p).result = .ok q) : Step.Accepted (p.steps .root k) ∧
      q.atoms = (p.steps .root k).filterMap Step.atom? ∧
      ∀ x, x ∈ q.answer ↔ x ∈ p.bound ∧ x ∈ projection.getD [] := by
  obtain ⟨hr, services, -, rfl⟩ := body_result h
  have ha : Step.Accepted (p.steps .root k) := List.findSome?_eq_none_iff.1 hr
  refine ⟨ha, rfl, fun x => ?_⟩
  simp only [ConjunctiveQuery.ofUsed, List.mem_filter, Distinct.mem_ofList,
    Pattern.visible_root ha, List.contains_iff_mem]

theorem satisfiedBy_iff {q : ConjunctiveQuery Term} {steps : List Step}
    (h : q.atoms = steps.filterMap Step.atom?) (D : Dataset) (v : Term → RdfTerm) :
    q.SatisfiedBy D.facts v ↔ Step.AllFacts D v steps := by
  rw [ConjunctiveQuery.SatisfiedBy, h]
  constructor
  · exact fun hs a visible ha => hs a (List.mem_filterMap.2 ⟨_, ha, rfl⟩)
  · intro hs a ha
    obtain ⟨visible, hmem⟩ := Flattened.mem_atoms ha
    exact hs a visible hmem

theorem Flattened.termAnswers_body {read : Nat → Pattern → Flattened (ConjunctiveQuery Term)}
    {k : Nat} {projection : Option (List String)} {p : Pattern} {q : ConjunctiveQuery Term}
    (hn : p.AvoidsScopes k (k + Step.scopes (p.steps .root k))) (hb : p.BlanksApart)
    (h : (body read k projection p).result = .ok q) (D : Dataset) : q.termAnswers D =
      {μ | ∃ ν ∈ p.solutions D none, μ = ν.restrict (projection.getD [])} := by
  obtain ⟨ha, hatoms, hanswer⟩ := body_answers h
  have hmap (v : Term → RdfTerm) : (fun x => if x ∈ q.answer then some (v (.var x)) else none) =
      Mapping.restrict (fun x => if x ∈ p.bound then some (v (.var x)) else none)
        (projection.getD []) := by
    funext x
    by_cases hx : x ∈ p.bound <;> by_cases hl : x ∈ projection.getD [] <;>
      simp [Mapping.restrict, hanswer, hx, hl]
  ext μ
  simp only [ConjunctiveQuery.termAnswers, Set.mem_ofPred_eq, hmap, satisfiedBy_iff hatoms,
    Pattern.solutions_root hn hb ha]
  constructor
  · rintro ⟨v, hv, hfacts, rfl⟩
    exact ⟨_, ⟨v, hv, hfacts, rfl⟩, rfl⟩
  · rintro ⟨ν, ⟨v, hv, hfacts, rfl⟩, rfl⟩
    exact ⟨v, hv, hfacts, rfl⟩

namespace Query

/-- What the final projection is a projection of; `ASK` has none. -/
def inner (q : Query) : Pattern :=
  match q.form with
  | .ask => q.pattern
  | _ => q.pattern.splitProjection.2

/--
No variable of a query is taken for one that is hidden when scopes are opened from `k` on, and no
blank node is in two of its basic patterns.
-/
structure NamesApart (q : Query) (k : Nat) : Prop where
  scopes : q.inner.AvoidsScopes k (k + Step.scopes (q.inner.steps .root k))
  blanks : q.inner.BlanksApart

/-- The variables of the final projection; `ASK` has none. -/
def listed (q : Query) : List String :=
  match q.form with
  | .ask => []
  | _ => q.pattern.splitProjection.1.getD []

/-- The solutions of the pattern of a query, cut to the variables of the final projection. -/
def projectedSolutions (D : Dataset) (q : Query) : Set Mapping :=
  {μ | ∃ ν ∈ q.pattern.solutions D none, μ = ν.restrict q.listed}

/-- Whether a `SELECT` has a final projection, as the grammar of the language has it. -/
def ProjectsIfSelect (q : Query) : Prop :=
  q.form = .select → q.pattern.splitProjection.1.isSome

end Query

theorem Query.basics_inner (q : Query) : q.inner.basics = q.pattern.basics := by
  unfold inner
  split
  · rfl
  · exact Pattern.basics_splitProjection q.pattern

theorem Pattern.BlanksApart.inner {q : Query} (h : q.pattern.BlanksApart) :
    q.inner.BlanksApart := by
  rw [BlanksApart, q.basics_inner]
  exact h

theorem Pattern.WellNamed.namesApart {q : Query} (h : q.pattern.WellNamed) (k : Nat) :
    q.NamesApart k := by
  have hplain : q.inner.PlainNames := by
    rw [PlainNames, q.basics_inner]
    exact h.plain
  exact ⟨hplain.avoidsScopes k _, h.apart.inner⟩

theorem Mapping.restrict_restrict (μ : Mapping) (names : List String) :
    (μ.restrict names).restrict names = μ.restrict names := by
  funext x
  by_cases h : x ∈ names <;> simp [restrict, h]

theorem Mapping.restrict_nil (μ : Mapping) : μ.restrict [] = .empty := by
  funext x
  simp [restrict, empty]

theorem Pattern.restrict_solutions {p : Pattern} {names : List String}
    (h : p.splitProjection.1 = some names) (D : Dataset) :
    {μ | ∃ ν ∈ p.splitProjection.2.solutions D none, μ = ν.restrict names} =
      {μ | ∃ ν ∈ p.solutions D none, μ = ν.restrict names} := by
  ext μ
  rw [solutions_of_some h]
  constructor
  · rintro ⟨ν, hν, rfl⟩
    exact ⟨_, ⟨ν, hν, rfl⟩, (Mapping.restrict_restrict ν names).symm⟩
  · rintro ⟨_, ⟨ν, hν, rfl⟩, rfl⟩
    exact ⟨ν, hν, Mapping.restrict_restrict ν names⟩

/-- The answers of what is read from a query are its solutions, cut to its final projection. -/
theorem Flattened.termAnswers_ofQuery {k : Nat} {q : Query} {r : ConjunctiveQuery Term}
    (hq : q.NamesApart k) (h : (ofQuery k q).result = .ok r) (D : Dataset) :
    r.termAnswers D = q.projectedSolutions D := by
  obtain ⟨form, p, hasDataset⟩ := q
  obtain ⟨hscopes, hblanks⟩ := hq
  cases form with
  | select =>
    cases hasDataset with
    | true => simp [ofQuery] at h
    | false =>
      replace h : (ofPattern k p).result = .ok r := h
      rw [ofPattern_eq] at h
      rw [termAnswers_body (p := p.splitProjection.2) hscopes hblanks h]
      show _ = {μ | ∃ ν ∈ p.solutions D none, μ = ν.restrict (p.splitProjection.1.getD [])}
      -- the atoms are those of the pattern below the final projection
      cases hp : p.splitProjection.1 with
      | none => rw [Pattern.solutions_of_none hp]
      | some names => exact Pattern.restrict_solutions hp D
  | ask =>
    cases hasDataset with
    | true => simp [ofQuery] at h
    | false =>
      replace h : (ofAsk k p).result = .ok r := h
      rw [ofAsk_eq] at h
      exact termAnswers_body hscopes hblanks h D
  | construct => simp [ofQuery] at h
  | describe => simp [ofQuery] at h

/-- Cut to the final projection, the solutions are as they were, or say whether there are any. -/
theorem Query.projectedSolutions_eq {q : Query} (h : q.ProjectsIfSelect)
    (hform : q.form = .select ∨ q.form = .ask) (D : Dataset) :
    q.projectedSolutions D = q.solutions D := by
  symm
  rcases hform with hform | hform
  · obtain ⟨names, hnames⟩ := Option.isSome_iff_exists.1 (h hform)
    simp only [solutions, projectedSolutions, listed, hform, hnames, Option.getD_some]
    rw [← Pattern.restrict_solutions hnames, Pattern.solutions_of_some hnames]
  · simp only [solutions, projectedSolutions, listed, hform, Mapping.restrict_nil]
    ext μ
    exact ⟨fun ⟨hμ, ν, hν⟩ => ⟨ν, hν, hμ⟩, fun ⟨ν, hν, hμ⟩ => ⟨hμ, ν, hν⟩⟩

namespace Naming

/-- The term that a symbol stands for. -/
def term? (n : Naming) (s : Symbol) : Option Term := (n.entries.find? (·.2 == s)).map (·.1)

theorem term?_of_mem {n : Naming} (hn : n.WellFormed) {e : Term × Symbol} (he : e ∈ n.entries) :
    n.term? e.2 = some e.1 := by
  cases hf : n.entries.find? (·.2 == e.2) with
  | none => exact absurd (List.find?_eq_none.1 hf e he) (by simp)
  | some e' =>
    have hs : e'.2 = e.2 := by simpa using List.find?_some hf
    have ht := (name_eq_iff hn (List.mem_of_find?_eq_some hf) he).1 (congrArg Symbol.name hs)
    rw [term?, hf, Option.map_some, ht]

end Naming

def onSymbols (n : Naming) (v : Term → RdfTerm) (s : Symbol) : RdfTerm :=
  (n.term? s).elim (.blank "") v

def onTerms (n : Naming) (v : Symbol → RdfTerm) (t : Term) : RdfTerm :=
  t.ground?.getD (v (n.symbol t))

theorem onSymbols_symbol {n : Naming} (hn : n.WellFormed) {t : Term} (h : (n.symbol? t).isSome)
    (v : Term → RdfTerm) : onSymbols n v (n.symbol t) = v t := by
  rw [onSymbols, term?_of_mem hn (mem_entries_symbol h), Option.elim_some]

theorem onTerms_eq {n : Naming} {t : Term} (h : (n.symbol? t).isSome) {v : Symbol → RdfTerm}
    (hv : n.Respects v) : onTerms n v t = v (n.symbol t) := by
  unfold onTerms
  cases hg : t.ground? with
  | none => rfl
  | some r => exact (hv _ (mem_entries_symbol h) r hg).symm

/-- The answers do not depend on whether terms or their symbols are given values. -/
theorem answers_eq_termAnswers {n : Naming} (hn : n.WellFormed) {met : List Term}
    {q : ConjunctiveQuery Term} (hq : q.Over met) (hmet : ∀ t ∈ met, (n.symbol? t).isSome)
    {r : ConjunctiveQuery Symbol} (hatoms : r.atoms = q.atoms.map (·.map n.symbol))
    (hanswer : r.answer = q.answer) (D : Dataset) : r.answers n D = q.termAnswers D := by
  have hvar (x : String) (hx : x ∈ q.answer) : (n.symbol? (.var x)).isSome := by
    obtain ⟨a, ha, hplace⟩ := hq.occurs x (List.mem_append_left _ hx)
    exact hmet _ (hq.met_of_mem a ha _ (Atom.mem_toList.2 (.inl hplace)))
  -- valuations that agree on the terms of the query satisfy the same atoms
  have hsat (v : Symbol → RdfTerm) (w : Term → RdfTerm)
      (h : ∀ t, (n.symbol? t).isSome → v (n.symbol t) = w t) :
      r.SatisfiedBy D.facts v ↔ q.SatisfiedBy D.facts w := by
    have hmap (a : Atom Term) (ha : a ∈ q.atoms) : (a.map n.symbol).map v = a.map w := by
      rw [Atom.map_map]
      exact Atom.map_congr fun t ht => h t (hmet t (hq.met_of_mem a ha t ht))
    simp only [ConjunctiveQuery.SatisfiedBy, hatoms, List.forall_mem_map]
    exact forall₂_congr fun a ha => by rw [hmap a ha]
  ext μ
  constructor
  · rintro ⟨v, hv, hfacts, rfl⟩
    refine ⟨onTerms n v, fun t s ht => by simp [onTerms, ht],
      (hsat v _ fun t ht => (onTerms_eq ht hv).symm).1 hfacts, funext fun x => ?_⟩
    simp only [hanswer]
    rfl
  · rintro ⟨w, hw, hfacts, rfl⟩
    refine ⟨onSymbols n w, fun e he s hs => ?_,
      (hsat _ w fun t ht => onSymbols_symbol hn ht w).2 hfacts, funext fun x => ?_⟩
    · rw [onSymbols, term?_of_mem hn he, Option.elim_some, hw _ s hs]
    · by_cases hx : x ∈ q.answer
      · simp only [hanswer, if_pos hx]
        rw [onSymbols_symbol hn (hvar x hx)]
      · simp only [hanswer, if_neg hx]

/-- What is read from a query has its answers under every table that keeps the symbols. -/
theorem answers_eq_of_namesApart {n n' : Naming} (hn' : n'.WellFormed) {q : Query}
    {r : ConjunctiveQuery Symbol} (hr : (n.readQuery q).1 = .ok r)
    (hkeep : ∀ e ∈ (n.readQuery q).2.entries, e ∈ n'.entries) (hq : q.NamesApart n.scopes)
    (D : Dataset) : r.answers n' D = q.projectedSolutions D := by
  -- the terms that were met have the same symbols in both tables
  obtain ⟨t, ht, rfl, hentry⟩ := eq_map_of_readQuery hn' hr hkeep
  have hover : t.Over (Flattened.ofQuery n.scopes q).terms :=
    Flattened.wellDrawn_ofQuery n.scopes q t ht t t.self_mem_parts
  rw [← Flattened.termAnswers_ofQuery hq ht D]
  refine answers_eq_termAnswers hn' hover (fun u hu => ?_)
    (ConjunctiveQuery.atoms_map n'.symbol t) (ConjunctiveQuery.answer_map n'.symbol t) D
  rw [symbol?_of_mem_entries hn' (hentry u hu)]
  rfl

theorem answers_of_readQuery {n n' : Naming} (hn' : n'.WellFormed) {q : Query}
    {r : ConjunctiveQuery Symbol} (hr : (n.readQuery q).1 = .ok r)
    (hkeep : ∀ e ∈ (n.readQuery q).2.entries, e ∈ n'.entries) (hq : q.pattern.WellNamed)
    (D : Dataset) : r.answers n' D = q.projectedSolutions D :=
  answers_eq_of_namesApart hn' hr hkeep (hq.namesApart n.scopes) D

/-- Only a `SELECT` or `ASK` query is read to its end. -/
theorem form_of_readQuery {n : Naming} {q : Query} {r : ConjunctiveQuery Symbol}
    (h : (n.readQuery q).1 = .ok r) : q.form = .select ∨ q.form = .ask := by
  obtain ⟨form, p, hasDataset⟩ := q
  cases form with
  | select => exact .inl rfl
  | ask => exact .inr rfl
  | construct => simp [readQuery, name, Flattened.ofQuery, Except.map] at h
  | describe => simp [readQuery, name, Flattened.ofQuery, Except.map] at h

/--
Whatever was read before: the values that the relevant variables of a query take where all of its
atoms hold are the solutions of its nested pattern, cut to the final projection. These are the
solutions of the query if it is an `ASK` or has a final projection.
-/
theorem answers_eq_solutions (calls : List Call) {q : Query} {r : ConjunctiveQuery Symbol}
    (hr : ((empty.after calls).readQuery q).1 = .ok r) (hq : q.pattern.WellNamed) (D : Dataset) :
    r.answers ((empty.after calls).readQuery q).2 D = q.projectedSolutions D ∧
    (q.ProjectsIfSelect → r.answers ((empty.after calls).readQuery q).2 D = q.solutions D) := by
  have hsound := sound_after sound_empty calls
  have hread := sound_apply hsound (.query q)
  have hanswers := answers_of_readQuery hread.toWellFormed hr (fun _ => id) hq D
  exact ⟨hanswers, fun h =>
    hanswers.trans (Query.projectedSolutions_eq h (form_of_readQuery hr) D)⟩

/-- A sub-select that hides a variable, joined with a clause that binds it at an endpoint. -/
def nestedQuery : Query :=
  ⟨.select, .project (.join (.project (.bgp [⟨.var "x", .iri "p", .var "y"⟩]) ["x"])
    (.service (.iri "e") (.bgp [⟨.var "x", .iri "p", .var "y"⟩]))) ["x", "y"], false⟩

theorem answers_eq_solutions_nested :
    ∃ r, (empty.readQuery nestedQuery).1 = .ok r ∧
      r.answers (empty.readQuery nestedQuery).2 {⟨.iri "a", .iri "p", .iri "b", none⟩,
        ⟨.iri "a", .iri "p", .iri "c", some "e"⟩} = nestedQuery.solutions
          {⟨.iri "a", .iri "p", .iri "b", none⟩, ⟨.iri "a", .iri "p", .iri "c", some "e"⟩} := by
  obtain ⟨r, hr⟩ : ∃ r, (empty.readQuery nestedQuery).1 = .ok r := ⟨_, rfl⟩
  have hplain : nestedQuery.pattern.PlainNames := by
    unfold Pattern.PlainNames
    decide
  have hapart : nestedQuery.pattern.BlanksApart := by
    unfold Pattern.BlanksApart
    decide
  exact ⟨r, hr, (answers_eq_solutions [] hr ⟨hplain, hapart⟩ _).2 fun _ => rfl⟩

/-- A `SELECT` query of one triple, without a final projection. -/
def unprojected (x : String) : Query :=
  ⟨.select, .bgp [⟨.var x, .iri "http://e/p", .iri "http://e/o"⟩], false⟩

theorem solutions_unprojected (x : String) (D : Dataset) : (unprojected x).solutions D =
    {μ | ∃ r, ⟨r, .iri "http://e/p", .iri "http://e/o", none⟩ ∈ D ∧
      μ = fun y => if y = x then some r else none} := by
  ext μ
  constructor
  · rintro ⟨hdom, σ, hmatch⟩
    obtain ⟨s, p, o, hs, hp, ho, hmem⟩ := hmatch _ List.mem_cons_self
    obtain rfl := Option.some.inj hp
    obtain rfl := Option.some.inj ho
    refine ⟨s, hmem, funext fun y => ?_⟩
    by_cases hy : y = x
    · rw [if_pos hy, hy]
      exact hs
    · rw [if_neg hy]
      refine Option.not_isSome_iff_eq_none.1 fun h => hy ?_
      simpa [TriplePattern.vars, PatternTerm.vars, IriOrVar.vars] using (hdom y).1 h
  · rintro ⟨r, hmem, rfl⟩
    refine ⟨fun y => ?_, fun _ => r, fun t ht => ?_⟩
    · by_cases hy : y = x <;>
        simp [TriplePattern.vars, PatternTerm.vars, IriOrVar.vars, hy]
    · obtain rfl := List.mem_singleton.1 ht
      exact ⟨r, _, _, if_pos rfl, rfl, rfl, hmem⟩

/-- The relevant variables are none, so that only one answer is possible. -/
theorem projectedSolutions_unprojected (x : String) (D : Dataset) :
    (unprojected x).projectedSolutions D =
      {μ | (∃ r, ⟨r, .iri "http://e/p", .iri "http://e/o", none⟩ ∈ D) ∧ μ = .empty} := by
  have hsolutions : (unprojected x).pattern.solutions D none = (unprojected x).solutions D := rfl
  have hlisted : (unprojected x).listed = [] := rfl
  ext μ
  simp only [Query.projectedSolutions, hsolutions, hlisted, Mapping.restrict_nil,
    solutions_unprojected]
  constructor
  · rintro ⟨_, ⟨r, hr, -⟩, rfl⟩
    exact ⟨⟨r, hr⟩, rfl⟩
  · rintro ⟨⟨r, hr⟩, rfl⟩
    exact ⟨_, ⟨r, hr, rfl⟩, rfl⟩

theorem wellNamed_unprojected {x : String} (h : '#' ∉ x.toList) :
    (unprojected x).pattern.WellNamed := by
  refine ⟨fun triples ht y hy => ?_, List.pairwise_singleton _ _⟩
  obtain rfl := List.mem_singleton.1 ht
  obtain rfl : y = x := by
    simpa [TriplePattern.vars, PatternTerm.vars, IriOrVar.vars] using hy
  exact h

/-- Without a final projection the answers are not the solutions. -/
theorem answers_ne_solutions_unprojected :
    ∃ r, (empty.readQuery (unprojected "x")).1 = .ok r ∧
      (unprojected "x").pattern.WellNamed ∧
      r.answers (empty.readQuery (unprojected "x")).2
        {⟨.iri "a", .iri "http://e/p", .iri "http://e/o", none⟩} ≠
      (unprojected "x").solutions {⟨.iri "a", .iri "http://e/p", .iri "http://e/o", none⟩} := by
  obtain ⟨r, hr⟩ : ∃ r, (empty.readQuery (unprojected "x")).1 = .ok r := ⟨_, rfl⟩
  have hsound : (empty.readQuery (unprojected "x")).2.Sound :=
    sound_apply sound_empty (.query (unprojected "x"))
  have hnamed : (unprojected "x").pattern.WellNamed := wellNamed_unprojected (by decide)
  refine ⟨r, hr, hnamed, fun h => ?_⟩
  rw [answers_of_readQuery hsound.toWellFormed hr (fun _ => id) hnamed,
    projectedSolutions_unprojected, solutions_unprojected] at h
  have hmem := h.ge ⟨.iri "a", rfl, rfl⟩
  have hvalue := congrFun hmem.2 "x"
  simp [Mapping.empty] at hvalue

end QueryContainment
