import QueryContainment.Proofs.Conjunctive.Answers
import QueryContainment.Proofs.Conjunctive.Scopes

namespace QueryContainment

open Naming

/-- The mapping that a valuation gives to the variables of a pattern where it stands. -/
def Context.read (c : Context) (v : Term → RdfTerm) (names : List String) : Mapping :=
  fun x => if x ∈ names then some (v (c.rename (.var x))) else none

def Step.AllFacts (D : Dataset) (v : Term → RdfTerm) (steps : List Step) : Prop :=
  ∀ a visible, .atom a visible ∈ steps → a.map v ∈ D.facts

/-- Nothing among some steps is rejected. -/
def Step.Accepted (steps : List Step) : Prop := ∀ s ∈ steps, s.rejection? = none

variable {D : Dataset} {c : Context} {k : Nat} {v : Term → RdfTerm} {μ : Mapping}
  {σ : String → RdfTerm}

theorem PatternTerm.value?_eq (hv : Faithful v) {p : PatternTerm} {t : Term}
    (h : Term.ofPattern p = .ok t) (hμ : ∀ x ∈ p.vars, μ x = some (v (c.rename (.var x))))
    (hσ : ∀ label ∈ p.blanks, σ label = v (.blank label)) :
    p.value? μ σ = some (v (c.rename t)) := by
  rcases Term.ofPattern_eq_ok h with
    ⟨value, rfl, rfl⟩ | ⟨value, rfl, rfl⟩ | ⟨name, rfl, rfl⟩ | ⟨label, rfl, rfl⟩
  · exact congrArg some (hv (.iri value) _ rfl).symm
  · exact congrArg some (hv (.literal value) _ rfl).symm
  · exact hμ name (by simp [PatternTerm.vars])
  · exact congrArg some (hσ label (by simp [PatternTerm.blanks]))

theorem IriOrVar.value?_eq (hv : Faithful v) {p : IriOrVar}
    (hμ : ∀ x ∈ p.vars, μ x = some (v (c.rename (.var x)))) :
    p.value? μ = some (v (c.rename (Term.ofIriOrVar p))) := by
  cases p with
  | iri value => exact congrArg some (hv (.iri value) _ rfl).symm
  | var name => exact hμ name (by simp [IriOrVar.vars])

theorem Dataset.mem_facts_iff (hv : Faithful v) (s p o : Term) (g : Option String) :
    (⟨s, p, o, g.map .iri⟩ : Atom Term).map v ∈ D.facts ↔ ⟨v s, v p, v o, g⟩ ∈ D := by
  have hg : (g.map Term.iri).map v = g.map RdfTerm.iri := by
    cases g with
    | none => rfl
    | some url => exact congrArg some (hv (.iri url) _ rfl)
  constructor
  · rintro ⟨g', hg', hmem⟩
    have hinj : Function.Injective RdfTerm.iri := fun _ _ => RdfTerm.iri.inj
    have heq : g.map RdfTerm.iri = g'.map RdfTerm.iri := hg.symm.trans hg'
    rwa [Option.map_injective hinj heq]
  · exact fun hmem => ⟨g, hg, hmem⟩

theorem TriplePattern.matches_iff (hv : Faithful v) {t : TriplePattern} {a : Atom Term}
    {visible : List String} (h : Step.ofTriple c t = .atom a visible)
    (hμ : ∀ x ∈ t.vars, μ x = some (v (c.rename (.var x))))
    (hσ : ∀ label ∈ t.blanks, σ label = v (.blank label)) :
    t.Matches D c.graph μ σ ↔ a.map v ∈ D.facts := by
  obtain ⟨terms, hterms, rfl, -⟩ := Step.ofTriple_eq_atom h
  obtain ⟨hs, hp, ho⟩ := terms_eq_ok hterms
  simp only [TriplePattern.vars, TriplePattern.blanks, List.mem_append] at hμ hσ
  have hsubject := PatternTerm.value?_eq (c := c) (μ := μ) (σ := σ) hv hs
    (fun x hx => hμ x (.inl (.inl hx))) fun label hl => hσ label (.inl hl)
  have hpredicate := IriOrVar.value?_eq (c := c) (μ := μ) (p := t.predicate) hv
    fun x hx => hμ x (.inl (.inr hx))
  have hobject := PatternTerm.value?_eq (c := c) (μ := μ) (σ := σ) hv ho
    (fun x hx => hμ x (.inr hx)) fun label hl => hσ label (.inr hl)
  rw [Dataset.mem_facts_iff hv, hp]
  unfold TriplePattern.Matches
  simp only [hsubject, hpredicate, hobject, Option.some.injEq]
  constructor
  · rintro ⟨_, _, _, rfl, rfl, rfl, hmem⟩
    exact hmem
  · exact fun hmem => ⟨_, _, _, rfl, rfl, rfl, hmem⟩

theorem Step.exists_atom_of_accepted {t : TriplePattern}
    (h : (Step.ofTriple c t).rejection? = none) :
    ∃ a visible, Step.ofTriple c t = .atom a visible := by
  unfold Step.ofTriple at h ⊢
  split
  · exact ⟨_, _, rfl⟩
  · next reason ht =>
    simp [ht, Step.rejection?] at h

theorem Context.read_append (left right : List String) :
    c.read v (left ++ right) = (c.read v left).union (c.read v right) := by
  funext x
  by_cases hl : x ∈ left <;> by_cases hr : x ∈ right <;> simp [read, Mapping.union, hl, hr]

theorem Context.compatible_read (left right : List String) :
    (c.read v left).Compatible (c.read v right) := by
  intro x r s hr hs
  unfold read at hr hs
  split at hr
  · split at hs
    · exact Option.some.inj (hr.symm.trans hs)
    · simp at hs
  · simp at hr

theorem Context.restrict_read (names vars : List String) :
    ({ c with subSelects := ⟨k, names⟩ :: c.subSelects }.read v vars).restrict names =
      c.read v (vars.filter (names.contains ·)) := by
  funext x
  by_cases hx : x ∈ names
  · simp only [Mapping.restrict, read, List.mem_filter, List.contains_iff_mem, hx, and_true,
      if_true]
    rw [rename_cons_of_listed (s := ⟨k, names⟩) hx]
  · simp [Mapping.restrict, read, hx]

theorem Pattern.read_mem_solutions (hv : Faithful v) {p : Pattern}
    (ha : Step.Accepted (p.steps c k)) (hs : Step.AllFacts D v (p.steps c k)) :
    c.read v p.bound ∈ p.solutions D c.graph := by
  induction p generalizing c k with
  | bgp triples =>
    have hread : ∀ x ∈ triples.flatMap TriplePattern.vars,
        c.read v (triples.flatMap TriplePattern.vars) x = some (v (c.rename (.var x))) :=
      fun x hx => if_pos hx
    refine ⟨fun x => ?_, fun label => v (.blank label), fun t ht => ?_⟩
    · by_cases hx : x ∈ triples.flatMap TriplePattern.vars <;> simp [Context.read, bound, hx]
    · have hmem : Step.ofTriple c t ∈ (bgp triples).steps c k := List.mem_map_of_mem ht
      obtain ⟨a, visible, hstep⟩ := Step.exists_atom_of_accepted (ha _ hmem)
      refine (TriplePattern.matches_iff hv hstep (fun x hx => ?_) fun _ _ => rfl).2
        (hs a visible (hstep ▸ hmem))
      exact hread x (List.mem_flatMap.2 ⟨t, ht, hx⟩)
  | join left right ihl ihr =>
    refine ⟨_, ihl (fun s h => ha s (List.mem_append_left _ h))
      (fun a w h => hs a w (List.mem_append_left _ h)), _,
      ihr (fun s h => ha s (List.mem_append_right _ h))
      (fun a w h => hs a w (List.mem_append_right _ h)), ?_, ?_⟩
    · exact Context.compatible_read left.bound right.bound
    · exact Context.read_append left.bound right.bound
  | distinct inner ih => exact ih ha hs
  | reduced inner ih => exact ih ha hs
  | orderBy inner ih => exact ih ha hs
  | project inner names ih =>
    exact ⟨_, ih (c := { c with subSelects := ⟨k, names⟩ :: c.subSelects })
      (fun s h => ha s (List.mem_cons_of_mem _ h))
      (fun a w h => hs a w (List.mem_cons_of_mem _ h)),
      (Context.restrict_read names inner.bound).symm⟩
  | service name inner ih =>
    cases name with
    | var name => exact absurd (ha _ List.mem_cons_self) (by simp [Step.rejection?])
    | iri url =>
      exact ih (c := { c with graph := some url }) (fun s h => ha s (List.mem_cons_of_mem _ h))
        (fun a w h => hs a w (List.mem_cons_of_mem _ h))
  | _ => exact absurd (ha _ List.mem_cons_self) (by simp [Step.rejection?])

noncomputable def hide (μ : Mapping) (k : Nat) (v : Term → RdfTerm) (t : Term) : RdfTerm :=
  open Classical in
  if h : ∃ r x, μ x = some r ∧ t = .var (scopedName x (scopeName k)) then h.choose else v t

theorem hide_scoped {x : String} {r : RdfTerm} (h : μ x = some r) :
    hide μ k v (.var (scopedName x (scopeName k))) = r := by
  have hex : ∃ s y, μ y = some s ∧
      Term.var (scopedName x (scopeName k)) = .var (scopedName y (scopeName k)) := ⟨r, x, h, rfl⟩
  rw [hide, dif_pos hex]
  obtain ⟨y, hy, ht⟩ := hex.choose_spec
  obtain rfl := (scopedName_inj (Term.var.inj ht)).1
  exact Option.some.inj (hy.symm.trans h)

theorem hide_of_ne {t : Term} (h : ∀ x, t ≠ .var (scopedName x (scopeName k))) :
    hide μ k v t = v t := by
  rw [hide, dif_neg]
  rintro ⟨r, x, -, ht⟩
  exact h x ht

theorem faithful_hide (hv : Faithful v) : Faithful (hide μ k v) := by
  intro t r ht
  rw [hide_of_ne, hv t r ht]
  rintro x rfl
  simp [Term.ground?] at ht

def fillBlanks (labels : List String) (σ : String → RdfTerm) (v : Term → RdfTerm) :
    Term → RdfTerm
  | .blank label => if label ∈ labels then σ label else v (.blank label)
  | t => v t

theorem fillBlanks_of_not_inner {labels : List String} {lo hi : Nat} {t : Term}
    (h : ¬Inner labels lo hi t) : fillBlanks labels σ v t = v t := by
  cases t with
  | blank label => exact if_neg h
  | _ => rfl

theorem faithful_fillBlanks (hv : Faithful v) (labels : List String) :
    Faithful (fillBlanks labels σ v) := by
  intro t r ht
  cases t with
  | blank label => simp [Term.ground?] at ht
  | _ => exact hv _ r ht

/--
Under `w` all atoms of a pattern are facts, and `w` differs from `v` only in what is private to the
pattern.
-/
structure Fills (D : Dataset) (c : Context) (k : Nat) (p : Pattern) (v w : Term → RdfTerm) :
    Prop where
  faithful : Faithful w
  agrees : ∀ t, ¬Inner p.blanks k (k + Step.scopes (p.steps c k)) t → w t = v t
  facts : Step.AllFacts D w (p.steps c k)

theorem Pattern.BlanksApart.of_join {left right : Pattern} (h : (join left right).BlanksApart) :
    left.BlanksApart ∧ right.BlanksApart ∧ ∀ label ∈ right.blanks, label ∉ left.blanks := by
  rw [BlanksApart, basics_join] at h
  obtain ⟨hl, hr, hlr⟩ := List.pairwise_append.1 h
  refine ⟨hl, hr, fun label hright hleft => ?_⟩
  obtain ⟨b, hb, hlabel⟩ := List.mem_flatMap.1 hleft
  obtain ⟨b', hb', hlabel'⟩ := List.mem_flatMap.1 hright
  exact hlr b hb b' hb' label hlabel hlabel'

theorem Pattern.PlainNames.of_join {left right : Pattern} (h : (join left right).PlainNames) :
    left.PlainNames ∧ right.PlainNames :=
  ⟨fun b hb => h b (by simp [hb]), fun b hb => h b (by simp [hb])⟩

theorem fills_bgp (hv : Faithful v) {triples : List TriplePattern}
    (hc : ∀ s ∈ c.subSelects, s.scope < k)
    (hμ : μ ∈ (Pattern.bgp triples).solutions D c.graph)
    (hvμ : ∀ x r, μ x = some r → v (c.rename (.var x)) = r) :
    ∃ w, Fills D c k (.bgp triples) v w := by
  obtain ⟨hdom, σ, hmatch⟩ := hμ
  have hlabels : (Pattern.bgp triples).blanks = triples.flatMap TriplePattern.blanks := by
    simp [Pattern.blanks]
  refine ⟨fillBlanks (triples.flatMap TriplePattern.blanks) σ v, faithful_fillBlanks hv _,
    fun t ht => fillBlanks_of_not_inner (hlabels ▸ ht), fun a visible hstep => ?_⟩
  obtain ⟨t, ht, hstep⟩ := List.mem_map.1 hstep
  refine (TriplePattern.matches_iff (faithful_fillBlanks hv _) hstep (fun x hx => ?_)
    fun label hl => ?_).1 (hmatch t ht)
  · have hmem : x ∈ triples.flatMap TriplePattern.vars := List.mem_flatMap.2 ⟨t, ht, hx⟩
    obtain ⟨r, hr⟩ := Option.isSome_iff_exists.1 ((hdom x).2 hmem)
    -- a basic pattern opens no scope that its variables would have to avoid
    have hnone : Unhidden k k x := (Pattern.avoidsScopes_self (.bgp triples) k) triples
      (by simp) x hmem
    rw [fillBlanks_of_not_inner (Context.not_inner_rename_var hc _ hnone), hr, hvμ x r hr]
  · exact (if_pos (List.mem_flatMap.2 ⟨t, ht, hl⟩)).symm

/-- What is private to the right part occurs nowhere in the left one. -/
theorem Fills.join {left right : Pattern} {w u : Term → RdfTerm}
    (hn : left.AvoidsScopes (k + Step.scopes (left.steps c k)) (k + Step.scopes (left.steps c k) +
      Step.scopes (right.steps c (k + Step.scopes (left.steps c k)))))
    (hb : (Pattern.join left right).BlanksApart) (hc : ∀ s ∈ c.subSelects, s.scope < k)
    (hl : Fills D c k left v w)
    (hr : Fills D c (k + Step.scopes (left.steps c k)) right w u) :
    Fills D c k (.join left right) v u := by
  refine ⟨hr.faithful, fun t ht => ?_, fun a visible ha => ?_⟩
  · rw [Pattern.scopes_steps_join, Pattern.blanks_join] at ht
    rw [hr.agrees t fun h => ht (h.mono (fun _ => List.mem_append_right _) (by omega) (by omega)),
      hl.agrees t fun h => ht (h.mono (fun _ => List.mem_append_left _) le_rfl (by omega))]
  · rcases List.mem_append.1 ha with ha | ha
    -- the atoms of the left part have no term that the right part has given a value to
    · have hsame : ∀ t ∈ a.toList, u t = w t := fun t ht =>
        hr.agrees t (Pattern.not_inner_of_mem_steps hn hb.of_join.2.2
          (fun s hs => Nat.lt_add_right _ (hc s hs)) le_rfl ha t ht)
      rw [Atom.map_congr hsame]
      exact hl.facts a visible ha
    · exact hr.facts a visible ha

/-- The variables that a sub-select does not list are private to it. -/
theorem Fills.project {inner : Pattern} {names : List String} {w : Term → RdfTerm}
    (h : Fills D { c with subSelects := ⟨k, names⟩ :: c.subSelects } (k + 1) inner
      (hide μ k v) w) : Fills D c k (.project inner names) v w := by
  refine ⟨h.faithful, fun t ht => ?_, fun a visible ha => ?_⟩
  -- what is hidden in scope `k` or private to the inner pattern is private to the sub-select
  · rw [Pattern.scopes_steps_project] at ht
    rw [h.agrees t fun hi => ht (hi.mono (fun _ => id) (by omega) (by omega)), hide_of_ne]
    rintro x rfl
    exact ht ⟨x, k, le_rfl, by omega, rfl⟩
  · refine h.facts a visible ?_
    simpa only [Pattern.steps, List.mem_cons, reduceCtorEq, false_or] using ha

theorem Fills.service {inner : Pattern} {url : String} {w : Term → RdfTerm}
    (h : Fills D { c with graph := some url } k inner v w) :
    Fills D c k (.service (.iri url) inner) v w := by
  refine ⟨h.faithful, fun t ht => h.agrees t ?_, fun a visible ha => h.facts a visible ?_⟩
  · rwa [Pattern.scopes_steps_service] at ht
  · simpa only [Pattern.steps, List.mem_cons, reduceCtorEq, false_or] using ha

theorem rename_hide {names : List String} {ν : Mapping} (hc : ∀ s ∈ c.subSelects, s.scope < k)
    (hv : ∀ x r, ν.restrict names x = some r → v (c.rename (.var x)) = r) {x : String}
    {r : RdfTerm} (hplain : Unhidden k (k + 1) x) (hx : ν x = some r) :
    hide ν k v ({ c with subSelects := ⟨k, names⟩ :: c.subSelects }.rename (.var x)) = r := by
  by_cases hlisted : x ∈ names
  -- a listed variable has its name outside, which no scope from `k` on can hide
  · rw [Context.rename_cons_of_listed (s := ⟨k, names⟩) hlisted, hide_of_ne]
    · exact hv x r (by rwa [Mapping.restrict, if_pos hlisted])
    · intro y hy
      refine Context.not_inner_rename_var hc [] hplain ?_
      rw [hy]
      exact ⟨y, k, le_rfl, by omega, rfl⟩
  · rw [Context.rename_cons_of_not_listed (s := ⟨k, names⟩) hlisted]
    exact hide_scoped hx

theorem Pattern.exists_fills {p : Pattern}
    (hn : p.AvoidsScopes k (k + Step.scopes (p.steps c k))) (hb : p.BlanksApart)
    (hc : ∀ s ∈ c.subSelects, s.scope < k) (ha : Step.Accepted (p.steps c k)) (hv : Faithful v)
    (hμ : μ ∈ p.solutions D c.graph) (hvμ : ∀ x r, μ x = some r → v (c.rename (.var x)) = r) :
    ∃ w, Fills D c k p v w := by
  -- for every valuation to start from: the right part of a join goes on from that of the left part
  induction p generalizing c k v μ with
  | bgp triples => exact fills_bgp hv hc hμ hvμ
  | join left right ihl ihr =>
    obtain ⟨μ₁, h₁, μ₂, h₂, hcompatible, rfl⟩ := hμ
    rw [scopes_steps_join] at hn
    have hleft : left.AvoidsScopes k (k + Step.scopes (left.steps c k)) :=
      hn.of_join.1.mono le_rfl (by omega)
    have hright : right.AvoidsScopes k (k + Step.scopes (left.steps c k)) :=
      hn.of_join.2.mono le_rfl (by omega)
    have hv₁ (x : String) (r : RdfTerm) (hx : μ₁ x = some r) : v (c.rename (.var x)) = r :=
      hvμ x r (by simp [Mapping.union, hx])
    obtain ⟨w, hw⟩ := ihl hleft hb.of_join.1 hc
      (fun s h => ha s (List.mem_append_left _ h)) hv h₁ hv₁
    -- the left part has changed nothing outside, so that `w` has the values of `μ₂`
    have hv₂ (x : String) (r : RdfTerm) (hx : μ₂ x = some r) : w (c.rename (.var x)) = r := by
      have hbound : x ∈ right.bound := (isSome_iff_mem_bound h₂ x).1 (by simp [hx])
      rw [hw.agrees _ (Context.not_inner_rename_var hc _ (hright.of_mem_bound hbound))]
      cases hx₁ : μ₁ x with
      | none => exact hvμ x r (by simp [Mapping.union, hx₁, hx])
      | some s => rw [hv₁ x s hx₁, hcompatible x s r hx₁ hx]
    obtain ⟨u, hu⟩ := ihr (hn.of_join.2.mono (by omega) (by omega)) hb.of_join.2.1
      (fun s hs => Nat.lt_add_right _ (hc s hs)) (fun s h => ha s (List.mem_append_right _ h))
      hw.faithful h₂ hv₂
    exact ⟨u, .join (hn.of_join.1.mono (by omega) (by omega)) hb hc hw hu⟩
  | distinct inner ih =>
    obtain ⟨w, hw⟩ := ih hn hb hc ha hv hμ hvμ
    exact ⟨w, hw.faithful, hw.agrees, hw.facts⟩
  | reduced inner ih =>
    obtain ⟨w, hw⟩ := ih hn hb hc ha hv hμ hvμ
    exact ⟨w, hw.faithful, hw.agrees, hw.facts⟩
  | orderBy inner ih =>
    obtain ⟨w, hw⟩ := ih hn hb hc ha hv hμ hvμ
    exact ⟨w, hw.faithful, hw.agrees, hw.facts⟩
  | project inner names ih =>
    obtain ⟨ν, hν, rfl⟩ := hμ
    rw [scopes_steps_project] at hn
    have hinner : inner.AvoidsScopes k (k + (Step.scopes (inner.steps
        { c with subSelects := ⟨k, names⟩ :: c.subSelects } (k + 1)) + 1)) := hn
    have hplain (x : String) (r : RdfTerm) (hx : ν x = some r) : Unhidden k (k + 1) x :=
      (hinner.of_mem_bound ((isSome_iff_mem_bound hν x).1 (by simp [hx]))).mono le_rfl (by omega)
    -- the hidden variables of the new scope get their values before the inner pattern is filled
    obtain ⟨w, hw⟩ := ih (c := { c with subSelects := ⟨k, names⟩ :: c.subSelects })
      (k := k + 1) (hinner.mono (by omega) (by omega)) hb (List.forall_mem_cons.2
        ⟨Nat.lt_succ_self k, fun s hs => Nat.lt_succ_of_lt (hc s hs)⟩)
      (fun s h => ha s (List.mem_cons_of_mem _ h)) (faithful_hide hv) hν
      fun x r hx => rename_hide hc hvμ (hplain x r hx) hx
    exact ⟨w, .project hw⟩
  | service name inner ih =>
    cases name with
    | var name => exact absurd (ha _ List.mem_cons_self) (by simp [Step.rejection?])
    | iri url =>
      rw [scopes_steps_service] at hn
      obtain ⟨w, hw⟩ := ih (c := { c with graph := some url }) hn hb hc
        (fun s h => ha s (List.mem_cons_of_mem _ h)) hv hμ hvμ
      exact ⟨w, .service hw⟩
  | _ => exact absurd (ha _ List.mem_cons_self) (by simp [Step.rejection?])

end QueryContainment
