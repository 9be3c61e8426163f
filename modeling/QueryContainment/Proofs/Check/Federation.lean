import QueryContainment.Proofs.Check.Plan
import QueryContainment.Proofs.Check.Soundness
import QueryContainment.Proofs.Conjunctive.Flat

namespace QueryContainment

open Naming

namespace Check

variable {solver : Solver} {n : Naming} {mode : Multiplicity} {sub sup : ConjunctiveQuery Symbol}

/-- A pair that can be compared and has a mapping. -/
def Visit.HasMapping (n : Naming) : Visit → Prop
  | pair mode sub sup => compatible sub sup mode ∧ ∃ f, sub.Mapped n sup f
  | missing _ => False

theorem Visit.not_hasMapping_missing (url : String) : ¬(Visit.missing url).HasMapping n := id

theorem reply_pair (hsolver : solver.Decides) (hn : n.Sound) (mode : Multiplicity)
    (hsub : sub.NamedBy n) (hsup : sup.NamedBy n) (asked : List String) :
    (reply solver asked (formula (compatible sub sup mode) sub sup n) = .ok .unsat ↔
      (Visit.pair mode sub sup).HasMapping n) ∧
    ∃ answer, reply solver asked (formula (compatible sub sup mode) sub sup n) = .ok answer := by
  have hclosed := closed_script hn hsub hsup
    (sameAnswer_of_compatible : compatible sub sup mode = true → _)
  exact ⟨reply_formula_iff hsolver hn hsub hsup sameAnswer_of_compatible,
    exists_reply hsolver hclosed asked⟩

theorem run_iff_hasMapping (hsolver : solver.Decides) (hn : n.Sound) {l : List Visit}
    (hl : ∀ m s t, .pair m s t ∈ l → s.NamedBy n ∧ t.NamedBy n) (asked : List String) :
    ∃ b, (run solver n l asked).1 = .ok b ∧ (b = true ↔ ∀ visit ∈ l, visit.HasMapping n) := by
  induction l generalizing asked with
  | nil => exact ⟨true, rfl, by simp⟩
  | cons visit l ih =>
    rw [List.forall_mem_cons]
    cases visit with
    | missing url => exact ⟨false, rfl, by simp [Visit.HasMapping]⟩
    | pair m s t =>
      obtain ⟨hs, ht⟩ := hl m s t List.mem_cons_self
      obtain ⟨hiff, answer, hreply⟩ := reply_pair hsolver hn m hs ht asked
      cases answer with
      | unsat =>
        have hrest := ih (fun m s t h => hl m s t (List.mem_cons_of_mem _ h))
          (asked ++ [formula (compatible s t m) s t n])
        rw [run_of_refuted hreply]
        simpa only [hiff.1 hreply, true_and] using hrest
      | sat =>
        have hnot : reply solver asked (formula (compatible s t m) s t n) ≠ .ok .unsat := by
          simp [hreply]
        rw [run_of_not_refuted hnot, hreply]
        exact ⟨false, rfl, by simp [mt hiff.2 hnot]⟩

/-- The verdict is positive exactly if every pair that is visited has a mapping. -/
theorem contained_iff_hasMapping (hsolver : solver.Decides) (hn : n.Sound) (hmode : mode ≠ .bag)
    (hsub : ∀ part ∈ sub.parts, part.NamedBy n) (hsup : ∀ part ∈ sup.parts, part.NamedBy n)
    (asked : List String) : ∃ v,
      (CheckM.outcome (queries solver n mode sub sup) asked).1 = .ok v ∧
        (v.contained ↔ ∀ visit ∈ visits mode sub sup, visit.HasMapping n) := by
  have hjudged := congrArg Prod.fst (judged_queries solver n mode hmode sub sup asked)
  obtain ⟨b, hrun, hb⟩ := run_iff_hasMapping hsolver hn (l := visits mode sub sup)
    (fun m s t h => ⟨hsub s (mem_parts_of_visit h).1, hsup t (mem_parts_of_visit h).2⟩) asked
  rw [hrun] at hjudged
  obtain ⟨v, hv, rfl⟩ := (of_map_eq hjudged).1 b rfl
  exact ⟨v, hv, hb⟩

theorem Reads.contained_iff (hsolver : solver.Decides) {q q' : Query}
    {s t : ConjunctiveQuery Symbol} (h : Reads q q' s t) {m : Multiplicity}
    (hm : effective q mode = .ok m) (asked : List String) : ∃ v,
      (CheckM.outcome (contained solver mode q q') asked).1 = .ok v ∧
        (v.contained ↔ ∀ visit ∈ visits m s t, visit.HasMapping (table q q')) := by
  rw [outcome_contained_of_effective hm h]
  exact contained_iff_hasMapping hsolver (sound_table q q') (ne_bag_of_effective hm)
    h.namedBy_parts.1 h.namedBy_parts.2 asked

theorem Reads.contained_set_iff (hsolver : solver.Decides) {q q' : Query}
    {s t : ConjunctiveQuery Symbol} (h : Reads q q' s t) (asked : List String) : ∃ v,
      (CheckM.outcome (contained solver .set q q') asked).1 = .ok v ∧
        (v.contained ↔ ∀ visit ∈ visits .set s t, visit.HasMapping (table q q')) :=
  h.contained_iff hsolver rfl asked

end Check

namespace Naming

theorem isVar_symbol_iri {n : Naming} (hn : n.Sound) (url : String) :
    (n.symbol (.iri url)).isVar = false := by
  have hkind : (n.symbol (.iri url)).kind = .iri := by
    cases hs : n.symbol? (.iri url) with
    | none => rw [symbol_kind_of_new hs, kindOf]
    | some s =>
      rw [symbol_of_symbol? hs]
      exact hn.kind_eq _ (mem_entries_of_symbol? hs)
  rw [Symbol.isVar, hkind]
  rfl

end Naming

namespace ConjunctiveQuery

variable {n : Naming} {s t : ConjunctiveQuery Symbol}

/-- Each endpoint is sent the atoms that are for it, and no endpoint is sent two queries. -/
structure SendsAtoms (n : Naming) (s : ConjunctiveQuery Symbol) : Prop where
  nodup : (s.services.map Prod.fst).Nodup
  sentTo : ∀ e ∈ s.services, e.2.SentTo s (n.symbol (.iri e.1))

/-- A mapping keeps the graphs of endpoints, so that it maps what an endpoint is sent. -/
theorem SentTo.mapped {part part' : ConjunctiveQuery Symbol} {endpoint : Symbol}
    (hpart : part.SentTo s endpoint) (hpart' : part'.SentTo t endpoint)
    (hendpoint : endpoint.isVar = false) {f : Symbol → Symbol} (hf : s.Mapped n t f) :
    part.Mapped n part' f := by
  refine ⟨hf.ground, fun x hx => ?_, fun a ha => ?_⟩
  · simp [hpart'.answer] at hx
  · obtain ⟨hgraph, hmem⟩ := (hpart'.atoms a).1 ha
    have hmapped := hf.atoms _ hmem
    rw [Atom.inGraph_map, hf.ground endpoint hendpoint] at hmapped
    exact (hpart.atoms _).2 ⟨by rw [Atom.map, hgraph, Option.map_none], hmapped⟩

theorem SentTo.sameAnswer {part part' : ConjunctiveQuery Symbol} {endpoint endpoint' : Symbol}
    (hpart : part.SentTo s endpoint) (hpart' : part'.SentTo t endpoint') :
    part.sameAnswer part' := by
  rw [sameAnswer_iff, hpart.answer, hpart'.answer]
  exact fun _ => Iff.rfl

end ConjunctiveQuery

theorem Query.Flat.of_readQuery {n n' : Naming} (hn' : n'.WellFormed) {q : Query} (hq : q.Flat)
    {s : ConjunctiveQuery Symbol} (hs : (n.readQuery q).1 = .ok s)
    (hkeep : ∀ e ∈ (n.readQuery q).2.entries, e ∈ n'.entries) :
    s.SendsAtoms n' ∧ ∀ url, url ∈ s.services.map Prod.fst ↔ url ∈ q.pattern.endpointUrls := by
  obtain ⟨r, hr, rfl, hentry⟩ := eq_map_of_readQuery hn' hs hkeep
  obtain ⟨hnodup, hurls, hsent⟩ := hq.of_ofQuery hr
  have hover : r.Over (Flattened.ofQuery n.scopes q).terms :=
    Flattened.wellDrawn_ofQuery n.scopes q r hr r r.self_mem_parts
  have hkeys : (r.map n'.symbol).services.map Prod.fst = r.services.map Prod.fst := by
    rw [ConjunctiveQuery.services_map, List.map_map]
    rfl
  refine ⟨⟨hkeys ▸ hnodup, fun named hnamed => ?_⟩, fun url => hkeys ▸ hurls url⟩
  rw [ConjunctiveQuery.services_map] at hnamed
  obtain ⟨e, he, rfl⟩ := List.mem_map.1 hnamed
  obtain ⟨hmet, hpart⟩ := hsent e he
  -- no other IRI has the symbol of the endpoint
  refine hpart.map fun a ha g hg heq => ?_
  have hgraph := hentry g (hover.met_of_mem a ha g (Atom.mem_toList.2 (.inr hg)))
  exact (name_eq_iff hn' hgraph (hentry _ hmet)).1 (congrArg Symbol.name heq)

namespace Check

variable {solver : Solver} {n : Naming} {q q' : Query} {s t : ConjunctiveQuery Symbol}

/--
The check of an endpoint never fails where there is a mapping between the whole queries, so that the
endpoints only have to be found.
-/
theorem forall_hasMapping_iff (hn : n.Sound) (hs : s.SendsAtoms n) (ht : t.SendsAtoms n) :
    (∀ visit ∈ visits .set s t, visit.HasMapping n) ↔
      (∀ url ∈ s.services.map Prod.fst, url ∈ t.services.map Prod.fst) ∧
        (Visit.pair .set s t).HasMapping n := by
  rw [forall_visits_iff Visit.not_hasMapping_missing]
  refine and_congr_left fun ⟨_, f, hf⟩ => ⟨fun h url hurl => ?_, fun h e he => ?_⟩
  · obtain ⟨e, he, rfl⟩ := List.mem_map.1 hurl
    obtain ⟨p, hp, -⟩ := h e he
    exact List.mem_map.2 ⟨_, mem_of_lookupLast hp, rfl⟩
  · obtain ⟨e', he', hurl⟩ := List.mem_map.1 (h e.1 (List.mem_map_of_mem he))
    have hpart := hs.sentTo e he
    have hpart' : e'.2.SentTo t (n.symbol (.iri e.1)) := hurl ▸ ht.sentTo e' he'
    refine ⟨e'.2, hurl ▸ lookupLast_of_mem ht.nodup he', ?_⟩
    rw [forall_visits_iff Visit.not_hasMapping_missing, hpart.services]
    exact ⟨by simp, hpart.sameAnswer hpart', f,
      hpart.mapped hpart' (isVar_symbol_iri hn e.1) hf⟩

end Check

/-- Every endpoint of the one query is an endpoint of the other. -/
def Query.EndpointsWithin (q q' : Query) : Prop :=
  ∀ url ∈ q.pattern.endpointUrls, url ∈ q'.pattern.endpointUrls

namespace Check

/-- Both queries send their atoms, to the endpoints of their clauses. -/
theorem Reads.sendsAtoms (h : Reads q q' s t) (hq : q.Flat) (hq' : q'.Flat) :
    s.SendsAtoms (table q q') ∧ t.SendsAtoms (table q q') ∧
      ((∀ url ∈ s.services.map Prod.fst, url ∈ t.services.map Prod.fst) ↔
        q.EndpointsWithin q') := by
  have hn := (sound_table q q').toWellFormed
  obtain ⟨hs, hurls⟩ := hq.of_readQuery hn h.sub fun e => mem_entries_table q'
  obtain ⟨ht, hurls'⟩ := hq'.of_readQuery hn h.sup fun e he => he
  exact ⟨hs, ht, forall_congr' fun url => imp_congr (hurls url) (hurls' url)⟩

/-- A mapping is what containment of the solutions comes to. -/
theorem Reads.hasMapping_iff (h : Reads q q' s t) (hq : ∀ k, q.NamesApart k)
    (hq' : ∀ k, q'.NamesApart k) : (Visit.pair .set s t).HasMapping (table q q') ↔
      ∀ D, q.projectedSolutions D ⊆ q'.projectedSolutions D := by
  refine (ConjunctiveQuery.answers_subset_iff_mapped (sound_table q q') h.namedBy.1
    h.namedBy.2).symm.trans (forall_congr' fun D => ?_)
  obtain ⟨hs, ht⟩ := h.answers_of_namesApart hq hq' D
  rw [hs, ht]

/--
For any two queries without sub-selects, whose clauses are not nested, and any solver that tells
formulas with a model from those without one, whatever it was asked before: the check of the sets of
solutions ends with a verdict. The verdict is positive exactly if every endpoint of the sub-query is
one of the super-query and, in every dataset, the solutions of the one, cut to its final projection,
are among those of the other. It is right about the solutions as they are for queries of which each
is an `ASK` or has a final projection. And it is what the solver says of the queries as a whole,
once every endpoint is found: the checks of the endpoints reject nothing else.
-/
theorem flat_contained_iff (hsolver : solver.Decides) (hreads : Reads q q' s t) (hq : q.Flat)
    (hq' : q'.Flat) (hb : q.pattern.BlanksApart) (hb' : q'.pattern.BlanksApart)
    (asked : List String) : ∃ v,
      (CheckM.outcome (contained solver .set q q') asked).1 = .ok v ∧
      (v.contained ↔
        q.EndpointsWithin q' ∧ ∀ D, q.projectedSolutions D ⊆ q'.projectedSolutions D) ∧
      (q.ProjectsIfSelect → q'.ProjectsIfSelect →
        (v.contained ↔ q.EndpointsWithin q' ∧ ∀ D, q.solutions D ⊆ q'.solutions D)) ∧
      ∀ asked', v.contained ↔ q.EndpointsWithin q' ∧
        reply solver asked' (formula (s.sameAnswer t) s t (table q q')) = .ok .unsat := by
  have hn := sound_table q q'
  obtain ⟨hs, ht, hurls⟩ := hreads.sendsAtoms hq hq'
  have hmode : Multiplicity.set ≠ .bag := by decide
  obtain ⟨v, hv, hiff⟩ := contained_iff_hasMapping hsolver hn hmode hreads.namedBy_parts.1
    hreads.namedBy_parts.2 asked
  -- what is left of the visits is the pair of the queries as a whole
  rw [forall_hasMapping_iff hn hs ht, hurls] at hiff
  have hprojected : v.contained ↔
      q.EndpointsWithin q' ∧ ∀ D, q.projectedSolutions D ⊆ q'.projectedSolutions D :=
    hiff.trans (and_congr_right fun _ =>
      hreads.hasMapping_iff (hq.namesApart hb) (hq'.namesApart hb'))
  refine ⟨v, by rw [outcome_contained_set hreads, hv], hprojected, fun hp hp' => ?_,
    fun asked' => ?_⟩
  · refine hprojected.trans (and_congr_right fun _ => forall_congr' fun D => ?_)
    obtain ⟨hsolutions, hsolutions'⟩ := hreads.solutions_eq hp hp' D
    rw [hsolutions, hsolutions']
  · refine hiff.trans (and_congr_right fun _ => ?_)
    exact (reply_pair hsolver hn .set hreads.namedBy.1 hreads.namedBy.2 asked').1.symm

/-- The subjects of a property at an endpoint. -/
def remoteSubjects : Query :=
  ⟨.select, .project (.service (.iri "e") (.bgp [⟨.var "x", .iri "p", .var "y"⟩])) ["x"], false⟩

/-- The subjects of a property at an endpoint whose value has the property here. -/
def remotePaths : Query :=
  ⟨.select, .project (.join (.service (.iri "e") (.bgp [⟨.var "x", .iri "p", .var "y"⟩]))
    (.bgp [⟨.var "y", .iri "p", .var "z"⟩])) ["x"], false⟩

theorem remotePaths_contained : remotePaths.EndpointsWithin remoteSubjects ∧
    ∃ v, (CheckM.outcome (contained .oracle .set remotePaths remoteSubjects) []).1 = .ok v ∧
      v.contained := by
  have hflat : remotePaths.Flat := by
    refine ⟨?_, by decide⟩
    unfold Pattern.ProjectFree
    decide
  have hflat' : remoteSubjects.Flat := by
    refine ⟨?_, by decide⟩
    unfold Pattern.ProjectFree
    decide
  have hapart : remotePaths.pattern.BlanksApart := by
    unfold Pattern.BlanksApart
    decide
  have hapart' : remoteSubjects.pattern.BlanksApart := by
    unfold Pattern.BlanksApart
    decide
  have hwithin : remotePaths.EndpointsWithin remoteSubjects := by
    unfold Query.EndpointsWithin
    decide
  obtain ⟨s, hs⟩ : ∃ s, (Naming.empty.readQuery remotePaths).1 = .ok s := ⟨_, rfl⟩
  obtain ⟨t, ht⟩ : ∃ t, ((Naming.empty.readQuery remotePaths).2.readQuery remoteSubjects).1 =
    .ok t := ⟨_, rfl⟩
  obtain ⟨v, hv, -, hiff, -⟩ := flat_contained_iff Solver.decides_oracle ⟨hs, ht⟩ hflat hflat'
    hapart hapart' []
  refine ⟨hwithin, v, hv, (hiff (fun _ => rfl) fun _ => rfl).2 ⟨hwithin, fun D => ?_⟩⟩
  rintro μ ⟨ν, ⟨μ₁, h₁, μ₂, -, -, rfl⟩, rfl⟩
  refine ⟨μ₁, h₁, funext fun x => ?_⟩
  by_cases hx : x ∈ ["x"]
  -- the variable of the projection is bound at the endpoint
  · obtain rfl := List.mem_singleton.1 hx
    have hbound : (μ₁ "x").isSome := (Pattern.isSome_iff_mem_bound h₁ "x").2 (by decide)
    obtain ⟨r, hr⟩ := Option.isSome_iff_exists.1 hbound
    simp [Mapping.restrict, Mapping.union, hr]
  · simp only [Mapping.restrict, if_neg hx]

/--
Without final projections the verdict is positive as well where the solutions bind different
variables.
-/
theorem unprojected_endpoints_within :
    (unprojected "x").Flat ∧ (unprojected "y").Flat ∧ (unprojected "x").pattern.BlanksApart ∧
    (unprojected "y").pattern.BlanksApart ∧ (unprojected "x").EndpointsWithin (unprojected "y") ∧
    (∃ v, (CheckM.outcome (contained .oracle .set (unprojected "x") (unprojected "y")) []).1 =
      .ok v ∧ v.contained) ∧
    ∃ D, ¬(unprojected "x").solutions D ⊆ (unprojected "y").solutions D := by
  have hflat (x : String) : (unprojected x).Flat := by
    refine ⟨fun node hnode => ?_, Nat.zero_le 1⟩
    obtain rfl := List.mem_singleton.1 hnode
    rfl
  have hx : (unprojected "x").pattern.WellNamed := wellNamed_unprojected (by decide)
  have hy : (unprojected "y").pattern.WellNamed := wellNamed_unprojected (by decide)
  refine ⟨hflat "x", hflat "y", hx.apart, hy.apart, fun _ h => h, ?_, ?_⟩
  · have hcorrect := projectedSolutions_correct Solver.decides_oracle [] hx hy
    refine hcorrect.complete _ _ ⟨rfl, rfl⟩ rfl fun D => ?_
    show (unprojected "x").projectedSolutions D ⊆ (unprojected "y").projectedSolutions D
    rw [projectedSolutions_unprojected, projectedSolutions_unprojected]
  · refine ⟨{⟨.iri "a", .iri "http://e/p", .iri "http://e/o", none⟩}, fun h => ?_⟩
    have hmem : (fun y => if y = "x" then some (.iri "a") else none) ∈
        (unprojected "x").solutions {⟨.iri "a", .iri "http://e/p", .iri "http://e/o", none⟩} := by
      rw [solutions_unprojected]
      exact ⟨.iri "a", rfl, rfl⟩
    have hbound := (Pattern.isSome_iff_mem_bound (h hmem) "x").1 rfl
    simp [unprojected, Pattern.bound, TriplePattern.vars, PatternTerm.vars, IriOrVar.vars] at hbound

end Check

end QueryContainment
