import Mathlib.Data.List.Induction
import QueryContainment.Proofs.Conjunctive.Endpoints

namespace QueryContainment

open Naming

namespace Atom

variable {α β : Type}

def inGraph (a : Atom α) (g : α) : Atom α := { a with graph := some g }

@[simp]
theorem graph_inGraph (a : Atom α) (g : α) : (a.inGraph g).graph = some g := rfl

theorem inGraph_map (f : α → β) (a : Atom α) (g : α) :
    (a.inGraph g).map f = (a.map f).inGraph (f g) := rfl

theorem inGraph_inj {a b : Atom α} (ha : a.graph = none) (hb : b.graph = none) {g g' : α} :
    a.inGraph g = b.inGraph g' ↔ a = b ∧ g = g' := by
  cases a
  cases b
  simp_all [inGraph, and_assoc]

end Atom

namespace Pattern

def isProject : Pattern → Bool
  | project .. => true
  | _ => false

/-- There are no sub-selects. -/
def ProjectFree (p : Pattern) : Prop := ∀ node ∈ p.nodes, node.isProject = false

/-- The endpoints of the clauses, in the order in which the clauses come. -/
def endpointUrls (p : Pattern) : List String :=
  p.nodes.filterMap fun
    | service (.iri url) _ => some url
    | _ => none

end Pattern

/-- A query without sub-selects, and without clauses that are nested in each other. -/
structure Query.Flat (q : Query) : Prop where
  projectFree : q.inner.ProjectFree
  serviceDepth : q.pattern.serviceDepth ≤ 1

namespace Pattern

variable {p : Pattern} {c : Context} {j k : Nat}

theorem ProjectFree.of_join {left right : Pattern} (h : (join left right).ProjectFree) :
    left.ProjectFree ∧ right.ProjectFree :=
  ⟨fun node hn => h node (by simp [nodes, hn]), fun node hn => h node (by simp [nodes, hn])⟩

theorem ProjectFree.of_cons {inner : Pattern} (h : p.ProjectFree)
    (hp : p.nodes = p :: inner.nodes) : inner.ProjectFree :=
  fun node hn => h node (hp ▸ List.mem_cons_of_mem p hn)

theorem ProjectFree.join {left right : Pattern} (hl : left.ProjectFree) (hr : right.ProjectFree) :
    (join left right).ProjectFree := by
  intro node hn
  simp only [nodes, List.mem_cons, List.mem_append] at hn
  rcases hn with rfl | hn | hn
  · rfl
  · exact hl node hn
  · exact hr node hn

theorem not_projectFree_project {inner : Pattern} {names : List String} :
    ¬(project inner names).ProjectFree := fun h =>
  absurd (h (project inner names) List.mem_cons_self) (by simp [isProject])

theorem ProjectFree.steps_eq (h : p.ProjectFree) (c : Context) (j k : Nat) :
    p.steps c j = p.steps c k := by
  induction p generalizing c j k with
  | join left right ihl ihr =>
    simp only [steps]
    rw [ihl h.of_join.1 c j k, ihr h.of_join.2 c _ (k + Step.scopes (left.steps c k))]
  | distinct inner ih => exact ih (h.of_cons rfl) c j k
  | reduced inner ih => exact ih (h.of_cons rfl) c j k
  | orderBy inner ih => exact ih (h.of_cons rfl) c j k
  | project inner names => exact absurd h not_projectFree_project
  | service name inner ih =>
    cases name with
    | var name => rfl
    | iri url =>
      exact congrArg _ (ih (h.of_cons rfl) _ j k)
  | _ => rfl

theorem ProjectFree.scopes_steps (h : p.ProjectFree) (c : Context) (k : Nat) :
    Step.scopes (p.steps c k) = 0 := by
  induction p generalizing c k with
  | bgp triples =>
    refine List.countP_eq_zero.2 fun s hs => ?_
    obtain ⟨t, -, rfl⟩ := List.mem_map.1 hs
    unfold Step.ofTriple
    split <;> simp [Step.isNewScope]
  | join left right ihl ihr =>
    rw [scopes_steps_join, ihl h.of_join.1, ihr h.of_join.2]
  | distinct inner ih => exact ih (h.of_cons rfl) c k
  | reduced inner ih => exact ih (h.of_cons rfl) c k
  | orderBy inner ih => exact ih (h.of_cons rfl) c k
  | project inner names => exact absurd h not_projectFree_project
  | service name inner ih =>
    cases name with
    | var name => rfl
    | iri url =>
      rw [scopes_steps_service]
      exact ih (h.of_cons rfl) _ k
  | _ => rfl

/-- Nothing is projected away, and modifiers add no step. -/
theorem ProjectFree.splitProjection (h : p.ProjectFree) : p.splitProjection.1 = none ∧
    p.splitProjection.2.ProjectFree ∧
      ∀ c k, p.splitProjection.2.steps c k = p.steps c k := by
  fun_induction Pattern.splitProjection p with
  | case1 inner ih => exact ih (h.of_cons rfl)
  | case2 inner ih => exact ih (h.of_cons rfl)
  | case3 inner ih => exact ih (h.of_cons rfl)
  | case4 inner names => exact absurd h not_projectFree_project
  | case5 p => exact ⟨rfl, h, fun _ _ => rfl⟩

/-- The atoms of a pattern that stands alone. -/
def atoms (p : Pattern) : List (Atom Term) := (p.steps .root 0).filterMap Step.atom?

theorem clauses_of_serviceDepth (h : p.serviceDepth = 0) : p.clauses = [] :=
  List.eq_nil_iff_forall_not_mem.2 fun _ hc =>
    absurd (serviceDepth_of_mem_steps (mem_clauses.1 hc)) (by omega)

theorem ProjectFree.atoms_join {left right : Pattern} (hr : right.ProjectFree) :
    (Pattern.join left right).atoms = left.atoms ++ right.atoms := by
  simp only [atoms, steps, List.filterMap_append]
  rw [hr.steps_eq .root _ 0]

theorem graph_of_mem_steps (h : p.serviceDepth = 0) {a : Atom Term} {visible : List String}
    (ha : .atom a visible ∈ p.steps c k) : a.graph = c.graph.map .iri := by
  induction p generalizing c k with
  | bgp triples =>
    obtain ⟨t, -, ht⟩ := List.mem_map.1 ha
    obtain ⟨terms, -, rfl, -⟩ := Step.ofTriple_eq_atom ht
    rfl
  | join left right ihl ihr =>
    obtain ⟨hl, hr⟩ := Nat.max_eq_zero_iff.1 h
    rcases List.mem_append.1 ha with ha | ha
    · exact ihl hl ha
    · exact ihr hr ha
  | distinct inner ih => exact ih h ha
  | reduced inner ih => exact ih h ha
  | orderBy inner ih => exact ih h ha
  | project inner names ih =>
    simp only [steps, List.mem_cons, reduceCtorEq, false_or] at ha
    exact ih (c := { c with subSelects := ⟨k, names⟩ :: c.subSelects }) h ha
  | service name inner => simp [serviceDepth] at h
  | _ => simp [steps] at ha

theorem graph_of_mem_atoms (h : p.serviceDepth = 0) {a : Atom Term} (ha : a ∈ p.atoms) :
    a.graph = none := by
  obtain ⟨visible, hmem⟩ := Flattened.mem_atoms ha
  exact graph_of_mem_steps h hmem

theorem ProjectFree.atoms_at (hp : p.ProjectFree) (h : p.serviceDepth = 0) (c : Context)
    (url : String) (k : Nat) : (p.steps { c with graph := some url } k).filterMap Step.atom? =
      ((p.steps c 0).filterMap Step.atom?).map (·.inGraph (.iri url)) := by
  induction p generalizing c k with
  | bgp triples =>
    have htriple (t : TriplePattern) : (Step.ofTriple { c with graph := some url } t).atom? =
        (Step.ofTriple c t).atom?.map (·.inGraph (.iri url)) := by
      unfold Step.ofTriple
      cases t.terms <;> rfl
    simp only [steps, List.filterMap_map, List.map_filterMap, Function.comp_def, htriple]
  | join left right ihl ihr =>
    obtain ⟨hl, hr⟩ := Nat.max_eq_zero_iff.1 h
    simp only [steps, List.filterMap_append, List.map_append]
    rw [ihl hp.of_join.1 hl c k, ihr hp.of_join.2 hr c _, hp.of_join.2.steps_eq c (0 + _) 0]
  | distinct inner ih => exact ih (hp.of_cons rfl) h c k
  | reduced inner ih => exact ih (hp.of_cons rfl) h c k
  | orderBy inner ih => exact ih (hp.of_cons rfl) h c k
  | project inner names => exact absurd hp not_projectFree_project
  | service name inner => simp [serviceDepth] at h
  | _ => rfl

theorem ProjectFree.mem_atoms_iff (hp : p.ProjectFree) (h : p.serviceDepth ≤ 1) {url : String}
    {a : Atom Term} : a.graph = none ∧ a.inGraph (.iri url) ∈ p.atoms ↔
      ∃ b, (url, b) ∈ p.clauses ∧ a ∈ b.atoms := by
  induction p with
  | join left right ihl ihr =>
    obtain ⟨hl, hr⟩ := Nat.max_le.1 h
    rw [hp.of_join.2.atoms_join, clauses_join, List.mem_append, and_or_left,
      ihl hp.of_join.1 hl, ihr hp.of_join.2 hr]
    simp only [List.mem_append, or_and_right, exists_or]
  | distinct inner ih => exact ih (hp.of_cons rfl) h
  | reduced inner ih => exact ih (hp.of_cons rfl) h
  | orderBy inner ih => exact ih (hp.of_cons rfl) h
  | project inner names => exact absurd hp not_projectFree_project
  | service name inner =>
    cases name with
    | var name => simp [atoms, clauses, steps, Step.atom?, Step.clause?]
    | iri url' =>
      have hinner : inner.serviceDepth = 0 := by
        simpa [serviceDepth] using h
      have hatoms : (service (.iri url') inner).atoms =
          inner.atoms.map (·.inGraph (.iri url')) :=
        ProjectFree.atoms_at (hp.of_cons rfl) hinner .root url' 0
      have hclauses : (service (.iri url') inner).clauses = [(url', inner)] := by
        have hnone : (inner.steps { Context.root with graph := some url' } 0).filterMap
            Step.clause? = [] := by
          refine List.eq_nil_iff_forall_not_mem.2 fun e he => ?_
          obtain ⟨s, hs, hclause⟩ := List.mem_filterMap.1 he
          cases s with
          | endpoint url b => exact absurd (serviceDepth_of_mem_steps hs) (by omega)
          | _ => simp [Step.clause?] at hclause
        simp only [clauses, steps, List.filterMap_cons, Step.clause?, hnone]
      rw [hatoms, hclauses, List.mem_map]
      constructor
      · rintro ⟨hgraph, b, hb, heq⟩
        have hnone := graph_of_mem_atoms hinner hb
        obtain ⟨rfl, hurl⟩ := (Atom.inGraph_inj hnone hgraph).1 heq
        obtain rfl : url' = url := Term.iri.inj hurl
        exact ⟨inner, List.mem_cons_self, hb⟩
      · rintro ⟨b, hb, ha⟩
        obtain ⟨rfl, rfl⟩ : url = url' ∧ b = inner := by simpa using hb
        have hnone := graph_of_mem_atoms hinner ha
        exact ⟨hnone, a, ha, rfl⟩
  | bgp triples =>
    have hd : (bgp triples).serviceDepth = 0 := rfl
    rw [clauses_of_serviceDepth hd]
    constructor
    · rintro ⟨-, ha⟩
      have hnone := graph_of_mem_atoms hd ha
      simp at hnone
    · rintro ⟨b, hb, -⟩
      simp at hb
  | _ => simp [atoms, clauses, steps, Step.atom?, Step.clause?]

/-- What is joined for an endpoint has the atoms of the pattern with the graph of the endpoint. -/
theorem ProjectFree.of_mem_endpoints (hp : p.ProjectFree) (h : p.serviceDepth ≤ 1)
    {e : String × Pattern} (he : e ∈ Flattened.endpoints (p.steps .root k)) :
    e.2.ProjectFree ∧ e.2.serviceDepth = 0 ∧
      ∀ a, a ∈ e.2.atoms ↔ a.graph = none ∧ a.inGraph (.iri e.1) ∈ p.atoms := by
  have hdepth := Flattened.serviceDepth_of_mem_endpoints he
  rw [hp.steps_eq .root k 0] at he
  have hclauses : ∀ c ∈ p.clauses, c.2.ProjectFree := fun c hc node hn =>
    hp node (nodes_of_mem_steps (mem_clauses.1 hc) node hn)
  have hjoined (Q : Pattern → Prop) (hQ : ∀ left right, left.ProjectFree → right.ProjectFree →
      (Q (.join left right) ↔ Q left ∨ Q right)) :=
    Flattened.foldl_addClause_iff (fun _ _ => ProjectFree.join) hQ hclauses he
  refine ⟨(hjoined (fun _ => False) (by simp)).1, by omega, fun a => ?_⟩
  have hatom := (hjoined (a ∈ ·.atoms) fun left right _ hr => by
    rw [hr.atoms_join, List.mem_append]).2
  refine hatom.trans (Iff.trans ?_ (hp.mem_atoms_iff h).symm)
  constructor
  · rintro ⟨⟨url, b⟩, hb, rfl, ha⟩
    exact ⟨b, hb, ha⟩
  · rintro ⟨b, hb, ha⟩
    exact ⟨_, hb, rfl, ha⟩

theorem map_fst_clause? (ha : Step.Accepted (p.steps c k)) :
    ((p.steps c k).filterMap Step.clause?).map Prod.fst = p.endpointUrls := by
  induction p generalizing c k with
  | bgp triples =>
    have hnone : ((bgp triples).steps c k).filterMap Step.clause? = [] := by
      refine List.filterMap_eq_nil_iff.2 fun s hs => ?_
      obtain ⟨t, -, rfl⟩ := List.mem_map.1 hs
      unfold Step.ofTriple
      split <;> rfl
    rw [hnone]
    rfl
  | join left right ihl ihr =>
    simp only [steps, List.filterMap_append, List.map_append]
    rw [ihl fun s hs => ha s (List.mem_append_left _ hs),
      ihr fun s hs => ha s (List.mem_append_right _ hs)]
    simp [endpointUrls, nodes]
  | distinct inner ih => exact ih ha
  | reduced inner ih => exact ih ha
  | orderBy inner ih => exact ih ha
  | project inner names ih => exact ih fun s hs => ha s (List.mem_cons_of_mem _ hs)
  | service name inner ih =>
    cases name with
    | var name => exact absurd (ha _ List.mem_cons_self) (by simp [Step.rejection?])
    | iri url =>
      exact congrArg (url :: ·) (ih (c := { c with graph := some url }) fun s hs =>
        ha s (List.mem_cons_of_mem _ hs))
  | _ => exact absurd (ha _ List.mem_cons_self) (by simp [Step.rejection?])

theorem endpointUrls_splitProjection (p : Pattern) :
    p.splitProjection.2.endpointUrls = p.endpointUrls := by
  fun_induction Pattern.splitProjection p with
  | case1 inner ih => exact ih
  | case2 inner ih => exact ih
  | case3 inner ih => exact ih
  | case4 inner names => rfl
  | case5 p => rfl

end Pattern

/-- Where no scopes are opened, no names can collide with those of hidden variables. -/
theorem Query.Flat.namesApart {q : Query} (h : q.Flat) (hb : q.pattern.BlanksApart) (k : Nat) :
    q.NamesApart k := by
  refine ⟨?_, hb.inner⟩
  rw [h.projectFree.scopes_steps]
  exact q.inner.avoidsScopes_self k

namespace ConjunctiveQuery

variable {α β : Type}

/-- The query that an endpoint is sent: the atoms of the query in its graph, and nothing else. -/
structure SentTo (part q : ConjunctiveQuery α) (endpoint : α) : Prop where
  answer : part.answer = []
  services : part.services = []
  atoms : ∀ a, a ∈ part.atoms ↔ a.graph = none ∧ a.inGraph endpoint ∈ q.atoms

theorem SentTo.map {part q : ConjunctiveQuery α} {endpoint : α} (h : part.SentTo q endpoint)
    {f : α → β} (hf : ∀ a ∈ q.atoms, ∀ g, a.graph = some g → f g = f endpoint → g = endpoint) :
    (part.map f).SentTo (q.map f) (f endpoint) := by
  refine ⟨(answer_map f part).trans h.answer, ?_, fun a => ?_⟩
  · rw [services_map, h.services, List.map_nil]
  · rw [atoms_map, atoms_map, List.mem_map, List.mem_map]
    constructor
    · rintro ⟨b, hb, rfl⟩
      obtain ⟨hgraph, hmem⟩ := (h.atoms b).1 hb
      exact ⟨by rw [Atom.map, hgraph, Option.map_none], _, hmem, b.inGraph_map f endpoint⟩
    · rintro ⟨hgraph, b, hb, heq⟩
      -- the graph of the atom is that of the endpoint before symbols are put in place
      obtain ⟨g, hg, hfg⟩ : ∃ g, b.graph = some g ∧ f g = f endpoint := by
        simpa [Atom.map, Option.map_eq_some_iff] using congrArg Atom.graph heq
      obtain rfl := hf b hb g hg hfg
      refine ⟨{ b with graph := none }, (h.atoms _).2 ⟨rfl, ?_⟩, ?_⟩
      · rwa [Atom.inGraph, ← hg]
      · cases a
        cases b
        simp_all [Atom.map, Atom.inGraph]

end ConjunctiveQuery

namespace Flattened

/-- What is read from a query is read from what its final projection is a projection of. -/
theorem exists_body_of_ofQuery {k : Nat} {q : Query} {r : ConjunctiveQuery Term}
    (h : (ofQuery k q).result = .ok r) :
    ∃ projection, projection.getD [] = q.listed ∧
      ofQuery k q = body ofPattern k projection q.inner := by
  obtain ⟨form, p, hasDataset⟩ := q
  cases form with
  | select =>
    cases hasDataset with
    | true => simp [ofQuery] at h
    | false => exact ⟨p.splitProjection.1, rfl, ofPattern_eq k p⟩
  | ask =>
    cases hasDataset with
    | true => simp [ofQuery] at h
    | false => exact ⟨none, rfl, ofAsk_eq k p⟩
  | construct => simp [ofQuery] at h
  | describe => simp [ofQuery] at h

theorem sentTo_of_ofPattern {j : Nat} {p : Pattern} (hp : p.ProjectFree)
    (hd : p.serviceDepth = 0) {part r : ConjunctiveQuery Term} {endpoint : Term}
    (h : (ofPattern j p).result = .ok part)
    (hatoms : ∀ a, a ∈ p.atoms ↔ a.graph = none ∧ a.inGraph endpoint ∈ r.atoms) :
    part.SentTo r endpoint := by
  obtain ⟨hnone, -, hsteps⟩ := hp.splitProjection
  rw [ofPattern_eq, hnone] at h
  obtain ⟨-, hpart, hanswer⟩ := body_answers h
  refine ⟨List.eq_nil_iff_forall_not_mem.2 fun x hx => ?_, services_of_body h ?_, fun a => ?_⟩
  · have hlisted := ((hanswer x).1 hx).2
    simp at hlisted
  · rw [serviceDepth_splitProjection, hd]
  · rw [hpart, hsteps, hp.steps_eq .root j 0]
    exact hatoms a

end Flattened

namespace Query

theorem endpointUrls_inner (q : Query) : q.inner.endpointUrls = q.pattern.endpointUrls := by
  unfold inner
  split
  · rfl
  · exact Pattern.endpointUrls_splitProjection q.pattern

theorem serviceDepth_inner (q : Query) : q.inner.serviceDepth = q.pattern.serviceDepth := by
  unfold inner
  split
  · rfl
  · exact Flattened.serviceDepth_splitProjection q.pattern

/-- Each endpoint is sent its atoms, once, and no other endpoint is sent anything. -/
theorem Flat.of_ofQuery {k : Nat} {q : Query} {r : ConjunctiveQuery Term} (hq : q.Flat)
    (h : (Flattened.ofQuery k q).result = .ok r) :
    (r.services.map Prod.fst).Nodup ∧
    (∀ url, url ∈ r.services.map Prod.fst ↔ url ∈ q.pattern.endpointUrls) ∧
    ∀ s ∈ r.services, .iri s.1 ∈ (Flattened.ofQuery k q).terms ∧ s.2.SentTo r (.iri s.1) := by
  obtain ⟨projection, -, hbody⟩ := Flattened.exists_body_of_ofQuery h
  rw [hbody] at h ⊢
  obtain ⟨haccepted, hatoms, -⟩ := Flattened.body_answers h
  obtain ⟨hnone, services, hs, rfl⟩ := Flattened.body_result h
  have hkeys : services.map Prod.fst =
      (Flattened.endpoints (q.inner.steps .root k)).map Prod.fst := Flattened.map_fst_services hs
  have hurl (url : String) : url ∈ services.map Prod.fst ↔
      ∃ b, .endpoint url b ∈ q.inner.steps .root k := by
    rw [hkeys, Flattened.map_fst_endpoints, Distinct.mem_ofList, List.mem_map]
    constructor
    · rintro ⟨⟨url', b⟩, hc, rfl⟩
      exact ⟨b, Step.mem_filterMap_clause?.1 hc⟩
    · rintro ⟨b, hb⟩
      exact ⟨_, Step.mem_filterMap_clause?.2 hb, rfl⟩
  refine ⟨hkeys ▸ Flattened.nodup_endpoints _, fun url => ?_, fun s hmem => ?_⟩
  · show url ∈ services.map Prod.fst ↔ _
    rw [hkeys, Flattened.map_fst_endpoints, Distinct.mem_ofList,
      Pattern.map_fst_clause? haccepted, endpointUrls_inner]
  · obtain ⟨e, he, heq, j, hread⟩ := Flattened.exists_of_mem_services hs hmem
    have hdepth : q.inner.serviceDepth ≤ 1 := q.serviceDepth_inner ▸ hq.serviceDepth
    obtain ⟨hp, hd, hiff⟩ := hq.projectFree.of_mem_endpoints hdepth he
    refine ⟨?_, Flattened.sentTo_of_ofPattern hp hd hread fun a => ?_⟩
    · obtain ⟨b, hb⟩ := (hurl s.1).1 (List.mem_map_of_mem hmem)
      rw [Flattened.body_eq _ k projection hnone]
      exact List.mem_append_left _ (List.mem_flatMap.2 ⟨_, hb, List.mem_singleton_self _⟩)
    · rw [hiff, heq, hatoms, hq.projectFree.steps_eq .root k 0]
      rfl

end Query

end QueryContainment
