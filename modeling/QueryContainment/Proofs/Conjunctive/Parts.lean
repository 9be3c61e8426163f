import QueryContainment.Conjunctive.Depth
import Mathlib.Data.List.TakeWhile

namespace QueryContainment

namespace Atom

variable {α β : Type}

/-- The terms in the three places of the triple. -/
def places (a : Atom α) : List α := [a.subject, a.predicate, a.object]

theorem mem_toList {a : Atom α} {t : α} : t ∈ a.toList ↔ t ∈ a.places ∨ a.graph = some t := by
  simp only [toList, places, List.mem_append, Option.mem_toList]

theorem map_map {δ : Type} (f : α → β) (g : β → δ) (a : Atom α) :
    (a.map f).map g = a.map (g ∘ f) := by
  cases a with
  | mk s p o graph => cases graph <;> rfl

theorem toList_map (f : α → β) (a : Atom α) : (a.map f).toList = a.toList.map f := by
  cases a with
  | mk s p o g => cases g <;> rfl

theorem places_map (f : α → β) (a : Atom α) : (a.map f).places = a.places.map f := rfl

/-- A function that differs only where an atom has no term changes nothing for the atom. -/
theorem map_congr {f g : α → β} {a : Atom α} (h : ∀ t ∈ a.toList, f t = g t) :
    a.map f = a.map g := by
  cases a with
  | mk s p o graph =>
    cases graph <;> simp_all [map, toList]

/-- Where two atoms have the same values, a term of the one goes to the term of the other. -/
theorem map_eq_of_map_eq {δ : Type} {f : α → δ} {g : β → δ} {h : α → β} {a : Atom α} {b : Atom β}
    (hab : a.map f = b.map g) (hh : ∀ s ∈ a.toList, ∀ t ∈ b.toList, f s = g t → h s = t) :
    a.map h = b := by
  obtain ⟨s, p, o, graph⟩ := a
  obtain ⟨s', p', o', graph'⟩ := b
  simp only [map, mk.injEq] at hab
  obtain ⟨hs, hp, ho, hg⟩ := hab
  have hgraph : graph.map h = graph' := by
    cases graph with
    | none =>
      rw [Option.map_none, eq_comm, Option.map_eq_none_iff] at hg
      exact hg.symm
    | some u =>
      obtain ⟨u', rfl, hu⟩ := Option.map_eq_some_iff.1 hg.symm
      rw [Option.map_some, hh u (by simp [toList]) u' (by simp [toList]) hu.symm]
  rw [map, hh s (by simp [toList]) s' (by simp [toList]) hs,
    hh p (by simp [toList]) p' (by simp [toList]) hp,
    hh o (by simp [toList]) o' (by simp [toList]) ho, hgraph]

end Atom

namespace ConjunctiveQuery

variable {α β : Type}

mutual

/-- The query itself and the queries of its endpoints, at every depth. -/
def parts : ConjunctiveQuery α → List (ConjunctiveQuery α)
  | ⟨atoms, answer, other, services⟩ => ⟨atoms, answer, other, services⟩ :: partsOf services

def partsOf : List (String × ConjunctiveQuery α) → List (ConjunctiveQuery α)
  | [] => []
  | (_, q) :: rest => q.parts ++ partsOf rest

end

theorem parts_eq (q : ConjunctiveQuery α) : q.parts = q :: partsOf q.services := by
  cases q
  rfl

theorem self_mem_parts (q : ConjunctiveQuery α) : q ∈ q.parts := by simp [parts_eq]

theorem mem_partsOf {q : ConjunctiveQuery α} {services : List (String × ConjunctiveQuery α)} :
    q ∈ partsOf services ↔ ∃ e ∈ services, q ∈ e.2.parts := by
  induction services with
  | nil => simp [partsOf]
  | cons e services ih => simp [partsOf, ih]

mutual

/-- The parts of a part are parts. -/
theorem mem_parts_trans {p q : ConjunctiveQuery α} (hp : p ∈ q.parts) :
    ∀ r : ConjunctiveQuery α, q ∈ r.parts → p ∈ r.parts
  | ⟨atoms, answer, other, services⟩, hq => by
    rcases List.mem_cons.1 hq with rfl | hq
    · exact hp
    · exact List.mem_cons_of_mem _ (mem_partsOf_trans hp services hq)

theorem mem_partsOf_trans {p q : ConjunctiveQuery α} (hp : p ∈ q.parts) :
    ∀ services : List (String × ConjunctiveQuery α), q ∈ partsOf services → p ∈ partsOf services
  | (_, r) :: rest, hq => by
    rcases List.mem_append.1 hq with hq | hq
    · exact List.mem_append_left _ (mem_parts_trans hp r hq)
    · exact List.mem_append_right _ (mem_partsOf_trans hp rest hq)

end

mutual

/-- What holds of a query if it holds of those for its endpoints holds of all queries. -/
theorem services_induction {P : ConjunctiveQuery α → Prop}
    (h : ∀ q, (∀ e ∈ q.services, P e.2) → P q) : ∀ q, P q
  | ⟨_, _, _, services⟩ => h _ (forall_services h services)

theorem forall_services {P : ConjunctiveQuery α → Prop}
    (h : ∀ q, (∀ e ∈ q.services, P e.2) → P q) :
    ∀ l : List (String × ConjunctiveQuery α), ∀ e ∈ l, P e.2
  | (_, q) :: rest, e, he => by
    rcases List.mem_cons.1 he with rfl | he
    · exact services_induction h q
    · exact forall_services h rest e he

end

theorem mem_parts_of_service {q : ConjunctiveQuery α} {e : String × ConjunctiveQuery α}
    (he : e ∈ q.services) {part : ConjunctiveQuery α} (hpart : part ∈ e.2.parts) :
    part ∈ q.parts := by
  rw [parts_eq]
  exact List.mem_cons_of_mem _ (mem_partsOf.2 ⟨e, he, hpart⟩)

theorem atoms_map (f : α → β) (q : ConjunctiveQuery α) :
    (q.map f).atoms = q.atoms.map (·.map f) := by
  cases q
  rfl

theorem answer_map (f : α → β) (q : ConjunctiveQuery α) : (q.map f).answer = q.answer := by
  cases q
  rfl

theorem other_map (f : α → β) (q : ConjunctiveQuery α) : (q.map f).other = q.other := by
  cases q
  rfl

theorem mapServices_eq (f : α → β) (l : List (String × ConjunctiveQuery α)) :
    mapServices f l = l.map fun e => (e.1, e.2.map f) := by
  induction l with
  | nil => rfl
  | cons e l ih => rw [mapServices, ih, List.map_cons]

theorem services_map (f : α → β) (q : ConjunctiveQuery α) :
    (q.map f).services = q.services.map fun e => (e.1, e.2.map f) := by
  cases q
  exact mapServices_eq f _

mutual

theorem parts_map (f : α → β) : ∀ q : ConjunctiveQuery α, (q.map f).parts = q.parts.map (·.map f)
  | ⟨atoms, answer, other, services⟩ => by
    simp only [map, parts, List.map_cons, partsOf_mapServices f services]

theorem partsOf_mapServices (f : α → β) : ∀ services : List (String × ConjunctiveQuery α),
    partsOf (mapServices f services) = (partsOf services).map (·.map f)
  | [] => rfl
  | (url, q) :: rest => by
    simp only [mapServices, partsOf, List.map_append, parts_map f q, partsOf_mapServices f rest]

end

mutual

theorem map_map {δ : Type} (f : α → β) (g : β → δ) :
    ∀ q : ConjunctiveQuery α, (q.map f).map g = q.map (g ∘ f)
  | ⟨atoms, answer, other, services⟩ => by
    simp only [map, List.map_map, Function.comp_def, Atom.map_map, mapServices_map f g services]

theorem mapServices_map {δ : Type} (f : α → β) (g : β → δ) :
    ∀ services : List (String × ConjunctiveQuery α),
      mapServices g (mapServices f services) = mapServices (g ∘ f) services
  | [] => rfl
  | (url, q) :: rest => by
    simp only [mapServices, map_map f g q, mapServices_map f g rest]

end

mutual

/-- Only the terms in the atoms of a query and of those of its endpoints matter. -/
theorem map_congr {f g : α → β} : ∀ {q : ConjunctiveQuery α},
    (∀ part ∈ q.parts, ∀ a ∈ part.atoms, ∀ t ∈ a.toList, f t = g t) → q.map f = q.map g
  | ⟨atoms, answer, other, services⟩, h => by
    have hatoms : atoms.map (·.map f) = atoms.map (·.map g) :=
      List.map_congr_left fun a ha => Atom.map_congr (h _ List.mem_cons_self a ha)
    have hservices := mapServices_congr fun part hpart => h part (List.mem_cons_of_mem _ hpart)
    simp only [map, hatoms, hservices]

theorem mapServices_congr {f g : α → β} : ∀ {services : List (String × ConjunctiveQuery α)},
    (∀ part ∈ partsOf services, ∀ a ∈ part.atoms, ∀ t ∈ a.toList, f t = g t) →
      mapServices f services = mapServices g services
  | [], _ => rfl
  | (url, q) :: rest, h => by
    have hfirst := map_congr fun part hpart => h part (List.mem_append_left _ hpart)
    have hrest := mapServices_congr fun part hpart => h part (List.mem_append_right _ hpart)
    simp only [mapServices, hfirst, hrest]

end

/-- A query whose terms are among those that were met. -/
structure Over (met : List Term) (q : ConjunctiveQuery Term) : Prop where
  met_of_mem : ∀ a ∈ q.atoms, ∀ t ∈ a.toList, t ∈ met
  graph_iri : ∀ a ∈ q.atoms, ∀ t, a.graph = some t → ∃ url, t = .iri url
  occurs : ∀ x ∈ q.answer ++ q.other, ∃ a ∈ q.atoms, .var x ∈ a.places

theorem Over.mono {met met' : List Term} {q : ConjunctiveQuery Term} (h : q.Over met)
    (hm : ∀ t ∈ met, t ∈ met') : q.Over met' :=
  ⟨fun a ha t ht => hm t (h.met_of_mem a ha t ht), h.graph_iri, h.occurs⟩

end ConjunctiveQuery

theorem exists_triple_of_mem_steps {a : Atom Term} {visible : List String} {p : Pattern}
    {c : Context} {k : Nat} (h : .atom a visible ∈ p.steps c k) :
    ∃ c' t, Step.ofTriple c' t = .atom a visible := by
  induction p generalizing c k with
  | bgp triples =>
    obtain ⟨t, -, ht⟩ := List.mem_map.1 h
    exact ⟨c, t, ht⟩
  | join left right ihl ihr =>
    rcases List.mem_append.1 h with h | h
    · exact ihl h
    · exact ihr h
  | distinct inner ih => exact ih h
  | reduced inner ih => exact ih h
  | orderBy inner ih => exact ih h
  | project inner names ih =>
    simp only [Pattern.steps, List.mem_cons, reduceCtorEq, false_or] at h
    exact ih h
  | service name inner ih =>
    cases name with
    | var name => simp [Pattern.steps] at h
    | iri url =>
      simp only [Pattern.steps, List.mem_cons, reduceCtorEq, false_or] at h
      exact ih h
  | _ => simp [Pattern.steps] at h

namespace Step

/-- What the atom of a triple is. -/
theorem ofTriple_eq_atom {c : Context} {t : TriplePattern} {a : Atom Term} {visible : List String}
    (h : ofTriple c t = .atom a visible) : ∃ terms, t.terms = .ok terms ∧
      a = ⟨c.rename terms.subject, c.rename terms.predicate, c.rename terms.object,
        c.graph.map .iri⟩ ∧
      visible = (terms.toList.filterMap Term.varName?).filter fun x => (c.hiddenIn x).isNone := by
  unfold ofTriple at h
  split at h
  · next terms ht =>
    obtain ⟨ha, hv⟩ := Step.atom.inj h
    exact ⟨terms, ht, ha.symm, hv.symm⟩
  · simp at h

theorem rename_of_not_hidden {c : Context} {x : String} (h : (c.hiddenIn x).isNone) :
    c.rename (.var x) = .var x := by
  rw [Option.isNone_iff_eq_none] at h
  simp [Context.rename, h]

theorem var_mem_places {c : Context} {t : TriplePattern} {a : Atom Term} {visible : List String}
    (h : ofTriple c t = .atom a visible) {x : String} (hx : x ∈ visible) :
    .var x ∈ a.places := by
  obtain ⟨terms, -, rfl, rfl⟩ := ofTriple_eq_atom h
  obtain ⟨hmem, hhid⟩ := List.mem_filter.1 hx
  obtain ⟨u, hu, hux⟩ := List.mem_filterMap.1 hmem
  have hvar : u = .var x := by cases u <;> simp_all [Term.varName?]
  subst hvar
  have hren := rename_of_not_hidden hhid
  have hmap : c.rename (.var x) ∈ (terms.map c.rename).toList := by
    simp only [Triple.toList, List.mem_cons, List.not_mem_nil, or_false] at hu
    rcases hu with hu | hu | hu <;> simp [Triple.map, Triple.toList, hu]
  rwa [hren] at hmap

end Step

namespace Flattened

/-- Every part of the outcome draws on the terms that were met. -/
def WellDrawn (f : Flattened (ConjunctiveQuery Term)) : Prop :=
  ∀ q, f.result = .ok q → ∀ part ∈ q.parts, part.Over f.terms

theorem over_services {read : Nat → Pattern → Flattened (ConjunctiveQuery Term)}
    {l : List (String × Pattern)} (h : ∀ e ∈ l, ∀ k, (read k e.2).WellDrawn) (k : Nat)
    {services : List (String × ConjunctiveQuery Term)}
    (hs : (Flattened.services read k l).result = .ok services) :
    ∀ part ∈ ConjunctiveQuery.partsOf services,
      part.Over (Flattened.services read k l).terms := by
  induction l generalizing k services with
  | nil =>
    simp only [Flattened.services, Except.ok.injEq] at hs
    simp [← hs, ConjunctiveQuery.partsOf]
  | cons e l ih =>
    obtain ⟨url, body⟩ := e
    have hfirst := h _ List.mem_cons_self k
    simp only [Flattened.services] at hs ⊢
    cases hr : (read k body).result with
    | error reason => simp [hr] at hs
    | ok q =>
      simp only [hr] at hs ⊢
      cases ho : (Flattened.services read (k + (read k body).scopes) l).result with
      | error reason => simp [ho, Except.map] at hs
      | ok others =>
        simp only [ho, Except.map, Except.ok.injEq] at hs
        intro part hpart
        rw [← hs, ConjunctiveQuery.partsOf, List.mem_append] at hpart
        rcases hpart with hpart | hpart
        · exact (hfirst q hr part hpart).mono fun t => List.mem_append_left _
        · exact (ih (fun e he => h e (List.mem_cons_of_mem _ he)) _ ho part hpart).mono
            fun t => List.mem_append_right _

theorem takeWhile_eq_self {steps : List Step} (h : steps.findSome? Step.rejection? = none) :
    steps.takeWhile (·.rejection?.isNone) = steps :=
  List.takeWhile_eq_self_iff.2 fun s hs => by simp [List.findSome?_eq_none_iff.1 h s hs]

/-- Without a rejection, all steps are read and then the endpoints. -/
theorem body_eq (read : Nat → Pattern → Flattened (ConjunctiveQuery Term)) (k : Nat)
    (projection : Option (List String)) {p : Pattern}
    (h : (p.steps .root k).findSome? Step.rejection? = none) :
    let steps := p.steps .root k
    let remote := services read (k + Step.scopes steps) (endpoints steps)
    body read k projection p = ⟨steps.flatMap Step.terms ++ remote.terms,
      Step.scopes steps + remote.scopes, remote.result.map fun services =>
        .ofUsed (steps.filterMap Step.atom?) (Distinct.ofList (steps.flatMap Step.visible))
          projection services⟩ := by
  simp only [body, takeWhile_eq_self h, h]

/-- What a pattern that is read to its end makes of its steps. -/
theorem body_result {read : Nat → Pattern → Flattened (ConjunctiveQuery Term)} {k : Nat}
    {projection : Option (List String)} {p : Pattern} {q : ConjunctiveQuery Term}
    (h : (body read k projection p).result = .ok q) :
    (p.steps .root k).findSome? Step.rejection? = none ∧ ∃ services,
      (Flattened.services read (k + Step.scopes (p.steps .root k))
        (endpoints (p.steps .root k))).result = .ok services ∧
      q = .ofUsed ((p.steps .root k).filterMap Step.atom?)
        (Distinct.ofList ((p.steps .root k).flatMap Step.visible)) projection services := by
  cases hr : (p.steps .root k).findSome? Step.rejection? with
  | some reason => simp [body, hr] at h
  | none =>
    rw [body_eq read k projection hr] at h
    cases hs : (Flattened.services read (k + Step.scopes (p.steps .root k))
        (endpoints (p.steps .root k))).result with
    | error reason => simp [hs, Except.map] at h
    | ok services =>
      simp only [hs, Except.map, Except.ok.injEq] at h
      exact ⟨rfl, services, rfl, h.symm⟩

theorem mem_atoms {steps : List Step} {a : Atom Term} (h : a ∈ steps.filterMap Step.atom?) :
    ∃ visible, .atom a visible ∈ steps := by
  obtain ⟨s, hs, ha⟩ := List.mem_filterMap.1 h
  cases s with
  | atom b visible => exact ⟨visible, Option.some.inj ha ▸ hs⟩
  | _ => simp [Step.atom?] at ha

theorem wellDrawn_body {read : Nat → Pattern → Flattened (ConjunctiveQuery Term)} {k : Nat}
    {projection : Option (List String)} {p : Pattern}
    (h : ∀ e ∈ endpoints (p.steps .root k), ∀ j, (read j e.2).WellDrawn) :
    (body read k projection p).WellDrawn := by
  intro q hq part hpart
  obtain ⟨hr, services, hs, rfl⟩ := body_result hq
  rw [body_eq read k projection hr]
  rw [ConjunctiveQuery.parts_eq] at hpart
  rcases List.mem_cons.1 hpart with rfl | hpart
  · refine ⟨fun a ha t ht => ?_, fun a ha t ht => ?_, fun x hx => ?_⟩
    · obtain ⟨visible, hmem⟩ := mem_atoms ha
      exact List.mem_append_left _ (List.mem_flatMap.2 ⟨_, hmem, ht⟩)
    · obtain ⟨visible, hmem⟩ := mem_atoms ha
      obtain ⟨c, triple, htriple⟩ := exists_triple_of_mem_steps hmem
      obtain ⟨terms, -, rfl, -⟩ := Step.ofTriple_eq_atom htriple
      obtain ⟨url, -, rfl⟩ := Option.map_eq_some_iff.1 ht
      exact ⟨url, rfl⟩
    -- a variable is used where it is visible in an atom
    · have hused : x ∈ Distinct.ofList ((p.steps .root k).flatMap Step.visible) := by
        rcases List.mem_append.1 hx with hx | hx <;> exact (List.mem_filter.1 hx).1
      obtain ⟨s, hs, hxs⟩ := List.mem_flatMap.1 (Distinct.mem_ofList.1 hused)
      cases s with
      | atom a visible =>
        obtain ⟨c, triple, htriple⟩ := exists_triple_of_mem_steps hs
        exact ⟨a, List.mem_filterMap.2 ⟨_, hs, rfl⟩, Step.var_mem_places htriple hxs⟩
      | _ => simp [Step.visible] at hxs
  · exact (over_services h _ hs part hpart).mono fun t => List.mem_append_right _

theorem wellDrawn_ofPattern (k : Nat) (p : Pattern) : (ofPattern k p).WellDrawn := by
  induction p using endpoint_induction generalizing k with
  | pattern p ih =>
    rw [ofPattern_eq]
    exact wellDrawn_body fun e he j => ih k e he j

theorem wellDrawn_ofQuery (k : Nat) (q : Query) : (ofQuery k q).WellDrawn := by
  unfold ofQuery
  split
  · exact wellDrawn_ofPattern k q.pattern
  · rw [ofAsk_eq]
    exact wellDrawn_body fun e _ j => wellDrawn_ofPattern j e.2
  all_goals
    intro r hr
    simp at hr

theorem services_of_body {read : Nat → Pattern → Flattened (ConjunctiveQuery Term)} {k : Nat}
    {projection : Option (List String)} {p : Pattern} {q : ConjunctiveQuery Term}
    (h : (body read k projection p).result = .ok q) (hd : p.serviceDepth = 0) :
    q.services = [] := by
  obtain ⟨-, services, hs, rfl⟩ := body_result h
  have hnone : endpoints (p.steps .root k) = [] := by
    refine List.eq_nil_iff_forall_not_mem.2 fun e he => ?_
    have hdepth := serviceDepth_of_mem_endpoints he
    omega
  rw [hnone, Flattened.services, Except.ok.injEq] at hs
  exact hs.symm

/-- A query that addresses no endpoint sends no query to one. -/
theorem services_ofQuery {k : Nat} {q : Query} {r : ConjunctiveQuery Term}
    (h : (ofQuery k q).result = .ok r) (hd : q.pattern.serviceDepth = 0) : r.services = [] := by
  unfold ofQuery at h
  split at h
  · rw [ofPattern_eq] at h
    exact services_of_body h (by rwa [serviceDepth_splitProjection])
  · rw [ofAsk_eq] at h
    exact services_of_body h hd
  all_goals simp at h

end Flattened

end QueryContainment
