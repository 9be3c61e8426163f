import QueryContainment.Proofs.Sorted
import QueryContainment.Proofs.Conjunctive.Flat
import QueryContainment.Proofs.Conjunctive.Fragment
import QueryContainment.Proofs.Conjunctive.QueryAnswers
import QueryContainment.Proofs.Conjunctive.Traversal

namespace QueryContainment

open Naming

namespace Pattern

variable {p inner child : Pattern} {x : String} {i : Nat}

theorem flatMap_visible_cons (h : p.children[i]? = some child) :
    (child.placedTriples.map (Prod.map (i :: ·) id)).flatMap (fun e =>
      e.2.positionVariables.filter fun x => (p.hiddenBy? x e.1).isNone) =
    child.visibleVars.filter fun x => !p.drops x [] := by
  rw [List.flatMap_map, visibleVars, List.filter_flatMap]
  refine List.flatMap_congr fun e _ => ?_
  rw [List.filter_filter]
  refine List.filter_congr fun x _ => ?_
  rw [Prod.map_fst, hiddenBy?_cons h]
  cases child.hiddenBy? x e.1 <;> cases p.drops x [] <;> rfl

theorem visibleVars_bgp (triples : List TriplePattern) :
    (bgp triples).visibleVars = triples.flatMap TriplePattern.positionVariables := by
  rw [visibleVars, placedTriples, List.flatMap_map]
  exact List.flatMap_congr fun t _ => List.filter_eq_self.2 fun _ _ => rfl

theorem visibleVars_join (left right : Pattern) :
    (join left right).visibleVars = left.visibleVars ++ right.visibleVars := by
  have hkept (l : List String) : (l.filter fun x => !(join left right).drops x []) = l :=
    List.filter_eq_self.2 fun _ _ => rfl
  rw [visibleVars, placedTriples, List.flatMap_append, flatMap_visible_cons rfl,
    flatMap_visible_cons rfl, hkept, hkept]

theorem visibleVars_project (inner : Pattern) (names : List String) :
    (project inner names).visibleVars = inner.visibleVars.filter (names.contains ·) := by
  rw [visibleVars, placedTriples, flatMap_visible_cons rfl]
  exact List.filter_congr fun x _ => Bool.not_not _

theorem visibleVars_of_single (hchildren : p.children = [inner])
    (hplaced : p.placedTriples = inner.placedTriples.map (Prod.map (0 :: ·) id))
    (hdrops : ∀ x, p.drops x [] = false) : p.visibleVars = inner.visibleVars := by
  rw [visibleVars, hplaced, flatMap_visible_cons (by rw [hchildren]; rfl)]
  exact List.filter_eq_self.2 fun x _ => by rw [hdrops, Bool.not_false]

theorem mem_visibleVars : x ∈ p.visibleVars ↔
    ∃ e ∈ p.placedTriples, x ∈ e.2.positionVariables ∧ p.hiddenBy? x e.1 = none := by
  simp [visibleVars]

theorem positionVariables_eq_vars {t : TriplePattern} (h : t.quoted? = none) :
    t.positionVariables = t.vars := by
  obtain ⟨subject, predicate, object⟩ := t
  cases subject <;> cases object <;> first | rfl | cases h

theorem Readable.flatMap_positionVariables {triples : List TriplePattern}
    (h : (bgp triples).Readable) :
    triples.flatMap TriplePattern.positionVariables = triples.flatMap TriplePattern.vars := by
  have hexpressible : (bgp triples).Expressible :=
    nodeRejection?_eq_none_iff.1 (h _ List.mem_cons_self)
  exact List.flatMap_congr fun t ht => positionVariables_eq_vars (hexpressible t ht)

/-- The variables that are visible are those that every solution binds. -/
theorem Readable.visibleVars_eq_bound (h : p.Readable) : p.visibleVars = p.bound := by
  induction h using Readable.induction with
  | bgp triples h => rw [visibleVars_bgp, h.flatMap_positionVariables, bound]
  | join left right hl hr ihl ihr => rw [visibleVars_join, ihl, ihr, bound]
  | distinct inner h ih => rw [visibleVars_of_single rfl rfl fun _ => rfl, ih, bound]
  | reduced inner h ih => rw [visibleVars_of_single rfl rfl fun _ => rfl, ih, bound]
  | orderBy inner h ih => rw [visibleVars_of_single rfl rfl fun _ => rfl, ih, bound]
  | project inner names h ih => rw [visibleVars_project, ih, bound]
  | service url inner h ih => rw [visibleVars_of_single rfl rfl fun _ => rfl, ih, bound]

/-- The triples are those of the basic patterns. -/
theorem Readable.map_snd_placedTriples (h : p.Readable) :
    p.placedTriples.map Prod.snd = p.basics.flatten := by
  have hcons (i : Nat) (l : List (Place × TriplePattern)) :
      (l.map (Prod.map (i :: ·) id)).map Prod.snd = l.map Prod.snd := by
    rw [List.map_map]
    rfl
  induction h using Readable.induction with
  | bgp triples h => simp [placedTriples, Function.comp_def]
  | join left right hl hr ihl ihr =>
    rw [placedTriples, List.map_append, hcons, hcons, ihl, ihr, basics_join, List.flatten_append]
  | distinct inner h ih => exact (hcons ..).trans ih
  | reduced inner h ih => exact (hcons ..).trans ih
  | orderBy inner h ih => exact (hcons ..).trans ih
  | project inner names h ih => exact (hcons ..).trans ih
  | service url inner h ih => exact (hcons ..).trans ih

theorem mem_basics {triples : List TriplePattern} : triples ∈ p.basics ↔ bgp triples ∈ p.nodes := by
  rw [basics, List.mem_filterMap]
  constructor
  · rintro ⟨node, hnode, h⟩
    cases node with
    | bgp triples' =>
      obtain rfl := Option.some.inj h
      exact hnode
    | _ => cases h
  · exact fun h => ⟨_, h, rfl⟩

theorem Readable.exists_placed_iff (h : p.Readable) {t : TriplePattern} :
    (∃ e ∈ p.placedTriples, e.2 = t) ↔ ∃ triples ∈ p.basics, t ∈ triples := by
  rw [← List.mem_flatten, ← h.map_snd_placedTriples, List.mem_map]

theorem hiddenBy?_of_no_subSelects (h : p.subSelectPlaces = []) (x : String) (place : Place) :
    p.hiddenBy? x place = none := by
  refine Option.eq_none_iff_forall_ne_some.2 fun q hq => ?_
  have hmem := mem_subSelectPlaces_of_hiddenBy? hq
  simp [h] at hmem

end Pattern

namespace Query

theorem mem_vars {q : Query} {x : String} :
    x ∈ q.vars ↔ ∃ node ∈ q.pattern.nodes, x ∈ node.nodeVariables := by
  have hwalk : q.pattern.walk (fun p seen => (true, seen ++ p.nodeVariables)) [] =
      q.pattern.nodes.flatMap Pattern.nodeVariables := by
    rw [Pattern.walk_everywhere, List.flatMap_eq_foldl]
  rw [vars, hwalk, Sorted.mem_strings, List.mem_flatMap]

theorem mem_vars_of_readable {q : Query} (h : q.pattern.Readable) {x : String} :
    x ∈ q.vars ↔ ∃ triples ∈ q.pattern.basics, ∃ t ∈ triples, x ∈ t.positionVariables := by
  rw [mem_vars]
  constructor
  · rintro ⟨node, hnode, hx⟩
    cases node with
    | bgp triples =>
      exact ⟨triples, Pattern.mem_basics.2 hnode, List.mem_flatMap.1 hx⟩
    | path subject object => exact absurd (h _ hnode) (by simp [Pattern.nodeRejection?])
    | _ => simp [Pattern.nodeVariables] at hx
  · rintro ⟨triples, hbasic, t, ht, hx⟩
    exact ⟨.bgp triples, Pattern.mem_basics.1 hbasic, List.mem_flatMap.2 ⟨t, ht, hx⟩⟩

end Query

namespace Traversal

variable {α β : Type} {t : Traversal} {k : Nat} {r : ConjunctiveQuery Term}

/-- The variables of a query, as a traversal has them that is read as the query. -/
structure Divides (t : Traversal) (q : ConjunctiveQuery α) : Prop where
  mem_vars : ∀ x, x ∈ q.vars ↔
    ∃ e ∈ t.body.placedTriples, x ∈ e.2.positionVariables ∧ t.body.hiddenBy? x e.1 = none
  vars_ascending : q.vars.Pairwise (· < ·)
  mem_answer : ∀ x, x ∈ q.answer ↔ x ∈ q.vars ∧ ∃ names, t.projection = some names ∧ x ∈ names
  mem_other : ∀ x, x ∈ q.other ↔ x ∈ q.vars ∧ x ∉ q.answer
  nodup : (q.answer ++ q.other).Nodup
  /-- They come in the order of the first places where they are visible. -/
  answer_ordered : q.answer.Pairwise fun x y =>
    t.body.visibleVars.idxOf x < t.body.visibleVars.idxOf y
  other_ordered : q.other.Pairwise fun x y =>
    t.body.visibleVars.idxOf x < t.body.visibleVars.idxOf y

theorem divides_ofUsed (t : Traversal) (atoms : List (Atom α))
    (services : List (String × ConjunctiveQuery α)) :
    t.Divides (.ofUsed atoms (Distinct.ofList t.body.visibleVars) t.projection services) := by
  let q := ConjunctiveQuery.ofUsed atoms (Distinct.ofList t.body.visibleVars) t.projection services
  let listed := t.projection.getD []
  have hlisted (x : String) : x ∈ listed ↔ ∃ names, t.projection = some names ∧ x ∈ names := by
    cases h : t.projection <;> simp [listed, h]
  have hanswer (x : String) : x ∈ q.answer ↔ x ∈ t.body.visibleVars ∧ x ∈ listed := by
    simp [q, ConjunctiveQuery.ofUsed, Distinct.mem_ofList, listed]
  have hother (x : String) : x ∈ q.other ↔ x ∈ t.body.visibleVars ∧ x ∉ listed := by
    simp [q, ConjunctiveQuery.ofUsed, Distinct.mem_ofList, listed]
  have hvars (x : String) : x ∈ q.vars ↔ x ∈ t.body.visibleVars := by
    rw [ConjunctiveQuery.mem_vars, List.mem_append, hanswer, hother, ← and_or_left]
    exact and_iff_left (Classical.em _)
  have hnodup := Distinct.nodup_ofList t.body.visibleVars
  have hordered := Distinct.pairwise_idxOf_ofList t.body.visibleVars
  refine ⟨fun x => ?_, Sorted.pairwise_strings _, fun x => ?_, fun x => ?_, ?_,
    hordered.filter _, hordered.filter _⟩
  · rw [hvars, Pattern.mem_visibleVars]
  · rw [hanswer, hvars, hlisted]
  · rw [hother, hanswer, hvars]
    tauto
  · refine List.nodup_append.2 ⟨hnodup.filter _, hnodup.filter _, fun x hx y hy heq => ?_⟩
    exact ((hother y).1 hy).2 (heq ▸ ((hanswer x).1 hx).2)

theorem divides_of_read (h : (t.read k).result = .ok r) : t.Divides r := by
  have hp : t.body.Readable := Flattened.readable_of_body h
  obtain ⟨-, services, -, rfl⟩ := Flattened.body_result h
  rw [Pattern.visible_root (hp.accepted .root k), ← hp.visibleVars_eq_bound]
  exact t.divides_ofUsed _ services

theorem Divides.map {q : ConjunctiveQuery α} (h : t.Divides q) (f : α → β) :
    t.Divides (q.map f) := by
  cases q
  exact ⟨h.mem_vars, h.vars_ascending, h.mem_answer, h.mem_other, h.nodup, h.answer_ordered,
    h.other_ordered⟩

theorem exists_divides (h : (t.read k).result = .ok r) (f : Term → α) {chain : List String}
    {part : ConjunctiveQuery α} (hpart : (r.map f).SentAlong chain part) :
    ∃ t', t.along? chain = some t' ∧ t'.Divides part := by
  obtain ⟨r', hr', rfl⟩ := ConjunctiveQuery.sentAlong_map.1 hpart
  obtain ⟨t', ht', hread⟩ := exists_along?_of_sentAlong h hr'
  exact ⟨t', ht', (divides_of_read hread).map f⟩

theorem body_ofQuery (q : Query) : (Traversal.ofQuery q).body = q.inner := by
  obtain ⟨form, p, hasDataset⟩ := q
  cases form <;> rfl

theorem readable_body_ofQuery {q : Query} (h : q.pattern.Readable) :
    (Traversal.ofQuery q).body.Readable := by
  obtain ⟨form, p, hasDataset⟩ := q
  cases form with
  | ask => exact h
  | _ => exact Pattern.readable_splitProjection.2 h

theorem Divides.vars_ofQuery {q : Query} {s : ConjunctiveQuery α} (hp : q.pattern.Readable)
    (h : (Traversal.ofQuery q).Divides s) : (∀ x ∈ s.vars, x ∈ q.vars) ∧
      ((Traversal.ofQuery q).body.subSelectPlaces = [] → s.vars = q.vars) := by
  have hbody := readable_body_ofQuery hp
  have hbasics : (Traversal.ofQuery q).body.basics = q.pattern.basics := by
    rw [body_ofQuery, q.basics_inner]
  have hall (x : String) : x ∈ q.vars ↔
      ∃ e ∈ (Traversal.ofQuery q).body.placedTriples, x ∈ e.2.positionVariables := by
    rw [Query.mem_vars_of_readable hp, ← hbasics]
    constructor
    · rintro ⟨triples, hbasic, t, ht, hx⟩
      obtain ⟨e, he, rfl⟩ := hbody.exists_placed_iff.2 ⟨triples, hbasic, ht⟩
      exact ⟨e, he, hx⟩
    · rintro ⟨e, he, hx⟩
      obtain ⟨triples, hbasic, ht⟩ := hbody.exists_placed_iff.1 ⟨e, he, rfl⟩
      exact ⟨triples, hbasic, e.2, ht, hx⟩
  refine ⟨fun x hx => ?_, fun hnone => ?_⟩
  · obtain ⟨e, he, hx, -⟩ := (h.mem_vars x).1 hx
    exact (hall x).2 ⟨e, he, hx⟩
  · have hascending : q.vars.Pairwise (· < ·) := Sorted.pairwise_strings _
    refine h.vars_ascending.eq_of_mem_iff hascending fun x => ?_
    simp only [h.mem_vars, hall, Pattern.hiddenBy?_of_no_subSelects hnone, and_true]

end Traversal

namespace Naming

theorem readable_of_readQuery {n : Naming} {q : Query} {s : ConjunctiveQuery Symbol}
    (h : (n.readQuery q).1 = .ok s) : q.pattern.Readable := by
  obtain ⟨r, hr, -⟩ := name_eq_ok h
  exact (Flattened.ofQuery_eq_ok_iff.1 ⟨r, hr⟩).2.2

theorem exists_divides_of_readQuery {n : Naming} {q : Query} {s part : ConjunctiveQuery Symbol}
    {chain : List String} (h : (n.readQuery q).1 = .ok s) (hpart : s.SentAlong chain part) :
    ∃ t, (Traversal.ofQuery q).along? chain = some t ∧ t.Divides part := by
  obtain ⟨r, hr, rfl⟩ := name_eq_ok h
  rw [← Traversal.read_ofQuery hr] at hr
  exact Traversal.exists_divides hr _ hpart

theorem divides_of_readQuery {n : Naming} {q : Query} {s : ConjunctiveQuery Symbol}
    (h : (n.readQuery q).1 = .ok s) : (Traversal.ofQuery q).Divides s := by
  obtain ⟨t, ht, hdivides⟩ := exists_divides_of_readQuery h (.self s)
  rwa [← Option.some.inj ht] at hdivides

/--
Whatever was read before, and for each query that is sent along a chain of endpoints: its variables
are those that occur in a triple where no sub-select hides them. Those that the final projection
lists are in its answer, in none if there is no such projection, and the rest are the others; none
is repeated, and both come in the order in which they are first visible. The variables of a query
are among those of the whole text of it, and are the same if it has no sub-selects.
-/
theorem variables_divided (n : Naming) :
    (∀ (p : Pattern) (s : ConjunctiveQuery Symbol), (n.readPattern p).1 = .ok s →
      ∀ chain part, s.SentAlong chain part →
        ∃ t, (Traversal.ofPattern p).along? chain = some t ∧ t.Divides part) ∧
    ∀ (q : Query) (s : ConjunctiveQuery Symbol), (n.readQuery q).1 = .ok s →
      (∀ chain part, s.SentAlong chain part →
        ∃ t, (Traversal.ofQuery q).along? chain = some t ∧ t.Divides part) ∧
      (∀ x ∈ s.vars, x ∈ q.vars) ∧
      ((Traversal.ofQuery q).body.subSelectPlaces = [] → s.vars = q.vars) := by
  constructor
  · intro p s hs chain part hpart
    obtain ⟨r, hr, rfl⟩ := name_eq_ok hs
    rw [← Traversal.read_ofPattern] at hr
    exact Traversal.exists_divides hr _ hpart
  · intro q s hs
    exact ⟨fun chain part => exists_divides_of_readQuery hs,
      (divides_of_readQuery hs).vars_ofQuery (readable_of_readQuery hs)⟩

/-- A query that shows one variable, and hides another one in a clause but not at its endpoint. -/
def hiddenInClause : Query :=
  ⟨.select, .project (.join
    (.service (.iri "e") (.project (.bgp [⟨.var "x", .iri "p", .var "y"⟩]) ["x"]))
    (.bgp [⟨.var "z", .iri "p", .var "x"⟩])) ["x"], false⟩

/-- A query all of whose variables are visible. -/
def nothingHidden : Query :=
  ⟨.select, .distinct (.project (.bgp [⟨.var "z", .iri "p", .var "x"⟩]) ["x"]), false⟩

theorem variables_divided_hiddenInClause :
    (∃ s part, (empty.readPattern hiddenInClause.pattern).1 = .ok s ∧ s.SentAlong ["e"] part ∧
      "y" ∉ s.vars ∧ "y" ∈ part.other) ∧
    (∃ s, (empty.readQuery hiddenInClause).1 = .ok s ∧ "x" ∈ s.answer ∧ "z" ∈ s.other) ∧
    ∃ s, (empty.readQuery nothingHidden).1 = .ok s ∧ s.vars = nothingHidden.vars := by
  obtain ⟨hpattern, hquery⟩ := variables_divided empty
  refine ⟨⟨_, _, rfl, .service List.mem_cons_self (.self _), ?_⟩, ⟨_, rfl, ?_⟩, _, rfl, ?_⟩
  · have hparts := hpattern hiddenInClause.pattern _ rfl
    obtain ⟨t, ht, h⟩ := hparts [] _ (.self _)
    obtain ⟨t', ht', h'⟩ := hparts ["e"] _ (.service List.mem_cons_self (.self _))
    obtain rfl := Option.some.inj ht
    obtain rfl := Option.some.inj ht'
    refine ⟨fun hy => absurd ((h.mem_vars "y").1 hy) (by decide), (h'.mem_other "y").2 ⟨?_, ?_⟩⟩
    · exact (h'.mem_vars "y").2 (by decide)
    · intro hy
      obtain ⟨-, names, hnames, hmem⟩ := (h'.mem_answer "y").1 hy
      obtain rfl := Option.some.inj hnames
      exact absurd hmem (by decide)
  · obtain ⟨t, ht, h⟩ := (hquery hiddenInClause _ rfl).1 [] _ (.self _)
    obtain rfl := Option.some.inj ht
    refine ⟨(h.mem_answer "x").2 ⟨(h.mem_vars "x").2 (by decide), _, rfl, by decide⟩,
      (h.mem_other "z").2 ⟨(h.mem_vars "z").2 (by decide), fun hz => ?_⟩⟩
    obtain ⟨-, names, hnames, hmem⟩ := (h.mem_answer "z").1 hz
    obtain rfl := Option.some.inj hnames
    exact absurd hmem (by decide)
  · exact (hquery nothingHidden _ rfl).2.2 rfl

end Naming

end QueryContainment
