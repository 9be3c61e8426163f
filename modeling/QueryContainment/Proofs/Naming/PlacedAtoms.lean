import QueryContainment.Proofs.Conjunctive.Variables
import QueryContainment.Proofs.Naming.Scoping

namespace QueryContainment

open Naming

namespace Pattern

variable {p child : Pattern} {c d : Context} {k i : Nat} {place : Place}

def endpointAt? (p : Pattern) (place : Place) : Option String :=
  match p.at? place with
  | some (service (.iri url) _) => some url
  | _ => none

def innermostEndpoint? (p : Pattern) (place : Place) : Option String :=
  place.inits.reverse.findSome? p.endpointAt?

theorem endpointAt?_cons (h : p.children[i]? = some child) :
    p.endpointAt? (i :: place) = child.endpointAt? place := by
  rw [endpointAt?, at?, h, Option.bind_some, endpointAt?]

theorem innermostEndpoint?_cons (h : p.children[i]? = some child) :
    p.innermostEndpoint? (i :: place) =
      (child.innermostEndpoint? place).or (p.endpointAt? []) := by
  have hchild : p.endpointAt? ∘ (i :: ·) = child.endpointAt? :=
    funext fun _ => endpointAt?_cons h
  rw [innermostEndpoint?, List.inits_cons, List.reverse_cons, List.findSome?_append,
    ← List.map_reverse, List.findSome?_map, hchild, List.findSome?_singleton]
  rfl

def placedGraph (p : Pattern) (c : Context) (e : Place × TriplePattern) : Option Term :=
  ((p.innermostEndpoint? e.1).or c.graph).map .iri

theorem map_placedGraph (h : p.children[i]? = some child)
    (hd : d.graph = (p.endpointAt? []).or c.graph) :
    (child.placedTriples.map (Prod.map (i :: ·) id)).map (p.placedGraph c) =
      child.placedTriples.map (child.placedGraph d) := by
  rw [List.map_map]
  refine List.map_congr_left fun e _ => ?_
  simp only [Function.comp, placedGraph, Prod.map, innermostEndpoint?_cons h, hd, Option.or_assoc]

theorem Readable.graphs_steps (hp : p.Readable) (c : Context) (k : Nat) :
    ((p.steps c k).filterMap Step.atom?).map Atom.graph =
      p.placedTriples.map (p.placedGraph c) := by
  induction hp using Readable.induction generalizing c k with
  | bgp triples h =>
    have haccepted : Step.Accepted (triples.map (Step.ofTriple c)) := h.accepted c k
    have hplaced : (bgp triples).placedTriples.map ((bgp triples).placedGraph c) =
        triples.map fun _ => c.graph.map .iri := by
      rw [placedTriples, List.map_map]
      rfl
    rw [hplaced, steps]
    clear h hplaced
    induction triples with
    | nil => rfl
    | cons t triples ih =>
      obtain ⟨ht, hrest⟩ := List.forall_mem_cons.1 haccepted
      obtain ⟨a, visible, hstep⟩ := Step.exists_atom_of_accepted ht
      obtain ⟨terms, -, rfl, -⟩ := Step.ofTriple_eq_atom hstep
      rw [List.map_cons, hstep, List.map_cons, ← ih hrest]
      rfl
  | join left right hl hr ihl ihr =>
    rw [steps, List.filterMap_append, List.map_append, ihl, ihr, placedTriples, List.map_append,
      map_placedGraph (d := c) rfl rfl, map_placedGraph (d := c) rfl rfl]
  | distinct inner h ih =>
    rw [placedTriples, map_placedGraph (d := c) rfl rfl]
    exact ih c k
  | reduced inner h ih =>
    rw [placedTriples, map_placedGraph (d := c) rfl rfl]
    exact ih c k
  | orderBy inner h ih =>
    rw [placedTriples, map_placedGraph (d := c) rfl rfl]
    exact ih c k
  | project inner names h ih =>
    rw [placedTriples, map_placedGraph
      (d := { c with subSelects := ⟨k, names⟩ :: c.subSelects }) rfl rfl]
    exact ih _ (k + 1)
  | service url inner h ih =>
    rw [placedTriples, map_placedGraph (d := { c with graph := some url }) rfl rfl]
    exact ih _ k

theorem at?_of_mem_placedTriples {e : Place × TriplePattern} (he : e ∈ p.placedTriples) :
    ∃ triples, p.at? e.1 = some (bgp triples) ∧ e.2 ∈ triples := by
  -- below a node, a triple is one of a child
  have hbelow {p child : Pattern} {i : Nat} (h : p.children[i]? = some child)
      (ih : ∀ e ∈ child.placedTriples, ∃ triples, child.at? e.1 = some (bgp triples) ∧
        e.2 ∈ triples) :
      ∀ e ∈ child.placedTriples.map (Prod.map (i :: ·) id),
        ∃ triples, p.at? e.1 = some (bgp triples) ∧ e.2 ∈ triples := by
    intro e he
    obtain ⟨e', he', rfl⟩ := List.mem_map.1 he
    obtain ⟨triples, hat, ht⟩ := ih e' he'
    exact ⟨triples, (at?_cons h).trans hat, ht⟩
  induction p generalizing e with
  | bgp triples =>
    obtain ⟨t, ht, rfl⟩ := List.mem_map.1 he
    exact ⟨triples, rfl, ht⟩
  | path => cases he
  | values => cases he
  | join left right ihl ihr | leftJoin left right ihl ihr | union left right ihl ihr
  | minus left right ihl ihr =>
    rcases List.mem_append.1 he with he | he
    · exact hbelow rfl (fun _ => ihl) e he
    · exact hbelow rfl (fun _ => ihr) e he
  | filter inner ih | graph name inner ih | extend inner name ih | orderBy inner ih
  | distinct inner ih | reduced inner ih | slice inner ih | project inner names ih
  | group inner names aggregates ih | service name inner ih =>
    exact hbelow rfl (fun _ => ih) e he

end Pattern

namespace Traversal

variable {t : Traversal} {k : Nat} {n : Naming} {r part : ConjunctiveQuery Term}

/--
A query has the triples of the pattern that is read for it, when `k` scopes are open and with the
symbols of a table: each of them once, in pre-order, and in the graph of the innermost clause around
it.
-/
structure HoldsTriples (t : Traversal) (k : Nat) (n : Naming) (q : ConjunctiveQuery Symbol) :
    Prop where
  /-- The triples of the basic patterns in pre-order, each with the place where it stands. -/
  preorder : t.body.placedTriples.map Prod.snd = t.body.basics.flatten
  placed : ∀ e ∈ t.body.placedTriples,
    ∃ triples, t.body.at? e.1 = some (.bgp triples) ∧ e.2 ∈ triples
  length_eq : q.atoms.length = t.body.placedTriples.length
  /-- The atom at an index has the terms of the triple at that index, and the graph of its place. -/
  atom : ∀ (i : Nat) (place : Place) (triple : TriplePattern),
    t.body.placedTriples[i]? = some (place, triple) → ∃ terms a, triple.terms = .ok terms ∧
      q.atoms[i]? = some a ∧
      (∀ role, n.symbol? (t.body.resolved .root k place (terms.inRole role)) =
        some (a.triple.inRole role)) ∧
      a.graph.map some =
        (t.body.innermostEndpoint? place).map fun url => n.symbol? (.iri url)

theorem graph_of_read (h : (t.read k).result = .ok r) {i : Nat} {e : Place × TriplePattern}
    (he : t.body.placedTriples[i]? = some e) {a : Atom Term} (ha : r.atoms[i]? = some a) :
    a.graph = (t.body.innermostEndpoint? e.1).map .iri := by
  obtain ⟨hp, hatoms, -, -⟩ := of_read h
  have hget := congrArg (·[i]?) (hp.graphs_steps .root k)
  simp only [← hatoms, List.getElem?_map, he, ha, Option.map_some, Option.some.injEq] at hget
  rw [hget, Pattern.placedGraph, Context.root, Option.or_none]

theorem length_atoms (h : (t.read k).result = .ok r) :
    r.atoms.length = t.body.placedTriples.length := by
  obtain ⟨hp, hatoms, -, -⟩ := of_read h
  have hlength := congrArg List.length (hp.graphs_steps .root k)
  rwa [List.length_map, List.length_map, ← hatoms] at hlength

theorem holdsTriples_of_read (h : (t.read k).result = .ok r) {met : List Term}
    (hover : r.Over met) (hmet : ∀ u ∈ met, (n.symbol? u).isSome) :
    t.HoldsTriples k n (r.map n.symbol) := by
  obtain ⟨hp, -, -, -⟩ := of_read h
  refine ⟨hp.map_snd_placedTriples, fun e => Pattern.at?_of_mem_placedTriples, ?_, ?_⟩
  · rw [ConjunctiveQuery.atoms_map, List.length_map, length_atoms h]
  · intro i place triple he
    obtain ⟨a, ha⟩ := exists_atom h he
    obtain ⟨place', triple', terms, he', hterms, htriple⟩ := exists_placed h ha
    obtain ⟨rfl, rfl⟩ : place = place' ∧ triple = triple' :=
      Prod.mk.inj (Option.some.inj (he.symm.trans he'))
    have hgraph : a.graph = (t.body.innermostEndpoint? place).map .iri := graph_of_read h he ha
    -- each term of the atom has been met
    have hsymbol (u : Term) (hu : u ∈ a.toList) : n.symbol? u = some (n.symbol u) := by
      obtain ⟨s, hs⟩ := Option.isSome_iff_exists.1
        (hmet u (hover.met_of_mem a (List.mem_of_getElem? ha) u hu))
      rw [hs, symbol_of_symbol? hs]
    refine ⟨terms, a.map n.symbol, hterms, ?_, fun role => ?_, ?_⟩
    · rw [ConjunctiveQuery.atoms_map, List.getElem?_map, ha, Option.map_some]
    · have hplace : a.triple.inRole role ∈ a.places := a.triple.inRole_mem_toList role
      have hrole : a.triple.inRole role = t.body.resolved .root k place (terms.inRole role) := by
        rw [htriple, Triple.inRole_map]
      rw [Atom.triple_map, Triple.inRole_map, ← hrole]
      exact hsymbol _ (Atom.mem_toList.2 (.inl hplace))
    · show (a.graph.map n.symbol).map some = _
      cases hurl : t.body.innermostEndpoint? place with
      | none => rw [hgraph, hurl]; rfl
      | some url =>
        rw [hurl] at hgraph
        have hiri := hsymbol (.iri url) (Atom.mem_toList.2 (.inr hgraph))
        rw [hgraph]
        exact congrArg some hiri.symm

theorem exists_holdsTriples {s part : ConjunctiveQuery Symbol}
    (h : (n.name (t.read n.scopes)).1 = .ok s) {chain : List String}
    (hpart : s.SentAlong chain part) : ∃ t', t.along? chain = some t' ∧
      t'.HoldsTriples (t.start n.scopes chain) (n.name (t.read n.scopes)).2 part := by
  obtain ⟨r, hr, rfl⟩ := name_eq_ok h
  obtain ⟨r', hr', rfl⟩ := ConjunctiveQuery.sentAlong_map.1 hpart
  obtain ⟨t', ht', hread⟩ := exists_along?_of_sentAlong hr hr'
  have hover : r'.Over (t.read n.scopes).terms :=
    t.wellDrawn_read n.scopes r hr r' hr'.mem_parts
  exact ⟨t', ht', holdsTriples_of_read hread hover fun u hu => symbol?_addAll_of_mem (n := n) hu⟩

end Traversal

namespace Naming

/--
Whatever was read before, what is read from a pattern, and from a query, holds all triples of it:
one atom for each of them, in pre-order, with the symbols of its terms, those of variables that a
sub-select hides in their scopes, and with the symbol of the endpoint of the innermost clause around
it as the graph, or no graph where there is no clause. The same is true of what is sent along each
chain of endpoints, with respect to the join of the clauses for which it is sent.
-/
theorem triples_kept (n : Naming) :
    (∀ (p : Pattern) (s : ConjunctiveQuery Symbol), (n.readPattern p).1 = .ok s →
      (Traversal.ofPattern p).body.basics = p.basics ∧
      ∀ chain part, s.SentAlong chain part →
        ∃ t, (Traversal.ofPattern p).along? chain = some t ∧ t.HoldsTriples
          ((Traversal.ofPattern p).start n.scopes chain) (n.readPattern p).2 part) ∧
    ∀ (q : Query) (s : ConjunctiveQuery Symbol), (n.readQuery q).1 = .ok s →
      (Traversal.ofQuery q).body.basics = q.pattern.basics ∧
      ∀ chain part, s.SentAlong chain part →
        ∃ t, (Traversal.ofQuery q).along? chain = some t ∧ t.HoldsTriples
          ((Traversal.ofQuery q).start n.scopes chain) (n.readQuery q).2 part := by
  constructor
  · intro p s hs
    refine ⟨Pattern.basics_splitProjection p, fun chain part hpart => ?_⟩
    rw [readPattern, ← Traversal.read_ofPattern] at hs ⊢
    exact Traversal.exists_holdsTriples hs hpart
  · intro q s hs
    obtain ⟨r, hr, -⟩ := name_eq_ok hs
    refine ⟨?_, fun chain part hpart => ?_⟩
    · rw [Traversal.body_ofQuery, q.basics_inner]
    · rw [readQuery, ← Traversal.read_ofQuery hr] at hs ⊢
      exact Traversal.exists_holdsTriples hs hpart

/-- A triple beside a sub-select, in which one clause is nested in another one. -/
def clauseInClause : Pattern :=
  .join (.bgp [⟨.var "x", .iri "p", .var "y"⟩])
    (.project (.service (.iri "e") (.join (.bgp [⟨.var "x", .iri "q", .var "z"⟩])
      (.service (.iri "f") (.bgp [⟨.var "z", .iri "r", .var "y"⟩])))) ["x"])

/--
The last triple is in the graph of the inner clause, as a whole and in what the outer endpoint is
sent, whose first triple is in no graph. Only as a whole is the variable hidden.
-/
theorem triples_kept_clauseInClause :
    let n := (empty.add (.iri "f")).newScope.2
    ∃ s part a b c, (n.readPattern clauseInClause).1 = .ok s ∧ s.SentAlong ["e"] part ∧
      s.atoms.length = 3 ∧ s.atoms[2]? = some a ∧ part.atoms.length = 2 ∧
      part.atoms[1]? = some b ∧ part.atoms[0]? = some c ∧
      a.graph = some ⟨.iri, "f"⟩ ∧ a.object = ⟨.var, "y_sq1"⟩ ∧
      b.graph = some ⟨.iri, "f"⟩ ∧ b.object = ⟨.var, "y"⟩ ∧ c.graph = none := by
  intro n
  obtain ⟨s, hs⟩ : ∃ s, (n.readPattern clauseInClause).1 = .ok s := ⟨_, rfl⟩
  obtain ⟨part, hpart⟩ : ∃ part, s.SentAlong ["e"] part := by
    obtain rfl := Except.ok.inj hs
    exact ⟨_, .service List.mem_cons_self (.self _)⟩
  obtain ⟨-, hkept⟩ := (triples_kept n).1 clauseInClause s hs
  obtain ⟨t, ht, hwhole⟩ := hkept [] s (.self s)
  obtain ⟨t', ht', hsent⟩ := hkept ["e"] part hpart
  obtain rfl := Option.some.inj ht
  obtain rfl := Option.some.inj ht'
  obtain ⟨terms, a, hterms, ha, hterm, hgraph⟩ := hwhole.atom 2 _ _ rfl
  obtain rfl := Except.ok.inj hterms
  obtain ⟨terms', b, hterms', hb, hterm', hgraph'⟩ := hsent.atom 1 _ _ rfl
  obtain rfl := Except.ok.inj hterms'
  obtain ⟨-, c, -, hc, -, hnone⟩ := hsent.atom 0 _ _ rfl
  have hhidden : (n.readPattern clauseInClause).2.symbol? (.var "y#sq1") =
      some ⟨.var, "y_sq1"⟩ := by decide +kernel
  have hinside : (Traversal.ofPattern clauseInClause).body.resolved .root n.scopes
      [1, 0, 0, 1, 0] (.var "y") = .var "y#sq1" := by decide +kernel
  have hobject : (n.readPattern clauseInClause).2.symbol? (.var "y#sq1") = some a.object :=
    hinside ▸ hterm .object
  have hshown : (n.readPattern clauseInClause).2.symbol? (.var "y") = some ⟨.var, "y"⟩ := by
    decide +kernel
  have hobject' : (n.readPattern clauseInClause).2.symbol? (.var "y") = some b.object :=
    hterm' .object
  have hclause : (n.readPattern clauseInClause).2.symbol? (.iri "f") = some ⟨.iri, "f"⟩ := by
    decide +kernel
  have hdefault : c.graph.map some = none := hnone
  refine ⟨s, part, a, b, c, hs, hpart, hwhole.length_eq, ha, hsent.length_eq, hb, hc,
    ?_, Option.some.inj (hobject.symm.trans hhidden), ?_,
    Option.some.inj (hobject'.symm.trans hshown), ?_⟩
  · have hsome : a.graph.map some = some ((n.readPattern clauseInClause).2.symbol? (.iri "f")) :=
      hgraph
    simpa [hclause] using hsome
  · have hsome : b.graph.map some = some ((n.readPattern clauseInClause).2.symbol? (.iri "f")) :=
      hgraph'
    simpa [hclause] using hsome
  · simpa using hdefault

end Naming

end QueryContainment
