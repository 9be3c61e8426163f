import QueryContainment.Algebra.Walk
import QueryContainment.Proofs.Conjunctive.Readable

namespace QueryContainment

open Naming

/-- The triple that a term quotes. -/
def PatternTerm.quoted? : PatternTerm → Option TriplePattern
  | .quoted subject predicate object => some ⟨subject, predicate, object⟩
  | _ => none

/-- The first quoted triple in a triple, the subject before the object. -/
def TriplePattern.quoted? (t : TriplePattern) : Option TriplePattern :=
  t.subject.quoted?.or t.object.quoted?

theorem Term.ofPattern_eq_error_iff {t : PatternTerm} {reason : Rejection} :
    Term.ofPattern t = .error reason ↔ t.quoted?.map .quotedTriple = some reason := by
  cases t <;> simp [Term.ofPattern, PatternTerm.quoted?]

theorem TriplePattern.terms_eq_error_iff {t : TriplePattern} {reason : Rejection} :
    t.terms = .error reason ↔ t.quoted?.map .quotedTriple = some reason := by
  rw [terms, quoted?]
  cases hs : Term.ofPattern t.subject with
  | error first =>
    obtain ⟨triple, hquoted, rfl⟩ :=
      Option.map_eq_some_iff.1 (Term.ofPattern_eq_error_iff.1 hs)
    simp [hquoted, bind, Except.bind]
  | ok subject =>
    have hnone : t.subject.quoted? = none := by
      cases hquoted : t.subject.quoted? with
      | none => rfl
      | some triple =>
        have herror := Term.ofPattern_eq_error_iff.2 (congrArg (Option.map _) hquoted)
        rw [hs] at herror
        cases herror
    rw [hnone, Option.none_or, ← Term.ofPattern_eq_error_iff]
    cases Term.ofPattern t.object <;> simp [bind, Except.bind, pure, Except.pure]

theorem Step.rejection?_ofTriple_eq (c : Context) (t : TriplePattern) :
    (ofTriple c t).rejection? = t.quoted?.map .quotedTriple := by
  ext reason
  rw [← TriplePattern.terms_eq_error_iff, ofTriple]
  cases t.terms <;> simp [rejection?]

namespace Pattern

/-- The nodes of a pattern in the order in which it is walked. -/
def visited (p : Pattern) : List Pattern := p.walk (fun node seen => (true, seen ++ [node])) []

/-- A walk that goes everywhere takes the nodes one after the other. -/
theorem walk_everywhere {σ : Type} (f : Pattern → σ → σ) (p : Pattern) (s : σ) :
    p.walk (fun node s => (true, f node s)) s = p.nodes.foldl (fun s node => f node s) s := by
  induction p generalizing s with
  | bgp triples => rfl
  | path subject object => rfl
  | values vars => rfl
  | join left right ihl ihr => simp [walk, nodes, ihl, ihr]
  | leftJoin left right ihl ihr => simp [walk, nodes, ihl, ihr]
  | union left right ihl ihr => simp [walk, nodes, ihl, ihr]
  | minus left right ihl ihr => simp [walk, nodes, ihl, ihr]
  | filter inner ih => exact ih _
  | graph name inner ih => exact ih _
  | extend inner name ih => exact ih _
  | orderBy inner ih => exact ih _
  | distinct inner ih => exact ih _
  | reduced inner ih => exact ih _
  | slice inner ih => exact ih _
  | project inner names ih => exact ih _
  | group inner vars aggregates ih => exact ih _
  | service name inner ih => exact ih _

theorem visited_eq (p : Pattern) : p.visited = p.nodes := by
  have hfold (l seen : List Pattern) :
      l.foldl (fun seen node => seen ++ [node]) seen = seen ++ l := by
    induction l generalizing seen with
    | nil => simp
    | cons node l ih => simp [ih]
  rw [visited, walk_everywhere, hfold, List.nil_append]

/-- The nodes that a conjunctive query can express, whatever is below them. -/
def Expressible : Pattern → Prop
  | bgp triples => ∀ t ∈ triples, t.quoted? = none
  | join .. | distinct _ | reduced _ | orderBy _ | project .. | service (.iri _) _ => True
  | path .. | leftJoin .. | union .. | minus .. | filter _ | graph .. | extend .. | values _
  | slice _ | group .. | service (.var _) _ => False

theorem nodeRejection?_bgp (triples : List TriplePattern) : (bgp triples).nodeRejection? =
    (triples.findSome? TriplePattern.quoted?).map .quotedTriple := by
  simp only [nodeRejection?, Step.rejection?_ofTriple_eq]
  induction triples with
  | nil => rfl
  | cons t triples ih =>
    rw [List.findSome?_cons, List.findSome?_cons]
    cases t.quoted? with
    | none => exact ih
    | some triple => rfl

theorem nodeRejection?_eq_none_iff {p : Pattern} : p.nodeRejection? = none ↔ p.Expressible := by
  cases p with
  | bgp triples => simp [nodeRejection?_bgp, Expressible]
  | service name inner => cases name <;> simp [nodeRejection?, Expressible]
  | _ => simp [nodeRejection?, Expressible]

theorem nodeRejection?_bgp_eq_some_iff {triples : List TriplePattern} {reason : Rejection} :
    (bgp triples).nodeRejection? = some reason ↔ ∃ before t after triple,
      triples = before ++ t :: after ∧ (∀ u ∈ before, u.quoted? = none) ∧
        t.quoted? = some triple ∧ reason = .quotedTriple triple := by
  rw [nodeRejection?_bgp, Option.map_eq_some_iff]
  constructor
  · rintro ⟨triple, hfirst, rfl⟩
    obtain ⟨before, t, after, rfl, ht, hbefore⟩ := List.findSome?_eq_some_iff.1 hfirst
    exact ⟨before, t, after, triple, rfl, hbefore, ht, rfl⟩
  · rintro ⟨before, t, after, triple, rfl, hbefore, ht, rfl⟩
    exact ⟨triple, List.findSome?_eq_some_iff.2 ⟨before, t, after, rfl, ht, hbefore⟩, rfl⟩

theorem findSome?_splitProjection (p : Pattern) :
    p.splitProjection.2.nodes.findSome? nodeRejection? = p.nodes.findSome? nodeRejection? := by
  fun_induction Pattern.splitProjection p with
  | case1 inner ih => exact ih
  | case2 inner ih => exact ih
  | case3 inner ih => exact ih
  | case4 inner names => rfl
  | case5 p => rfl

theorem readable_iff_visited {p : Pattern} :
    p.Readable ↔ ∀ node ∈ p.visited, node.Expressible := by
  simp only [Readable, visited_eq, nodeRejection?_eq_none_iff]

theorem findSome?_nodes_eq_some_iff {p : Pattern} {reason : Rejection} :
    p.nodes.findSome? nodeRejection? = some reason ↔ ∃ before node after,
      p.visited = before ++ node :: after ∧ (∀ b ∈ before, b.Expressible) ∧
        node.nodeRejection? = some reason := by
  simp only [List.findSome?_eq_some_iff, visited_eq, nodeRejection?_eq_none_iff]
  exact exists₃_congr fun _ _ _ => and_congr_right fun _ => and_comm

end Pattern

/-- Why a query is rejected whatever its pattern is. -/
def Query.formRejection? (q : Query) : Option Rejection :=
  match q.form with
  | .select | .ask => if q.hasDataset then some (.unsupported .dataset) else none
  | .construct => some (.unsupported .constructForm)
  | .describe => some (.unsupported .describeForm)

namespace Flattened

variable {p : Pattern} {k : Nat} {reason : Rejection}

theorem exists_services_of_accepted (h : Step.Accepted (p.steps .root k)) (j : Nat) :
    ∃ found, (services ofPattern j (endpoints (p.steps .root k))).result = .ok found := by
  have hp : p.Readable := Pattern.accepted_steps_iff.1 h
  exact exists_services (fun e he j => exists_ofPattern (hp.of_mem_endpoints he) j) j

theorem body_eq_error_iff {projection : Option (List String)} :
    (body ofPattern k projection p).result = .error reason ↔
      p.nodes.findSome? Pattern.nodeRejection? = some reason := by
  rw [← p.findSome?_rejection? .root k]
  cases hr : (p.steps .root k).findSome? Step.rejection? with
  | some first => simp [body, hr]
  | none =>
    obtain ⟨found, hfound⟩ := exists_services_of_accepted (List.findSome?_eq_none_iff.1 hr)
      (k + Step.scopes (p.steps .root k))
    simp [body_eq ofPattern k projection hr, hfound, Except.map]

theorem ofQuery_eq_error_iff {q : Query} : (ofQuery k q).result = .error reason ↔
    q.formRejection? = some reason ∨
      q.formRejection? = none ∧ q.pattern.nodes.findSome? Pattern.nodeRejection? = some reason := by
  obtain ⟨form, p, hasDataset⟩ := q
  cases form with
  | select =>
    cases hasDataset with
    | true => simp [ofQuery, Query.formRejection?]
    | false => simp [ofQuery, Query.formRejection?, ofPattern_eq, body_eq_error_iff,
        Pattern.findSome?_splitProjection]
  | ask =>
    cases hasDataset with
    | true => simp [ofQuery, Query.formRejection?]
    | false => simp [ofQuery, Query.formRejection?, ofAsk_eq, body_eq_error_iff]
  | construct => simp [ofQuery, Query.formRejection?]
  | describe => simp [ofQuery, Query.formRejection?]

end Flattened

namespace Naming

theorem exists_readQuery_iff {n : Naming} {q : Query} :
    (∃ s, (n.readQuery q).1 = .ok s) ↔ ∃ r, (Flattened.ofQuery n.scopes q).result = .ok r := by
  rw [readQuery, name]
  cases (Flattened.ofQuery n.scopes q).result <;> simp [Except.map]

theorem readQuery_eq_error_iff {n : Naming} {q : Query} {reason : Rejection} :
    (n.readQuery q).1 = .error reason ↔ (Flattened.ofQuery n.scopes q).result = .error reason := by
  rw [readQuery, name]
  cases (Flattened.ofQuery n.scopes q).result <;> simp [Except.map]

/--
Whatever was read before: a query is read if and only if it is a `SELECT` or `ASK` over the default
dataset all of whose nodes can be expressed. Otherwise the reason is its form or its dataset, or
else the first node that cannot be expressed, in the order of a walk, and within a basic pattern the
first triple that quotes one, subject before object. The queries for the endpoints of a pattern in
which nothing is rejected are all read.
-/
theorem readQuery_outcome (n : Naming) (q : Query) :
    ((∃ s, (n.readQuery q).1 = .ok s) ↔ (q.form = .select ∨ q.form = .ask) ∧
      q.hasDataset = false ∧ ∀ node ∈ q.pattern.visited, node.Expressible) ∧
    (∀ reason, (n.readQuery q).1 = .error reason ↔
      q.formRejection? = some reason ∨ q.formRejection? = none ∧ ∃ before node after,
        q.pattern.visited = before ++ node :: after ∧ (∀ b ∈ before, b.Expressible) ∧
          node.nodeRejection? = some reason) ∧
    (∀ triples reason, (Pattern.bgp triples).nodeRejection? = some reason ↔
      ∃ before t after triple, triples = before ++ t :: after ∧
        (∀ u ∈ before, u.quoted? = none) ∧ t.quoted? = some triple ∧
          reason = .quotedTriple triple) ∧
    ∀ (p : Pattern) (k : Nat), Step.Accepted (p.steps .root k) → ∀ j, ∃ found,
      (Flattened.services Flattened.ofPattern j
        (Flattened.endpoints (p.steps .root k))).result = .ok found := by
  refine ⟨?_, fun reason => ?_, fun triples reason => Pattern.nodeRejection?_bgp_eq_some_iff,
    fun p k h j => Flattened.exists_services_of_accepted h j⟩
  · rw [exists_readQuery_iff, Flattened.ofQuery_eq_ok_iff, Pattern.readable_iff_visited]
  · rw [readQuery_eq_error_iff, Flattened.ofQuery_eq_error_iff,
      Pattern.findSome?_nodes_eq_some_iff]

/-- A clause in a clause at another endpoint, with a sub-select in between. -/
def nestedClauses : Pattern :=
  .service (.iri "e") (.project (.join (.bgp [⟨.var "x", .iri "p", .var "y"⟩])
    (.service (.iri "f") (.bgp [⟨.var "y", .iri "p", .blank "b"⟩]))) ["x"])

/-- A quoted triple in the nested clause, and a filter behind it. -/
def quotingQuery : Query :=
  ⟨.ask, .join (.service (.iri "e") (.project (.bgp [⟨.var "x", .iri "p", .var "y"⟩,
    ⟨.var "x", .iri "p", .quoted (.var "y") (.iri "p") (.var "z")⟩]) ["x"]))
    (.filter (.bgp [])), false⟩

theorem readQuery_outcome_nested :
    (empty.readQuery quotingQuery).1 =
      .error (.quotedTriple ⟨.var "y", .iri "p", .var "z"⟩) ∧
    Step.Accepted (nestedClauses.steps .root 0) ∧
    ∃ found, (Flattened.services Flattened.ofPattern 2
      (Flattened.endpoints (nestedClauses.steps .root 0))).result = .ok found := by
  have haccepted : Step.Accepted (nestedClauses.steps .root 0) := by
    unfold Step.Accepted
    decide
  obtain ⟨-, herror, -, hservices⟩ := readQuery_outcome empty quotingQuery
  refine ⟨(herror _).2 (.inr ⟨rfl, ?_⟩), haccepted, hservices nestedClauses 0 haccepted 2⟩
  let triples : List TriplePattern := [⟨.var "x", .iri "p", .var "y"⟩,
    ⟨.var "x", .iri "p", .quoted (.var "y") (.iri "p") (.var "z")⟩]
  refine ⟨[quotingQuery.pattern, .service (.iri "e") (.project (.bgp triples) ["x"]),
    .project (.bgp triples) ["x"]], .bgp triples, [.filter (.bgp []), .bgp []], rfl, ?_, rfl⟩
  simp [quotingQuery, Pattern.Expressible]

end Naming

end QueryContainment
