import QueryContainment.Proofs.Conjunctive.Endpoints

namespace QueryContainment

theorem Step.rejection?_ofTriple (c : Context) (t : TriplePattern) :
    (ofTriple c t).rejection? = (ofTriple .root t).rejection? := by
  unfold ofTriple
  cases t.terms <;> rfl

namespace Pattern

/-- Why a node of a pattern is rejected, whatever its children are. -/
def nodeRejection? : Pattern → Option Rejection
  | bgp triples => triples.findSome? fun t => (Step.ofTriple .root t).rejection?
  | service (.var name) _ => some (.variableEndpoint name)
  | path .. => some (.unsupported .path)
  | leftJoin .. => some (.unsupported .optional)
  | union .. => some (.unsupported .union)
  | minus .. => some (.unsupported .minus)
  | filter _ => some (.unsupported .filter)
  | extend .. => some (.unsupported .bind)
  | values _ => some (.unsupported .values)
  | group .. => some (.unsupported .group)
  | slice _ => some (.unsupported .slice)
  | graph .. => some (.unsupported .graph)
  | join .. | distinct _ | reduced _ | orderBy _ | project .. | service (.iri _) _ => none

/-- The first rejection is that of the first node that is rejected, in pre-order. -/
theorem findSome?_rejection? (p : Pattern) (c : Context) (k : Nat) :
    (p.steps c k).findSome? Step.rejection? = p.nodes.findSome? nodeRejection? := by
  induction p generalizing c k with
  | bgp triples =>
    have hnode : (bgp triples).nodes.findSome? nodeRejection? =
        triples.findSome? fun t => (Step.ofTriple .root t).rejection? := by
      simp [nodes, nodeRejection?]
    simp only [hnode, steps, List.findSome?_map, Function.comp_def, Step.rejection?_ofTriple c]
  | join left right ihl ihr =>
    simp only [steps, nodes, List.findSome?_append, List.findSome?_cons, nodeRejection?, ihl c k,
      ihr c]
  | distinct inner ih => exact ih c k
  | reduced inner ih => exact ih c k
  | orderBy inner ih => exact ih c k
  | project inner names ih => exact ih _ (k + 1)
  | service name inner ih =>
    cases name with
    | var name => rfl
    | iri url => exact ih _ k
  | _ => rfl

/-- No node is rejected. -/
def Readable (p : Pattern) : Prop := ∀ node ∈ p.nodes, node.nodeRejection? = none

variable {p : Pattern} {c : Context} {k : Nat}

theorem accepted_steps_iff : Step.Accepted (p.steps c k) ↔ p.Readable := by
  have hsteps : Step.Accepted (p.steps c k) ↔ (p.steps c k).findSome? Step.rejection? = none :=
    List.findSome?_eq_none_iff.symm
  rw [hsteps, findSome?_rejection?]
  exact List.findSome?_eq_none_iff

theorem Readable.accepted (h : p.Readable) (c : Context) (k : Nat) :
    Step.Accepted (p.steps c k) := accepted_steps_iff.2 h

theorem readable_join {left right : Pattern} :
    (join left right).Readable ↔ left.Readable ∧ right.Readable := by
  simp [Readable, nodes, nodeRejection?, or_imp, forall_and]

theorem readable_of_cons {inner : Pattern} (hp : p.nodes = p :: inner.nodes)
    (hnone : p.nodeRejection? = none) : p.Readable ↔ inner.Readable := by
  rw [Readable, hp, List.forall_mem_cons]
  exact and_iff_right hnone

theorem readable_distinct {inner : Pattern} : (distinct inner).Readable ↔ inner.Readable :=
  readable_of_cons rfl rfl

theorem readable_reduced {inner : Pattern} : (reduced inner).Readable ↔ inner.Readable :=
  readable_of_cons rfl rfl

theorem readable_orderBy {inner : Pattern} : (orderBy inner).Readable ↔ inner.Readable :=
  readable_of_cons rfl rfl

theorem readable_project {inner : Pattern} {names : List String} :
    (project inner names).Readable ↔ inner.Readable := readable_of_cons rfl rfl

theorem readable_service {inner : Pattern} {url : String} :
    (service (.iri url) inner).Readable ↔ inner.Readable := readable_of_cons rfl rfl

/-- Readable patterns are built from basic patterns by these nodes only. -/
@[elab_as_elim]
theorem Readable.induction {motive : (p : Pattern) → p.Readable → Prop}
    (bgp : ∀ triples h, motive (.bgp triples) h)
    (join : ∀ left right hl hr, motive left hl → motive right hr →
      motive (.join left right) (readable_join.2 ⟨hl, hr⟩))
    (distinct : ∀ inner h, motive inner h → motive (.distinct inner) (readable_distinct.2 h))
    (reduced : ∀ inner h, motive inner h → motive (.reduced inner) (readable_reduced.2 h))
    (orderBy : ∀ inner h, motive inner h → motive (.orderBy inner) (readable_orderBy.2 h))
    (project : ∀ inner names h, motive inner h →
      motive (.project inner names) (readable_project.2 h))
    (service : ∀ url inner h, motive inner h →
      motive (.service (.iri url) inner) (readable_service.2 h))
    {p : Pattern} (h : p.Readable) : motive p h := by
  induction p with
  | bgp triples => exact bgp triples h
  | join left right ihl ihr =>
    obtain ⟨hl, hr⟩ := readable_join.1 h
    exact join left right hl hr (ihl hl) (ihr hr)
  | distinct inner ih => exact distinct inner _ (ih (readable_distinct.1 h))
  | reduced inner ih => exact reduced inner _ (ih (readable_reduced.1 h))
  | orderBy inner ih => exact orderBy inner _ (ih (readable_orderBy.1 h))
  | project inner names ih => exact project inner names _ (ih (readable_project.1 h))
  | service name inner ih =>
    cases name with
    | var name => exact absurd (h _ List.mem_cons_self) (by simp [nodeRejection?])
    | iri url => exact service url inner _ (ih (readable_service.1 h))
  | _ => exact absurd (h _ List.mem_cons_self) (by simp [nodeRejection?])

theorem readable_splitProjection : p.splitProjection.2.Readable ↔ p.Readable := by
  fun_induction Pattern.splitProjection p with
  | case1 inner ih => exact ih.trans readable_distinct.symm
  | case2 inner ih => exact ih.trans readable_reduced.symm
  | case3 inner ih => exact ih.trans readable_orderBy.symm
  | case4 inner names => exact readable_project.symm
  | case5 p => rfl

/-- What is joined for an endpoint is readable. -/
theorem Readable.of_mem_endpoints (h : p.Readable) {e : String × Pattern}
    (he : e ∈ Flattened.endpoints (p.steps c k)) : e.2.Readable := by
  refine Flattened.forall_endpoints (P := Readable) (fun left right hl hr => ?_)
    (fun url b hb node hn => h node (nodes_of_mem_steps hb node hn)) e he
  exact readable_join.2 ⟨hl, hr⟩

end Pattern

namespace Flattened

theorem exists_services {α : Type} {read : Nat → Pattern → Flattened α}
    {l : List (String × Pattern)} (h : ∀ e ∈ l, ∀ k, ∃ q, (read k e.2).result = .ok q) (k : Nat) :
    ∃ found, (services read k l).result = .ok found := by
  induction l generalizing k with
  | nil => exact ⟨[], rfl⟩
  | cons e l ih =>
    obtain ⟨url, b⟩ := e
    obtain ⟨q, hq⟩ := h _ List.mem_cons_self k
    obtain ⟨others, hothers⟩ := ih (fun e he => h e (List.mem_cons_of_mem _ he))
      (k + (read k b).scopes)
    exact ⟨(url, q) :: others, by simp [services, hq, hothers, Except.map]⟩

/-- A body is read to its end if nothing is rejected in it nor in the bodies of its endpoints. -/
theorem exists_body {read : Nat → Pattern → Flattened (ConjunctiveQuery Term)} {p : Pattern}
    (hp : p.Readable) {k : Nat}
    (h : ∀ e ∈ endpoints (p.steps .root k), ∀ j, ∃ q, (read j e.2).result = .ok q)
    (projection : Option (List String)) : ∃ q, (body read k projection p).result = .ok q := by
  have hnone : (p.steps .root k).findSome? Step.rejection? = none :=
    List.findSome?_eq_none_iff.2 (hp.accepted .root k)
  obtain ⟨found, hfound⟩ := exists_services h (k + Step.scopes (p.steps .root k))
  rw [body_eq read k projection hnone, hfound]
  exact ⟨_, rfl⟩

theorem exists_ofPattern {p : Pattern} (hp : p.Readable) (k : Nat) :
    ∃ q, (ofPattern k p).result = .ok q := by
  induction p using endpoint_induction generalizing k with
  | pattern p ih =>
    have hinner := Pattern.readable_splitProjection.2 hp
    rw [ofPattern_eq]
    exact exists_body hinner (fun e he j => ih k e he (hinner.of_mem_endpoints he) j) _

/-- What is read to its end has no node that is rejected. -/
theorem readable_of_body {read : Nat → Pattern → Flattened (ConjunctiveQuery Term)} {p : Pattern}
    {k : Nat} {projection : Option (List String)} {q : ConjunctiveQuery Term}
    (h : (body read k projection p).result = .ok q) : p.Readable :=
  Pattern.accepted_steps_iff.1 (body_answers h).1

theorem ofPattern_eq_ok_iff {p : Pattern} {k : Nat} :
    (∃ q, (ofPattern k p).result = .ok q) ↔ p.Readable := by
  refine ⟨fun ⟨q, hq⟩ => ?_, fun hp => exists_ofPattern hp k⟩
  rw [ofPattern_eq] at hq
  exact Pattern.readable_splitProjection.1 (readable_of_body hq)

/-- A `SELECT` or `ASK` over the default dataset is read if its pattern is readable. -/
theorem ofQuery_eq_ok_iff {q : Query} {k : Nat} : (∃ r, (ofQuery k q).result = .ok r) ↔
    (q.form = .select ∨ q.form = .ask) ∧ q.hasDataset = false ∧ q.pattern.Readable := by
  obtain ⟨form, p, hasDataset⟩ := q
  cases form with
  | select =>
    cases hasDataset with
    | true => simp [ofQuery]
    | false => simpa [ofQuery] using ofPattern_eq_ok_iff
  | ask =>
    cases hasDataset with
    | true => simp [ofQuery]
    | false =>
      have hask : ofQuery k ⟨.ask, p, false⟩ = body ofPattern k none p := ofAsk_eq k p
      rw [hask]
      constructor
      · rintro ⟨r, hr⟩
        exact ⟨.inr rfl, rfl, readable_of_body hr⟩
      · rintro ⟨-, -, hp⟩
        exact exists_body hp (fun e he j => exists_ofPattern (hp.of_mem_endpoints he) j) none
  | construct => simp [ofQuery]
  | describe => simp [ofQuery]

end Flattened

end QueryContainment
