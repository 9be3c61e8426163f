import Mathlib.Data.List.Forall2
import Mathlib.Data.List.Induction
import QueryContainment.Proofs.Conjunctive.QueryAnswers

namespace QueryContainment

open Naming

theorem Step.clause?_ofTriple (c : Context) (t : TriplePattern) : (ofTriple c t).clause? = none := by
  unfold ofTriple
  cases t.terms <;> rfl

theorem Step.mem_filterMap_clause? {steps : List Step} {url : String} {b : Pattern} :
    (url, b) ∈ steps.filterMap clause? ↔ .endpoint url b ∈ steps := by
  rw [List.mem_filterMap]
  constructor
  · rintro ⟨s, hs, hclause⟩
    cases s with
    | endpoint url' b' =>
      obtain ⟨rfl, rfl⟩ := Prod.mk.inj (Option.some.inj hclause)
      exact hs
    | _ => simp [clause?] at hclause
  · exact fun h => ⟨_, h, rfl⟩

namespace Flattened

theorem map_fst_addClause (clause : String × Pattern) (l : List (String × Pattern)) :
    (addClause clause l).map Prod.fst = Distinct.add (l.map Prod.fst) clause.1 := by
  induction l with
  | nil => simp [addClause, Distinct.add]
  | cons e l ih =>
    obtain ⟨url, joined⟩ := e
    unfold addClause
    by_cases h : url = clause.1
    · simp [h, Distinct.add]
    · rw [if_neg h, List.map_cons, ih]
      by_cases hl : clause.1 ∈ l.map Prod.fst
      · simp [Distinct.add, hl]
      · simp [Distinct.add, hl, Ne.symm h]

theorem map_fst_foldl_addClause (clauses : List (String × Pattern)) :
    (clauses.foldl (fun l c => addClause c l) []).map Prod.fst =
      Distinct.ofList (clauses.map Prod.fst) := by
  have hfold (l : List (String × Pattern)) :
      (clauses.foldl (fun l c => addClause c l) l).map Prod.fst =
        Distinct.addAll (l.map Prod.fst) (clauses.map Prod.fst) := by
    induction clauses generalizing l with
    | nil => rfl
    | cons c clauses ih =>
      rw [List.foldl_cons, ih, map_fst_addClause]
      rfl
  exact hfold []

theorem map_fst_endpoints (steps : List Step) : (endpoints steps).map Prod.fst =
    Distinct.ofList ((steps.filterMap Step.clause?).map Prod.fst) :=
  map_fst_foldl_addClause _

theorem nodup_endpoints (steps : List Step) : ((endpoints steps).map Prod.fst).Nodup := by
  rw [map_fst_endpoints]
  exact Distinct.nodup_ofList _

theorem mem_addClause {clause e : String × Pattern} {l : List (String × Pattern)}
    (hl : (l.map Prod.fst).Nodup) (h : e ∈ addClause clause l) : (e ∈ l ∧ e.1 ≠ clause.1) ∨
      (∃ joined, (clause.1, joined) ∈ l ∧ e = (clause.1, .join joined clause.2)) ∨
      (clause.1 ∉ l.map Prod.fst ∧ e = clause) := by
  induction l with
  | nil => exact .inr (.inr ⟨by simp, by simpa [addClause] using h⟩)
  | cons first l ih =>
    obtain ⟨url, joined⟩ := first
    obtain ⟨hurl, hnodup⟩ := List.nodup_cons.1 hl
    unfold addClause at h
    split at h
    · next heq =>
      obtain rfl : url = clause.1 := heq
      rcases List.mem_cons.1 h with rfl | h
      · exact .inr (.inl ⟨joined, List.mem_cons_self, rfl⟩)
      · exact .inl ⟨List.mem_cons_of_mem _ h, fun he => hurl (he ▸ List.mem_map_of_mem h)⟩
    · next hne =>
      have hne : url ≠ clause.1 := hne
      rcases List.mem_cons.1 h with rfl | h
      · exact .inl ⟨List.mem_cons_self, hne⟩
      · rcases ih hnodup h with ⟨hmem, he⟩ | ⟨joined', hmem, rfl⟩ | ⟨hnot, rfl⟩
        · exact .inl ⟨List.mem_cons_of_mem _ hmem, he⟩
        · exact .inr (.inl ⟨joined', List.mem_cons_of_mem _ hmem, rfl⟩)
        · refine .inr (.inr ⟨?_, rfl⟩)
          rw [List.map_cons, List.mem_cons, not_or]
          exact ⟨hne.symm, hnot⟩

/-- What is true of a clause is true of what is joined for its endpoint, and the other way round. -/
theorem foldl_addClause_iff {P Q : Pattern → Prop} (hP : ∀ p q, P p → P q → P (.join p q))
    (hQ : ∀ p q, P p → P q → (Q (.join p q) ↔ Q p ∨ Q q)) {clauses : List (String × Pattern)}
    (hc : ∀ c ∈ clauses, P c.2) {e : String × Pattern}
    (he : e ∈ clauses.foldl (fun l c => addClause c l) []) :
    P e.2 ∧ (Q e.2 ↔ ∃ c ∈ clauses, c.1 = e.1 ∧ Q c.2) := by
  induction clauses using List.reverseRecOn generalizing e with
  | nil => simp at he
  | append_singleton clauses c ih =>
    -- the last clause is added to what has been joined of all others
    have hlast : P c.2 := hc c (by simp)
    have hothers {e : String × Pattern} := ih (e := e) fun c' hc' => hc c' (by simp [hc'])
    have hkeys := map_fst_foldl_addClause clauses
    rw [List.foldl_append, List.foldl_cons, List.foldl_nil] at he
    simp only [List.mem_append, List.mem_singleton, or_and_right, exists_or, exists_eq_left]
    rcases mem_addClause (hkeys ▸ Distinct.nodup_ofList _) he with
      ⟨hmem, hne⟩ | ⟨joined, hmem, rfl⟩ | ⟨hnot, rfl⟩
    · obtain ⟨hp, hq⟩ := hothers hmem
      refine ⟨hp, hq.trans ⟨.inl, fun h => h.elim id fun h => absurd h.1.symm hne⟩⟩
    · obtain ⟨hp, hq⟩ := hothers hmem
      refine ⟨hP _ _ hp hlast, (hQ _ _ hp hlast).trans ?_⟩
      rw [hq]
      simp
    · rw [hkeys, Distinct.mem_ofList] at hnot
      refine ⟨hlast, ⟨fun h => .inr ⟨rfl, h⟩, ?_⟩⟩
      rintro (⟨c', hc', heq, -⟩ | ⟨-, h⟩)
      · exact absurd (heq ▸ List.mem_map_of_mem hc') hnot
      · exact h

/-- The services are read from the bodies of the endpoints, one by one. -/
theorem forall₂_services {α : Type} {read : Nat → Pattern → Flattened α}
    {l : List (String × Pattern)} {k : Nat} {found : List (String × α)}
    (h : (services read k l).result = .ok found) :
    List.Forall₂ (fun e s => s.1 = e.1 ∧ ∃ j, (read j e.2).result = .ok s.2) l found := by
  induction l generalizing k found with
  | nil =>
    obtain rfl : [] = found := by simpa [services] using h
    exact .nil
  | cons e l ih =>
    obtain ⟨url, body⟩ := e
    simp only [services] at h
    cases hr : (read k body).result with
    | error reason => simp [hr] at h
    | ok q =>
      simp only [hr] at h
      cases ho : (services read (k + (read k body).scopes) l).result with
      | error reason => simp [ho, Except.map] at h
      | ok others =>
        obtain rfl : (url, q) :: others = found := by simpa [ho, Except.map] using h
        exact .cons ⟨rfl, k, hr⟩ (ih ho)

theorem map_fst_services {α : Type} {read : Nat → Pattern → Flattened α}
    {l : List (String × Pattern)} {k : Nat} {found : List (String × α)}
    (h : (services read k l).result = .ok found) : found.map Prod.fst = l.map Prod.fst := by
  have hpairs := forall₂_services h
  clear h
  induction hpairs with
  | nil => rfl
  | cons hes _ ih => rw [List.map_cons, List.map_cons, hes.1, ih]

theorem exists_of_mem_services {α : Type} {read : Nat → Pattern → Flattened α}
    {l : List (String × Pattern)} {k : Nat} {found : List (String × α)}
    (h : (services read k l).result = .ok found) {s : String × α} (hs : s ∈ found) :
    ∃ e ∈ l, s.1 = e.1 ∧ ∃ j, (read j e.2).result = .ok s.2 := by
  have hpairs := forall₂_services h
  clear h
  induction hpairs with
  | nil => simp at hs
  | @cons e _ _ _ hes _ ih =>
    rcases List.mem_cons.1 hs with rfl | hs
    · exact ⟨e, List.mem_cons_self, hes⟩
    · obtain ⟨e', he', hes'⟩ := ih hs
      exact ⟨e', List.mem_cons_of_mem _ he', hes'⟩

end Flattened

/-- Each endpoint is sent one query, and the variables in the answer have names without a `#`. -/
structure ConjunctiveQuery.Regular (q : ConjunctiveQuery Term) : Prop where
  endpoints : (q.services.map Prod.fst).Nodup
  answer : ∀ x ∈ q.answer, '#' ∉ x.toList

namespace Pattern

/-- The clauses of a pattern that stands alone, with their endpoints. -/
def clauses (p : Pattern) : List (String × Pattern) := (p.steps .root 0).filterMap Step.clause?

theorem mem_clauses {p : Pattern} {url : String} {b : Pattern} :
    (url, b) ∈ p.clauses ↔ .endpoint url b ∈ p.steps .root 0 := Step.mem_filterMap_clause?

theorem clauses_steps (p : Pattern) (c : Context) (k : Nat) :
    (p.steps c k).filterMap Step.clause? = p.clauses := by
  have hsame (c' : Context) (k' : Nat) :
      (p.steps c k).filterMap Step.clause? = (p.steps c' k').filterMap Step.clause? := by
    induction p generalizing c k c' k' with
    | bgp triples =>
      simp only [steps, List.filterMap_map, Function.comp_def, Step.clause?_ofTriple]
    | join left right ihl ihr =>
      simp only [steps, List.filterMap_append]
      rw [ihl c k c' k', ihr c _ c' (k' + Step.scopes (left.steps c' k'))]
    | distinct inner ih => exact ih c k c' k'
    | reduced inner ih => exact ih c k c' k'
    | orderBy inner ih => exact ih c k c' k'
    | project inner names ih => exact ih _ (k + 1) _ (k' + 1)
    | service name inner ih =>
      cases name with
      | var name => rfl
      | iri url => exact congrArg ((url, inner) :: ·) (ih _ k _ k')
    | _ => rfl
  exact hsame .root 0

theorem clauses_bgp (triples : List TriplePattern) : (bgp triples).clauses = [] := by
  simp [clauses, steps, Step.clause?_ofTriple]

theorem clauses_join (left right : Pattern) :
    (join left right).clauses = left.clauses ++ right.clauses := by
  rw [← clauses_steps right .root (0 + Step.scopes (left.steps .root 0))]
  exact List.filterMap_append

theorem clauses_project (inner : Pattern) (names : List String) :
    (project inner names).clauses = inner.clauses := inner.clauses_steps _ 1

theorem clauses_service (url : String) (inner : Pattern) :
    (service (.iri url) inner).clauses = (url, inner) :: inner.clauses :=
  congrArg ((url, inner) :: ·) (inner.clauses_steps _ 0)

theorem clauses_splitProjection (p : Pattern) : p.splitProjection.2.clauses = p.clauses := by
  fun_induction Pattern.splitProjection p with
  | case1 inner ih => exact ih
  | case2 inner ih => exact ih
  | case3 inner ih => exact ih
  | case4 inner names => exact (clauses_project inner names).symm
  | case5 p => rfl

/-- The endpoints of a pattern, each with the join of all its clauses. -/
def endpoints (p : Pattern) : List (String × Pattern) := Flattened.endpoints (p.steps .root 0)

theorem endpoints_eq (p : Pattern) :
    p.endpoints = p.clauses.foldl (fun l c => Flattened.addClause c l) [] := rfl

theorem endpoints_steps (p : Pattern) (c : Context) (k : Nat) :
    Flattened.endpoints (p.steps c k) = p.endpoints := by
  rw [Flattened.endpoints, clauses_steps, endpoints_eq]

theorem endpoints_splitProjection (p : Pattern) : p.splitProjection.2.endpoints = p.endpoints := by
  rw [endpoints_eq, clauses_splitProjection, endpoints_eq]

/-- The bodies of clauses are made of nodes of the pattern. -/
theorem nodes_of_mem_steps {p : Pattern} {c : Context} {k : Nat} {url : String} {b : Pattern}
    (h : .endpoint url b ∈ p.steps c k) : ∀ node ∈ b.nodes, node ∈ p.nodes := by
  induction p generalizing c k with
  | bgp triples =>
    obtain ⟨t, -, ht⟩ := List.mem_map.1 h
    unfold Step.ofTriple at ht
    split at ht <;> simp at ht
  | join left right ihl ihr =>
    intro node hn
    rw [nodes, List.mem_cons, List.mem_append]
    rcases List.mem_append.1 h with h | h
    · exact .inr (.inl (ihl h node hn))
    · exact .inr (.inr (ihr h node hn))
  | distinct inner ih => exact fun node hn => List.mem_cons_of_mem _ (ih h node hn)
  | reduced inner ih => exact fun node hn => List.mem_cons_of_mem _ (ih h node hn)
  | orderBy inner ih => exact fun node hn => List.mem_cons_of_mem _ (ih h node hn)
  | project inner names ih =>
    simp only [steps, List.mem_cons, reduceCtorEq, false_or] at h
    exact fun node hn => List.mem_cons_of_mem _ (ih h node hn)
  | service name inner ih =>
    cases name with
    | var name => simp [steps] at h
    | iri url' =>
      simp only [steps, List.mem_cons, Step.endpoint.injEq] at h
      rcases h with ⟨-, rfl⟩ | h
      · exact fun node hn => List.mem_cons_of_mem _ hn
      · exact fun node hn => List.mem_cons_of_mem _ (ih h node hn)
  | _ => simp [steps] at h

theorem basics_of_mem_steps {p : Pattern} {c : Context} {k : Nat} {url : String} {b : Pattern}
    (h : .endpoint url b ∈ p.steps c k) : ∀ triples ∈ b.basics, triples ∈ p.basics := by
  intro triples ht
  obtain ⟨node, hn, hbasic⟩ := List.mem_filterMap.1 ht
  exact List.mem_filterMap.2 ⟨node, nodes_of_mem_steps h node hn, hbasic⟩

theorem PlainNames.splitProjection {p : Pattern} (hn : p.PlainNames) :
    p.splitProjection.2.PlainNames := by
  rw [PlainNames, basics_splitProjection]
  exact hn

theorem PlainNames.of_mem_endpoints {p : Pattern} {c : Context} {k : Nat} (hn : p.PlainNames)
    {e : String × Pattern} (he : e ∈ Flattened.endpoints (p.steps c k)) : e.2.PlainNames := by
  refine Flattened.forall_endpoints (P := PlainNames) (fun left right hl hr triples ht => ?_)
    (fun url b hb triples ht => hn triples (basics_of_mem_steps hb triples ht)) e he
  rw [basics_join] at ht
  exact (List.mem_append.1 ht).elim (hl triples) (hr triples)

end Pattern

namespace Flattened

theorem forall_parts_of_body {read : Nat → Pattern → Flattened (ConjunctiveQuery Term)} {k : Nat}
    {projection : Option (List String)} {p : Pattern} {P : ConjunctiveQuery Term → Prop}
    (h : ∀ e ∈ endpoints (p.steps .root k), ∀ j q, (read j e.2).result = .ok q →
      ∀ part ∈ q.parts, P part) {q : ConjunctiveQuery Term}
    (hq : (body read k projection p).result = .ok q) (hP : P q) : ∀ part ∈ q.parts, P part := by
  intro part hpart
  obtain ⟨-, services, hs, rfl⟩ := body_result hq
  rw [ConjunctiveQuery.parts_eq] at hpart
  rcases List.mem_cons.1 hpart with rfl | hpart
  · exact hP
  · obtain ⟨s, hmem, hpart⟩ := ConjunctiveQuery.mem_partsOf.1 hpart
    obtain ⟨e, he, -, j, hread⟩ := exists_of_mem_services hs hmem
    exact h e he j _ hread part hpart

theorem nodup_services_of_body {read : Nat → Pattern → Flattened (ConjunctiveQuery Term)} {k : Nat}
    {projection : Option (List String)} {p : Pattern} {q : ConjunctiveQuery Term}
    (hq : (body read k projection p).result = .ok q) : (q.services.map Prod.fst).Nodup := by
  obtain ⟨-, services, hs, rfl⟩ := body_result hq
  show (services.map Prod.fst).Nodup
  rw [map_fst_services hs]
  exact nodup_endpoints _

theorem nodup_services_ofPattern (k : Nat) (p : Pattern) {q : ConjunctiveQuery Term}
    (hq : (ofPattern k p).result = .ok q) :
    ∀ part ∈ q.parts, (part.services.map Prod.fst).Nodup := by
  induction p using endpoint_induction generalizing k q with
  | pattern p ih =>
    rw [ofPattern_eq] at hq
    exact forall_parts_of_body (fun e he j _ => ih k e he j) hq (nodup_services_of_body hq)

/-- Whatever is read, no endpoint is sent two queries. -/
theorem nodup_services_ofQuery (k : Nat) (q : Query) {r : ConjunctiveQuery Term}
    (hr : (ofQuery k q).result = .ok r) :
    ∀ part ∈ r.parts, (part.services.map Prod.fst).Nodup := by
  unfold ofQuery at hr
  split at hr
  · exact nodup_services_ofPattern k q.pattern hr
  · rw [ofAsk_eq] at hr
    exact forall_parts_of_body (fun e _ j _ => nodup_services_ofPattern j e.2) hr
      (nodup_services_of_body hr)
  all_goals simp at hr

def AllRegular (f : Flattened (ConjunctiveQuery Term)) : Prop :=
  ∀ q, f.result = .ok q → ∀ part ∈ q.parts, part.Regular

theorem allRegular_body {read : Nat → Pattern → Flattened (ConjunctiveQuery Term)} {k : Nat}
    {projection : Option (List String)} {p : Pattern} (hn : p.PlainNames)
    (h : ∀ e ∈ endpoints (p.steps .root k), ∀ j, (read j e.2).AllRegular) :
    (body read k projection p).AllRegular := by
  intro q hq
  obtain ⟨-, -, hanswer⟩ := body_answers hq
  exact forall_parts_of_body h hq
    ⟨nodup_services_of_body hq, fun x hx => hn.of_mem_bound ((hanswer x).1 hx).1⟩

theorem allRegular_ofPattern (k : Nat) {p : Pattern} (hn : p.PlainNames) :
    (ofPattern k p).AllRegular := by
  induction p using endpoint_induction generalizing k with
  | pattern p ih =>
    have hinner : p.splitProjection.2.PlainNames := hn.splitProjection
    rw [ofPattern_eq]
    exact allRegular_body hinner fun e he j => ih k e he j (hinner.of_mem_endpoints he)

theorem allRegular_ofQuery (k : Nat) {q : Query} (hn : q.pattern.PlainNames) :
    (ofQuery k q).AllRegular := by
  unfold ofQuery
  split
  · exact allRegular_ofPattern k hn
  · rw [ofAsk_eq]
    exact allRegular_body hn fun e he j => allRegular_ofPattern j (hn.of_mem_endpoints he)
  all_goals
    intro r hr
    simp at hr

end Flattened

end QueryContainment
