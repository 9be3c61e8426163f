import Mathlib.Algebra.Group.Nat.Defs
import QueryContainment.Proofs.Check.Evidence
import QueryContainment.Proofs.Check.SideBySide
import QueryContainment.Proofs.Naming.Services

namespace QueryContainment

open Naming ConjunctiveQuery

namespace Check

variable {n : Naming} {mode : Multiplicity} {s t : ConjunctiveQuery Symbol}

theorem length_of_partners {α : Type} {l l' : List (String × α)} {found : List α}
    (h : partners l l' = .ok found) : found.length = l.length := by
  induction l generalizing found with
  | nil =>
    obtain rfl := Except.ok.inj h
    rfl
  | cons e l ih =>
    obtain ⟨partner, rest, -, hr, rfl⟩ := of_partners_cons h
    rw [List.length_cons, List.length_cons, ih hr]

mutual

theorem length_visits : ∀ {mode : Multiplicity} {sub sup : ConjunctiveQuery Symbol},
    (∀ visit ∈ visits mode sub sup, visit.isMissing = false) →
      (visits mode sub sup).length = sub.parts.length
  | mode, ⟨atoms, answer, other, services⟩, sup, h => by
    unfold visits at h ⊢
    cases hp : partners services sup.services with
    | error url =>
      rw [hp] at h
      cases h _ List.mem_cons_self
    | ok found =>
      simp only [hp] at h ⊢
      have hservices := length_endpointVisits (length_of_partners hp)
        fun visit hvisit => h visit (List.mem_append_left _ hvisit)
      rw [List.length_append, hservices]
      rfl

theorem length_endpointVisits : ∀ {services : List (String × ConjunctiveQuery Symbol)}
    {found : List (ConjunctiveQuery Symbol)}, found.length = services.length →
      (∀ visit ∈ endpointVisits services found, visit.isMissing = false) →
      (endpointVisits services found).length = (partsOf services).length
  | [], [], _, _ => rfl
  | (_, sub) :: rest, sup :: found, hlength, h => by
    unfold endpointVisits at h ⊢
    have hfirst := length_visits fun visit hvisit => h visit (List.mem_append_left _ hvisit)
    have hrest := length_endpointVisits (Nat.succ.inj hlength)
      fun visit hvisit => h visit (List.mem_append_right _ hvisit)
    rw [List.length_append, hfirst, hrest, partsOf, List.length_append]

end

theorem length_formulasOf {l : List Visit} (h : ∀ visit ∈ l, visit.isMissing = false) :
    (formulasOf n l).length = l.length := by
  induction l with
  | nil => rfl
  | cons visit l ih =>
    cases visit with
    | missing url => cases h _ List.mem_cons_self
    | pair mode sub sup =>
      rw [formulasOf, List.length_cons, List.length_cons,
        ih fun visit hvisit => h visit (List.mem_cons_of_mem _ hvisit)]

theorem not_isMissing_of_throughoutServices
    {N : ConjunctiveQuery Symbol → ConjunctiveQuery Symbol → Prop}
    (h : ThroughoutServices N s.services t.services)
    (hnodup : ∀ part ∈ t.parts, (part.services.map Prod.fst).Nodup) :
    ∀ visit ∈ visits mode s t, visit.isMissing = false := by
  induction s using services_induction generalizing mode t with
  | h s ih =>
    refine (forall_visits_iff fun url => by simp [Visit.isMissing]).2 ⟨fun e he => ?_, rfl⟩
    obtain ⟨e', he', hurl, hee'⟩ := exists_of_mem_forall₂ (throughoutServices_iff.1 h) he
    refine ⟨e'.2, ?_, ih e he (throughoutServices_iff.2 (throughout_iff.1 hee').2) ?_⟩
    · rw [hurl]
      exact lookupLast_of_mem (hnodup t t.self_mem_parts) he'
    · exact fun part hpart => hnodup part (mem_parts_of_service he' hpart)

variable {q : Query}

theorem Reads.throughoutServices_self (h : Reads q q s t) :
    ThroughoutServices (fun _ _ => True) s.services t.services := by
  have hendpoints : Pattern.HoldsOfEndpoints Eq := by
    rintro p _ rfl
    exact List.forall₂_same.2 fun e _ => ⟨rfl, rfl⟩
  obtain ⟨⟨r, hr⟩, k, r', hr'⟩ := h.exists_readAs
  have hterms := Flattened.throughoutServices_ofQuery hendpoints rfl hr.read hr'.read
  exact (hr.throughoutServices hr' hterms).imp_mem fun _ _ _ _ _ => trivial

theorem Reads.length_plan_self (h : Reads q q s t) (n : Naming) (mode : Multiplicity) :
    (∀ visit ∈ visits mode s t, visit.isMissing = false) ∧
      (plan n mode s t).length = s.parts.length := by
  have hpairs : ∀ visit ∈ visits mode s t, visit.isMissing = false :=
    not_isMissing_of_throughoutServices h.throughoutServices_self
      (nodup_services_of_readQuery h.sup)
  exact ⟨hpairs, by rw [plan, length_formulasOf hpairs, length_visits hpairs]⟩

end Check

namespace Pattern

/-- Clauses nested in each other, the first of them outermost, around some triples. -/
def nested : List String → List TriplePattern → Pattern
  | [], triples => bgp triples
  | url :: urls, triples => service (.iri url) (nested urls triples)

theorem map_fst_clauses_nested (urls : List String) (triples : List TriplePattern) :
    (nested urls triples).clauses.map Prod.fst = urls := by
  induction urls with
  | nil =>
    rw [nested, clauses_bgp]
    rfl
  | cons url urls ih => rw [nested, clauses_service, List.map_cons, ih]

theorem endpoints_nested {urls : List String} (h : urls.Nodup) (triples : List TriplePattern) :
    (nested urls triples).endpoints = (nested urls triples).clauses := by
  rw [endpoints_eq]
  exact Flattened.foldl_addClause_of_nodup (by rwa [map_fst_clauses_nested])

theorem endpoints_nested_cons {url : String} {urls : List String} (h : (url :: urls).Nodup)
    (triples : List TriplePattern) : (nested (url :: urls) triples).endpoints =
      (url, nested urls triples) :: (nested urls triples).endpoints := by
  rw [endpoints_nested h, endpoints_nested (List.nodup_cons.1 h).2, nested, clauses_service]

end Pattern

open Pattern

namespace Naming

variable {n n' : Naming} {urls : List String} {triples : List TriplePattern}

/--
The services for nested clauses and the query that they belong to. The service for the outermost
clause has as many parts as the pattern in that clause, and the other services, which are those for
the clauses in it, have as many again, but for the query itself.
-/
theorem ReadInTurn.length_partsOf_nested (hurls : urls.Nodup)
    {services : List (String × ConjunctiveQuery Symbol)}
    (h : ReadInTurn n (nested urls triples).endpoints services n') :
    (partsOf services).length + 1 = 2 ^ urls.length := by
  induction urls generalizing n n' services with
  | nil =>
    rw [endpoints_nested hurls, nested, clauses_bgp] at h
    cases h
    rfl
  | cons url urls ih =>
    rw [endpoints_nested_cons hurls] at h
    have hrest := (List.nodup_cons.1 hurls).2
    cases h with
    | @next _ _ _ _ s _ services first others =>
      have hfirst : s.parts.length = 2 ^ urls.length := by
        rw [parts_eq, List.length_cons]
        exact ih hrest (readInTurn_readPattern first)
      have hothers : (partsOf services).length + 1 = 2 ^ urls.length := ih hrest others
      calc (partsOf ((url, s) :: services)).length + 1
          = s.parts.length + ((partsOf services).length + 1) := by
            rw [partsOf, List.length_append, Nat.add_assoc]
        _ = 2 ^ urls.length + 2 ^ urls.length := by rw [hfirst, hothers]
        _ = 2 ^ (url :: urls).length := by rw [List.length_cons, pow_succ, Nat.mul_two]

theorem length_parts_nested (hurls : urls.Nodup) {q : Query} (hq : q.inner = nested urls triples)
    {s : ConjunctiveQuery Symbol} (h : (n.readQuery q).1 = .ok s) :
    s.parts.length = 2 ^ urls.length := by
  have hread := readInTurn_readQuery h
  rw [← q.endpoints_inner, hq] at hread
  rw [parts_eq, List.length_cons, hread.length_partsOf_nested hurls]

end Naming

namespace Check

/--
A query of clauses for different endpoints, nested in each other around some triples, below the
final projection of a `SELECT` or in an `ASK`. Whatever was read before it, what is read of it has
two to the number of clauses parts. To check it with itself takes as many formulas, which are all
asked for if the solver refutes one after the other, and then the verdict is positive.
-/
theorem nested_clauses_cost {urls : List String} {triples : List TriplePattern}
    (hurls : urls.Nodup) {q : Query} (hq : q.inner = nested urls triples) {n : Naming}
    {s : ConjunctiveQuery Symbol} (hs : (n.readQuery q).1 = .ok s) :
    s.parts.length = 2 ^ urls.length ∧ ∃ formulas, formulas.length = 2 ^ urls.length ∧
      ∀ (solver : Solver) (asked : List String), Refutes solver asked formulas → ∃ v,
        CheckM.outcome (contained solver .set q q) asked = (.ok v, asked ++ formulas) ∧
          v.contained := by
  refine ⟨length_parts_nested hurls hq hs, ?_⟩
  obtain ⟨r, hr, -⟩ := name_eq_ok hs
  obtain ⟨s', t', hreads⟩ := exists_reads ⟨r, hr⟩ ⟨r, hr⟩
  obtain ⟨hpairs, hlength⟩ := hreads.length_plan_self (table q q) .set
  refine ⟨plan (table q q) .set s' t', ?_, fun solver asked hrefutes => ?_⟩
  · rw [hlength, length_parts_nested hurls hq hreads.sub]
  · rw [outcome_contained_set hreads]
    exact outcome_of_refutes (by decide) hpairs hrefutes

/-- Three steps, each taken at the next endpoint. -/
def threeSteps : Query :=
  ⟨.select, .distinct (.project (nested ["e", "f", "g"] [⟨.var "x", .iri "p", .var "y"⟩]) ["x"]),
    false⟩

/-- A solver that refutes everything. -/
def sure : Solver := fun _ _ => .ok "unsat"

theorem nested_clauses_cost_threeSteps : ∃ s, ((empty.add (.iri "e")).readQuery threeSteps).1 =
      .ok s ∧ s.parts.length = 8 ∧ ∃ formulas, formulas.length = 8 ∧ ∃ v,
        CheckM.outcome (contained sure .set threeSteps threeSteps) [] = (.ok v, formulas) ∧
          v.contained := by
  obtain ⟨s, hs⟩ : ∃ s, ((empty.add (.iri "e")).readQuery threeSteps).1 = .ok s := ⟨_, rfl⟩
  have hurls : ["e", "f", "g"].Nodup := by decide
  obtain ⟨hparts, formulas, hlength, hrun⟩ := nested_clauses_cost hurls (q := threeSteps) rfl hs
  exact ⟨s, hs, hparts, formulas, hlength, hrun sure [] fun _ _ _ _ => rfl⟩

end Check

end QueryContainment
