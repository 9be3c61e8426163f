import QueryContainment.Proofs.Check.Plan

namespace QueryContainment

def Solver.refuting : Solver := fun _ _ => .ok "unsat"

namespace Check

open CheckM

variable {solver : Solver} {n : Naming} {mode mode' : Multiplicity}
  {sub sup s t : ConjunctiveQuery Symbol} {asked last : List String} {v : Verdict}

theorem outcome_queries_congr (h : comparable sub sup mode = comparable sub sup mode') :
    outcome (queries solver n mode sub sup) asked =
      outcome (queries solver n mode' sub sup) asked := by
  obtain ⟨atoms, answer, other, services⟩ := sub
  unfold queries
  simp only [h]

theorem none_missing_of_endpoints {services : List (String × ConjunctiveQuery Symbol)}
    {found : List (ConjunctiveQuery Symbol)} {results : List (String × Verdict)}
    (h : outcome (endpoints solver n services found) asked = (.ok (none, results), last)) :
    (endpointVisits services found).any Visit.isMissing = false := by
  have hjudged := congrArg Prod.fst (judged_endpoints solver n services found asked)
  have htrue : (run solver n (endpointVisits services found) asked).1 = .ok true := by
    rw [← hjudged, h]
    rfl
  rcases run_spec solver n (endpointVisits services found) asked with
    ⟨-, hrun⟩ | ⟨before, next, after, -, -, -, hrun⟩
  · simpa [hrun] using htrue
  · rw [hrun] at htrue
    cases hr : reply solver (asked ++ before) next <;> simp [hr, Except.map] at htrue

theorem outcome_queries_of_cut (h : planIsCut mode sub sup) :
    outcome (queries solver n mode sub sup) asked =
      outcome (queries solver n mode' sub sup) asked := by
  obtain ⟨atoms, answer, other, services⟩ := sub
  unfold queries
  rw [planIsCut, visits] at h
  cases hp : partners services sup.services with
  | error url => rfl
  | ok found =>
    have hcut : (endpointVisits services found).any Visit.isMissing := by
      simpa [hp, Visit.isMissing] using h
    simp only [outcome_bind]
    cases hrun : outcome (endpoints solver n services found) asked with
    | mk result between =>
      cases result with
      | error e => rfl
      | ok checked =>
        obtain ⟨failed, results⟩ := checked
        cases failed with
        | some url => rfl
        | none => exact absurd hcut (by simp [none_missing_of_endpoints hrun])

theorem isNone_justification_of_contained
    (h : outcome (queries solver n mode sub sup) asked = (.ok v, last)) (hv : v.contained) :
    v.justification.isNone = compatible sub sup mode := by
  cases concludes_of_outcome h with
  | missing => cases hv
  | stopped => cases hv
  | @decided found results between c answer _ _ hc _ =>
    obtain rfl : c = compatible sub sup mode := by
      cases mode with
      | bag => cases hc
      | _ => exact (Except.ok.inj hc).symm
    cases compatible sub sup mode <;> rfl

theorem reply_refuting (asked : List String) (f : String) :
    reply .refuting asked f = .ok .unsat := rfl

theorem outcome_queries_congr_iff (hmode : mode ≠ .bag) (hmode' : mode' ≠ .bag) :
    (∀ solver asked, outcome (queries solver n mode sub sup) asked =
      outcome (queries solver n mode' sub sup) asked) ↔
    (planIsCut mode sub sup = false → compatible sub sup mode = compatible sub sup mode') := by
  constructor
  · intro hsame hcut
    have hpairs : ∀ visit ∈ visits mode sub sup, visit.isMissing = false := fun visit hvisit => by
      simpa using List.any_eq_false.1 hcut visit hvisit
    obtain ⟨v, hv, hcontained⟩ : ∃ v,
        (outcome (queries .refuting n mode sub sup) []).1 = .ok v ∧ v.contained :=
      contained_of_refuted hmode hpairs fun f _ asked => reply_refuting asked f
    have hrun : outcome (queries .refuting n mode sub sup) [] = (.ok v, _) := Prod.ext hv rfl
    have hrun' := (hsame .refuting []).symm.trans hrun
    exact (isNone_justification_of_contained hrun hcontained).symm.trans
      (isNone_justification_of_contained hrun' hcontained)
  · intro hcompatible solver asked
    cases hcut : planIsCut mode sub sup with
    | true => exact outcome_queries_of_cut hcut
    | false =>
      refine outcome_queries_congr ?_
      rw [comparable_eq hmode, comparable_eq hmode', hcompatible hcut]

theorem compatible_set_eq_bagSet_iff : compatible s t .set = compatible s t .bagSet ↔
    (s.sameAnswer t → ∀ x ∈ s.vars, x ∈ t.vars) := by
  rw [compatible, compatible, ConjunctiveQuery.sameAnswerAndVariables]
  cases s.sameAnswer t <;> simp

theorem outcome_contained_bagSet {q q' : Query} (hreads : Reads q q' s t) :
    outcome (contained solver .bagSet q q') asked = outcome (queries solver (table q q')
      (if q.dropsVariable then .bagSet else .set) s t) asked :=
  outcome_contained_of_effective rfl hreads

/--
Counting the solutions of the super-query is the same check as that on sets exactly if, in case that
the sub-query drops a variable and the answers can be compared, the super-query uses all variables
of the sub-query.
-/
theorem outcome_contained_bagSet_iff {q q' : Query} (hreads : Reads q q' s t) :
    (∀ solver asked, outcome (contained solver .bagSet q q') asked =
      outcome (contained solver .set q q') asked) ↔
    (q.dropsVariable → planIsCut .set s t = false → s.sameAnswer t → ∀ x ∈ s.vars, x ∈ t.vars) := by
  simp only [outcome_contained_bagSet hreads, outcome_contained_set hreads]
  cases q.dropsVariable with
  | true =>
    rw [if_pos rfl, forall₂_congr fun solver asked => eq_comm,
      outcome_queries_congr_iff (by decide) (by decide), compatible_set_eq_bagSet_iff]
    exact ⟨fun h _ => h, fun h => h rfl⟩
  | false => simp

end Check

end QueryContainment
