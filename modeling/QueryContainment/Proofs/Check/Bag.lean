import QueryContainment.Proofs.Check.Federation

namespace QueryContainment

open ConjunctiveQuery

namespace Check

open CheckM

variable {solver : Solver} {n : Naming} {sub sup : ConjunctiveQuery Symbol} {asked : List String}
  {v : Verdict}

/-- The pairs of the services of two queries, with what comes before each of them. -/
def serviceVisits (sub sup : ConjunctiveQuery Symbol) : List Visit :=
  match partners sub.services sup.services with
  | .error url => [.missing url]
  | .ok found => endpointVisits sub.services found

/-- The end of a check, once its services have been gone through, if solutions are to be counted. -/
def refused : Except CheckError Bool × List String → Except CheckError Bool × List String
  | (.ok true, asked) => (.error .bagSemantics, asked)
  | (result, asked) => (result, asked)

theorem judged_queries_bag (solver : Solver) (n : Naming) (sub sup : ConjunctiveQuery Symbol)
    (asked : List String) :
    judged (·.contained) (outcome (queries solver n .bag sub sup) asked) =
      refused (run solver n (serviceVisits sub sup) asked) := by
  obtain ⟨atoms, answer, other, services⟩ := sub
  unfold queries serviceVisits
  cases partners services sup.services with
  | error url => rfl
  | ok found =>
    rw [← judged_endpoints solver n services found asked]
    simp only [outcome_bind]
    cases outcome (endpoints solver n services found) asked with
    | mk result between =>
      cases result with
      | error e => rfl
      | ok checked =>
        obtain ⟨failed, results⟩ := checked
        cases failed <;> rfl

theorem refusal_of_bag {asked' : List String}
    (h : outcome (queries solver n .bag sub sup) asked = (.ok v, asked')) :
    v.contained = false ∧ v.formula = none ∧ v.justification.isSome := by
  cases concludes_of_outcome h with
  | missing => exact ⟨rfl, rfl, rfl⟩
  | stopped => exact ⟨rfl, rfl, rfl⟩
  | decided _ _ hcompared _ => cases hcompared

/--
Whatever the solver replies, and whatever it was asked before. Two queries are refused without a
call, whether they can be read or not. A check of any two queries that have been read goes through
the pairs of their services as sets, and is refused where it would come to the queries themselves;
if it ends before, with a verdict, this is negative and has no formula. Without services it is
refused without a call.
-/
theorem bag_refused (solver : Solver) (n : Naming) (sub sup : ConjunctiveQuery Symbol)
    (asked : List String) :
    (∀ q q' : Query, outcome (contained solver .bag q q') asked = (.error .bagSemantics, asked)) ∧
    judged (·.contained) (outcome (queries solver n .bag sub sup) asked) =
      refused (run solver n (serviceVisits sub sup) asked) ∧
    (∀ v, (outcome (queries solver n .bag sub sup) asked).1 = .ok v →
      v.contained = false ∧ v.formula = none ∧ v.justification.isSome) ∧
    (sub.services = [] →
      outcome (queries solver n .bag sub sup) asked = (.error .bagSemantics, asked)) := by
  refine ⟨fun q q' => rfl, judged_queries_bag solver n sub sup asked, fun v hv => ?_, fun hs => ?_⟩
  · exact refusal_of_bag (Prod.ext hv rfl)
  · rw [outcome_queries_of_no_services hs]
    rfl

theorem bag_refused_stepThere :
    outcome (contained slow .bag remoteSubjects remotePaths) ["asked"] =
      (.error .bagSemantics, ["asked"]) ∧
    outcome (queries slow .empty .bag stepThere remoteStep) ["asked"] =
      (.error .bagSemantics, ["asked"]) := by
  obtain ⟨hqueries, -, -, hcheck⟩ := bag_refused slow .empty stepThere remoteStep ["asked"]
  exact ⟨hqueries remoteSubjects remotePaths, hcheck rfl⟩

/-- A solver that finds a model of each formula. -/
def satisfied : Solver := fun _ _ => .ok "sat"

/--
With an endpoint, the solver is asked, and there is a negative verdict or an error of the solver.
Where the endpoint is missing, there is a negative verdict without a call.
-/
theorem bag_not_refused_at_once :
    (∃ s t, Reads remoteSubjects remoteSubjects s t ∧
      (∃ v formula, outcome (queries satisfied (table remoteSubjects remoteSubjects) .bag s t) [] =
        (.ok v, [formula]) ∧ v.contained = false) ∧
      ∃ formula, outcome (queries slow (table remoteSubjects remoteSubjects) .bag s t) [] =
        (.error (.solver (.timeout 1000)), [formula])) ∧
    ∃ s t, Reads remoteSubjects subjects s t ∧
      ∃ v, outcome (queries slow (table remoteSubjects subjects) .bag s t) [] = (.ok v, []) ∧
        v.contained = false :=
  ⟨⟨_, _, ⟨rfl, rfl⟩, ⟨_, _, rfl, rfl⟩, _, rfl⟩, _, _, ⟨rfl, rfl⟩, _, rfl, rfl⟩

end Check

end QueryContainment
