import QueryContainment.Proofs.Check.Outcome
import QueryContainment.Proofs.Naming.Termination

namespace QueryContainment

namespace Check

open CheckM

/-- What a solver may reply to a formula, given the formulas that it was asked before. -/
abbrev Replies := List String → String → Except Smt.Failure String → Prop

mutual

/-- How the check of two queries ends, with the formulas that have been asked by then. -/
inductive Ends (replies : Replies) (n : Naming) : Multiplicity → ConjunctiveQuery Symbol →
    ConjunctiveQuery Symbol → List String → Except CheckError Verdict → List String → Prop
  | missing {mode : Multiplicity} {sub sup : ConjunctiveQuery Symbol} {asked : List String}
    {url : String} (missing : partners sub.services sup.services = .error url) :
    Ends replies n mode sub sup asked (.ok (missingEndpoint url)) asked
  | failed {mode : Multiplicity} {sub sup : ConjunctiveQuery Symbol} {asked asked' : List String}
    {found : List (ConjunctiveQuery Symbol)} {e : CheckError}
    (paired : partners sub.services sup.services = .ok found)
    (checks : AllEnd replies n sub.services found asked (.error e) asked') :
    Ends replies n mode sub sup asked (.error e) asked'
  | stopped {mode : Multiplicity} {sub sup : ConjunctiveQuery Symbol} {asked asked' : List String}
    {found : List (ConjunctiveQuery Symbol)} {url : String} {results : List (String × Verdict)}
    (paired : partners sub.services sup.services = .ok found)
    (checks : AllEnd replies n sub.services found asked (.ok (some url, results)) asked') :
    Ends replies n mode sub sup asked (.ok ((endpointNotContained url).withEndpoints results))
      asked'
  | incomparable {mode : Multiplicity} {sub sup : ConjunctiveQuery Symbol}
    {asked asked' : List String} {found : List (ConjunctiveQuery Symbol)}
    {results : List (String × Verdict)} {e : CheckError}
    (paired : partners sub.services sup.services = .ok found)
    (checks : AllEnd replies n sub.services found asked (.ok (none, results)) asked')
    (compared : comparable sub sup mode = .error e) :
    Ends replies n mode sub sup asked (.error e) asked'
  | decided {mode : Multiplicity} {sub sup : ConjunctiveQuery Symbol} {asked asked' : List String}
    {found : List (ConjunctiveQuery Symbol)} {results : List (String × Verdict)} {c : Bool}
    {reply : Except Smt.Failure String}
    (paired : partners sub.services sup.services = .ok found)
    (checks : AllEnd replies n sub.services found asked (.ok (none, results)) asked')
    (compared : comparable sub sup mode = .ok c)
    (replied : replies asked' (formula c sub sup n) reply) :
    Ends replies n mode sub sup asked
      (((reply >>= Smt.Answer.ofReply).mapError CheckError.solver).map fun answer =>
        (wholeVerdict c (formula c sub sup n) answer).withEndpoints results)
      (asked' ++ [formula c sub sup n])

/-- How the checks of services against their partners end, up to the first that is negative. -/
inductive AllEnd (replies : Replies) (n : Naming) : List (String × ConjunctiveQuery Symbol) →
    List (ConjunctiveQuery Symbol) → List String →
      Except CheckError (Option String × List (String × Verdict)) → List String → Prop
  | noService (partners : List (ConjunctiveQuery Symbol)) (asked : List String) :
    AllEnd replies n [] partners asked (.ok (none, [])) asked
  | noPartner (services : List (String × ConjunctiveQuery Symbol)) (asked : List String) :
    AllEnd replies n services [] asked (.ok (none, [])) asked
  | failed {url : String} {sub sup : ConjunctiveQuery Symbol}
    {rest : List (String × ConjunctiveQuery Symbol)} {partners : List (ConjunctiveQuery Symbol)}
    {asked asked' : List String} {e : CheckError}
    (first : Ends replies n .set sub sup asked (.error e) asked') :
    AllEnd replies n ((url, sub) :: rest) (sup :: partners) asked (.error e) asked'
  | stopped {url : String} {sub sup : ConjunctiveQuery Symbol}
    {rest : List (String × ConjunctiveQuery Symbol)} {partners : List (ConjunctiveQuery Symbol)}
    {asked asked' : List String} {v : Verdict}
    (first : Ends replies n .set sub sup asked (.ok v) asked') (negative : v.contained = false) :
    AllEnd replies n ((url, sub) :: rest) (sup :: partners) asked (.ok (some url, [(url, v)]))
      asked'
  | next {url : String} {sub sup : ConjunctiveQuery Symbol}
    {rest : List (String × ConjunctiveQuery Symbol)} {partners : List (ConjunctiveQuery Symbol)}
    {asked asked' asked'' : List String} {v : Verdict}
    {o : Except CheckError (Option String × List (String × Verdict))}
    (first : Ends replies n .set sub sup asked (.ok v) asked') (positive : v.contained = true)
    (others : AllEnd replies n rest partners asked' o asked'') :
    AllEnd replies n ((url, sub) :: rest) (sup :: partners) asked
      (o.map fun r => (r.1, (url, v) :: r.2)) asked''

end

variable {replies : Replies} {solver : Solver} {n : Naming} {mode : Multiplicity}
  {sub sup : ConjunctiveQuery Symbol} {asked : List String}

def concluded (solver : Solver) (n : Naming) (mode : Multiplicity)
    (sub sup : ConjunctiveQuery Symbol) :
    Except CheckError (Option String × List (String × Verdict)) × List String →
      Except CheckError Verdict × List String
  | (.error e, asked) => (.error e, asked)
  | (.ok (some url, results), asked) =>
    (.ok ((endpointNotContained url).withEndpoints results), asked)
  | (.ok (none, results), asked) =>
    match comparable sub sup mode with
    | .error e => (.error e, asked)
    | .ok c => ((reply solver asked (formula c sub sup n)).map fun answer =>
        (wholeVerdict c (formula c sub sup n) answer).withEndpoints results,
      asked ++ [formula c sub sup n])

theorem outcome_queries_of_missing {url : String}
    (hp : partners sub.services sup.services = .error url) :
    outcome (queries solver n mode sub sup) asked = (.ok (missingEndpoint url), asked) := by
  obtain ⟨atoms, answer, other, services⟩ := sub
  rw [queries, hp]
  rfl

theorem outcome_queries_of_paired {found : List (ConjunctiveQuery Symbol)}
    (hp : partners sub.services sup.services = .ok found) :
    outcome (queries solver n mode sub sup) asked =
      concluded solver n mode sub sup (outcome (endpoints solver n sub.services found) asked) := by
  obtain ⟨atoms, answer, other, services⟩ := sub
  rw [queries, hp]
  show outcome (endpoints solver n services found >>= _) asked = _
  rw [outcome_bind]
  rcases outcome (endpoints solver n services found) asked with ⟨_ | ⟨_ | url, results⟩, between⟩
  · rfl
  · show outcome (liftM (comparable _ sup mode) >>= _) between = _
    rw [outcome_bind, outcome_lift, concluded]
    cases comparable ⟨atoms, answer, other, services⟩ sup mode with
    | error e => rfl
    | ok c =>
      show outcome (whole solver c _ sup n >>= _) between = _
      rw [outcome_bind, outcome_whole]
      dsimp only
      cases reply solver between (formula c ⟨atoms, answer, other, services⟩ sup n) <;> rfl
  · rfl

theorem outcome_endpoints_cons (url : String) (rest : List (String × ConjunctiveQuery Symbol))
    (partners : List (ConjunctiveQuery Symbol)) :
    outcome (endpoints solver n ((url, sub) :: rest) (sup :: partners)) asked =
      match outcome (queries solver n .set sub sup) asked with
      | (.error e, between) => (.error e, between)
      | (.ok v, between) =>
        if v.contained then
          ((outcome (endpoints solver n rest partners) between).1.map fun r =>
            (r.1, (url, v) :: r.2), (outcome (endpoints solver n rest partners) between).2)
        else (.ok (some url, [(url, v)]), between) := by
  rw [endpoints, outcome_bind]
  rcases outcome (queries solver n .set sub sup) asked with ⟨_ | v, between⟩
  · rfl
  · cases hv : v.contained with
    | true =>
      simp only [hv, if_true, outcome_bind]
      rcases outcome (endpoints solver n rest partners) between with ⟨_ | _, _⟩ <;> rfl
    | false =>
      simp only [hv, Bool.false_eq_true, if_false]
      rfl

mutual

theorem ends_queries (hs : ∀ asked f, replies asked f (solver asked f)) (mode : Multiplicity) :
    ∀ (sub sup : ConjunctiveQuery Symbol) (asked : List String),
      Ends replies n mode sub sup asked (outcome (queries solver n mode sub sup) asked).1
        (outcome (queries solver n mode sub sup) asked).2
  | ⟨atoms, answer, other, services⟩, sup, asked => by
    cases hp : partners services sup.services with
    | error url =>
      rw [outcome_queries_of_missing hp]
      exact .missing hp
    | ok found =>
      have hchecks := allEnd_endpoints hs services found asked
      rw [outcome_queries_of_paired hp]
      generalize outcome (endpoints solver n services found) asked = run at hchecks ⊢
      obtain ⟨e | ⟨_ | url, results⟩, between⟩ := run
      · exact .failed hp hchecks
      · rw [concluded]
        cases hc : comparable ⟨atoms, answer, other, services⟩ sup mode with
        | error e => exact .incomparable hp hchecks hc
        | ok c => exact .decided hp hchecks hc (hs between _)
      · exact .stopped hp hchecks

theorem allEnd_endpoints (hs : ∀ asked f, replies asked f (solver asked f)) :
    ∀ (services : List (String × ConjunctiveQuery Symbol))
      (partners : List (ConjunctiveQuery Symbol)) (asked : List String),
      AllEnd replies n services partners asked
        (outcome (endpoints solver n services partners) asked).1
        (outcome (endpoints solver n services partners) asked).2
  | [], partners, asked => by
    rw [endpoints]
    · exact .noService partners asked
    · simp
  | (url, sub) :: rest, [], asked => by
    rw [endpoints]
    · exact .noPartner _ asked
    · simp
  | (url, sub) :: rest, sup :: partners, asked => by
    have hfirst := ends_queries hs .set sub sup asked
    have hothers := allEnd_endpoints hs rest partners
    rw [outcome_endpoints_cons]
    generalize outcome (queries solver n .set sub sup) asked = run at hfirst ⊢
    obtain ⟨e | v, between⟩ := run
    · exact .failed hfirst
    · cases hv : v.contained with
      | true =>
        simp only [hv, if_true]
        exact .next hfirst hv (hothers between)
      | false =>
        simp only [hv, Bool.false_eq_true, if_false]
        exact .stopped hfirst hv

end

mutual

/-- With a solver that replies nothing else, a check ends in no other way. -/
theorem Ends.outcome_eq (hs : ∀ asked f r, replies asked f r → solver asked f = r) :
    ∀ {mode : Multiplicity} {sub sup : ConjunctiveQuery Symbol} {asked asked' : List String}
      {o : Except CheckError Verdict}, Ends replies n mode sub sup asked o asked' →
      outcome (queries solver n mode sub sup) asked = (o, asked')
  | _, _, _, _, _, _, .missing hp => outcome_queries_of_missing hp
  | _, _, _, _, _, _, .failed hp h => by
    rw [outcome_queries_of_paired hp, AllEnd.outcome_eq hs h, concluded]
  | _, _, _, _, _, _, .stopped hp h => by
    rw [outcome_queries_of_paired hp, AllEnd.outcome_eq hs h, concluded]
  | _, _, _, _, _, _, .incomparable hp h hc => by
    rw [outcome_queries_of_paired hp, AllEnd.outcome_eq hs h, concluded, hc]
  | _, _, _, _, _, _, .decided hp h hc hr => by
    rw [outcome_queries_of_paired hp, AllEnd.outcome_eq hs h, concluded, hc, ← hs _ _ _ hr]
    rfl

theorem AllEnd.outcome_eq (hs : ∀ asked f r, replies asked f r → solver asked f = r) :
    ∀ {services : List (String × ConjunctiveQuery Symbol)}
      {partners : List (ConjunctiveQuery Symbol)} {asked asked' : List String}
      {o : Except CheckError (Option String × List (String × Verdict))},
      AllEnd replies n services partners asked o asked' →
      outcome (endpoints solver n services partners) asked = (o, asked')
  | _, _, _, _, _, .noService partners asked => by
    rw [endpoints]
    · rfl
    · simp
  | _, _, _, _, _, .noPartner services asked => by
    rw [endpoints]
    · rfl
    · simp
  | _, _, _, _, _, .failed h => by
    rw [outcome_endpoints_cons, Ends.outcome_eq hs h]
  | _, _, _, _, _, .stopped h hv => by
    simp only [outcome_endpoints_cons, Ends.outcome_eq hs h, hv, Bool.false_eq_true, if_false]
  | _, _, _, _, _, .next h hv hrest => by
    simp only [outcome_endpoints_cons, Ends.outcome_eq hs h, hv, if_true,
      AllEnd.outcome_eq hs hrest]

end

theorem exists_ends (hanswers : ∀ asked f, ∃ r, replies asked f r) (n : Naming)
    (mode : Multiplicity) (sub sup : ConjunctiveQuery Symbol) (asked : List String) :
    ∃ o asked', Ends replies n mode sub sup asked o asked' := by
  choose solver hsolver using hanswers
  exact ⟨_, _, ends_queries hsolver mode sub sup asked⟩

theorem ends_iff {o : Except CheckError Verdict} {asked' : List String} :
    Ends (fun asked f r => solver asked f = r) n mode sub sup asked o asked' ↔
      outcome (queries solver n mode sub sup) asked = (o, asked') := by
  refine ⟨fun h => h.outcome_eq fun _ _ _ hr => hr, fun h => ?_⟩
  have hends : Ends (fun asked f r => solver asked f = r) n mode sub sup asked _ _ :=
    ends_queries (fun _ _ => rfl) mode sub sup asked
  rwa [h] at hends

/--
Clauses are nested less deeply in each traversal that another one calls, although it may have more
nodes. With any table, each traversal is read to one outcome, that of a pattern being what is read
from it. If the solver may reply to each formula, the check of each two queries ends; and it ends
as it runs if the solver is a function.
-/
theorem reading_and_check_end :
    (∀ t t' : Traversal, t.Calls t' → t'.body.serviceDepth < t.body.serviceDepth) ∧
    (∃ t t' : Traversal, t.Calls t' ∧ t.body.nodes.length < t'.body.nodes.length) ∧
    (∀ (n : Naming) (t : Traversal),
      ∃! r : Except Rejection (ConjunctiveQuery Symbol) × Naming, n.ReadsTo t r.1 r.2) ∧
    (∀ (n : Naming) (p : Pattern),
      n.ReadsTo (.ofPattern p) (n.readPattern p).1 (n.readPattern p).2) ∧
    (∀ replies : Replies, (∀ asked f, ∃ r, replies asked f r) →
      ∀ (n : Naming) (mode : Multiplicity) (sub sup : ConjunctiveQuery Symbol)
        (asked : List String), ∃ o asked', Ends replies n mode sub sup asked o asked') ∧
    ∀ (solver : Solver) (n : Naming) (mode : Multiplicity) (sub sup : ConjunctiveQuery Symbol)
      (asked asked' : List String) (o : Except CheckError Verdict),
      Ends (fun asked f r => solver asked f = r) n mode sub sup asked o asked' ↔
        outcome (queries solver n mode sub sup) asked = (o, asked') := by
  refine ⟨fun t t' => Traversal.Calls.serviceDepth_lt, Traversal.exists_calls_more_nodes,
    fun n t => ?_, fun n p => ?_, fun replies => exists_ends, fun _ _ _ _ _ _ _ _ => ends_iff⟩
  · refine ⟨n.name (t.read n.scopes), n.readsTo_read t, fun r hr => ?_⟩
    obtain ⟨hresult, htable⟩ := hr.unique (n.readsTo_read t)
    exact Prod.ext hresult htable
  · have hread := n.readsTo_read (.ofPattern p)
    rwa [Traversal.read_ofPattern] at hread

/-- A solver that may reply one thing or another. -/
def undecided : Replies := fun _ _ r => r = .ok "sat" ∨ r = .ok "unsat"

/-- A clause inside a clause for the same endpoint is read, and the check of it ends. -/
theorem reading_and_check_end_clauseInItself : ∃ s,
    (Naming.empty.readPattern Traversal.clauseInItself).1 = .ok s ∧
      Naming.empty.ReadsTo (.ofPattern Traversal.clauseInItself) (.ok s)
        (Naming.empty.readPattern Traversal.clauseInItself).2 ∧
      ∃ o asked', Ends undecided (Naming.empty.readPattern Traversal.clauseInItself).2 .set s s []
        o asked' := by
  obtain ⟨-, -, -, hreads, hends, -⟩ := reading_and_check_end
  exact ⟨_, rfl, hreads Naming.empty Traversal.clauseInItself,
    hends undecided (fun _ _ => ⟨_, .inl rfl⟩) _ .set _ _ []⟩

end Check

end QueryContainment
