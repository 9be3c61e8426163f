import QueryContainment.Algebra.Walk
import QueryContainment.Check.Pairing
import QueryContainment.Check.Multiplicity
import QueryContainment.Check.Verdict
import QueryContainment.Conjunctive.Flatten
import QueryContainment.Smt.Answer
import QueryContainment.Smt.Countermodel
import QueryContainment.Sparql.Text

namespace QueryContainment

inductive CheckError where
  | malformedText
  | bagSemantics
  | outside (reason : Rejection)
  | solver (failure : Smt.Failure)
deriving DecidableEq, Repr

def CheckError.message : CheckError → String
  | .malformedText => "The text is not a SPARQL query"
  | .bagSemantics => "Containment under BAG semantics is not implemented"
  | .outside reason => reason.message
  | .solver failure => failure.message

/-- What a solver replies to a formula, given the formulas that it was asked before. -/
abbrev Solver := List String → String → Except Smt.Failure String

/-- A run that asks a solver; the formulas asked so far outlive an error. -/
abbrev CheckM := ExceptT CheckError (StateM (List String))

namespace Check

def ask (solver : Solver) (formula : String) : CheckM Smt.Answer := do
  let asked ← get
  set (asked ++ [formula])
  match solver asked formula >>= Smt.Answer.ofReply with
  | .ok answer => return answer
  | .error failure => throw (.solver failure)

def missingEndpoint (url : String) : Verdict :=
  .refusal ("The super-query has no SERVICE clause for the endpoint <" ++ url ++ ">")

def endpointNotContained (url : String) : Verdict :=
  .refusal ("The SERVICE clause for the endpoint <" ++ url ++ "> is not contained")

def differentAnswers : String :=
  "The queries project different variables. "
    ++ "Hence, the sub-query is only contained if it has no answer."

/--
The formula that has no model if `sub` is contained in `sup`. Where the answers cannot be compared,
only a query without solutions is contained.
-/
def formula (comparable : Bool) (sub sup : ConjunctiveQuery Symbol) (n : Naming) : String :=
  Smt.formulaText (if comparable then Smt.countermodel sub sup n else Smt.solvability sub)

/-- Asks the solver about two queries as a whole. -/
def whole (solver : Solver) (comparable : Bool) (sub sup : ConjunctiveQuery Symbol) (n : Naming) :
    CheckM Verdict := do
  let formula := formula comparable sub sup n
  let verdict := Verdict.ofAnswer ((← ask solver formula) = .unsat) formula
  return if comparable then verdict else verdict.because differentAnswers

/-- Whether the answers can be compared; there is no such notion for bags. -/
def comparable (sub sup : ConjunctiveQuery Symbol) : Multiplicity → Except CheckError Bool
  | .set => .ok (sub.sameAnswer sup)
  | .bagSet => .ok (sub.sameAnswerAndVariables sup)
  | .bag => .error .bagSemantics

mutual

/--
Checks two queries whose terms were named by `n`: first their services, and then the queries as a
whole. A service that is not contained ends the check.
-/
def queries (solver : Solver) (n : Naming) (mode : Multiplicity) :
    ConjunctiveQuery Symbol → ConjunctiveQuery Symbol → CheckM Verdict
  | ⟨atoms, answer, other, services⟩, sup => do
    match partners services sup.services with
    | .error url => return missingEndpoint url
    | .ok partners =>
      let (failed, results) ← endpoints solver n services partners
      match failed with
      | some url => return (endpointNotContained url).withEndpoints results
      | none =>
        let sub := ⟨atoms, answer, other, services⟩
        let verdict ← whole solver (← comparable sub sup mode) sub sup n
        return verdict.withEndpoints results

/--
Checks services against their partners, as sets, up to the first one that is not contained, which
is named in front of the verdicts.
-/
def endpoints (solver : Solver) (n : Naming) :
    List (String × ConjunctiveQuery Symbol) → List (ConjunctiveQuery Symbol) →
      CheckM (Option String × List (String × Verdict))
  | (url, sub) :: rest, sup :: partners => do
    let verdict ← queries solver n .set sub sup
    if verdict.contained then
      let (failed, results) ← endpoints solver n rest partners
      return (failed, (url, verdict) :: results)
    else return (some url, [(url, verdict)])
  | _, _ => return (none, [])

end

/-- A sub-query without projection drops nothing, so that it may be checked as a set. -/
def effective (sub : Query) : Multiplicity → Except CheckError Multiplicity
  | .bag => .error .bagSemantics
  | .bagSet => .ok (if sub.dropsVariable then .bagSet else .set)
  | .set => .ok .set

/-- Reads both queries with one table of names and checks them. -/
def read (solver : Solver) (mode : Multiplicity) (sub sup : Query) : CheckM Verdict := do
  let (sub, n) := Naming.empty.readQuery sub
  let sub ← (sub.mapError .outside : Except CheckError _)
  let (sup, n) := n.readQuery sup
  let sup ← (sup.mapError .outside : Except CheckError _)
  queries solver n mode sub sup

/-- Whether `sub` is contained in `sup`, counting solutions as `mode` says. -/
def contained (solver : Solver) (mode : Multiplicity) (sub sup : Query) : CheckM Verdict := do
  read solver (← effective sub mode) sub sup

def readText (text : String) : Except CheckError Query :=
  match Sparql.ofText? text with
  | some q => .ok q
  | none => .error .malformedText

/--
Whether the query of a text is contained in that of another; both are read before all else. Apart
from that reading it is `contained`.
-/
def containedText (solver : Solver) (mode : Multiplicity) (sub sup : String) : CheckM Verdict := do
  let sub ← readText sub
  let sup ← readText sup
  contained solver mode sub sup

end Check

end QueryContainment
