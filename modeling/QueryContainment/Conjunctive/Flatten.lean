import QueryContainment.Conjunctive.Step
import QueryContainment.Distinct

namespace QueryContainment

/-- The outcome of reading a pattern, or the part of it before the first node that is rejected. -/
structure Flattened (α : Type) where
  /-- The terms in the order in which they are met. -/
  terms : List Term
  /-- How many scopes were opened. -/
  scopes : Nat
  result : Except Rejection α

namespace Flattened

/-- Joins a clause to those for the same endpoint; a new endpoint comes last. -/
def addClause (clause : String × Pattern) : List (String × Pattern) → List (String × Pattern)
  | [] => [clause]
  | (url, joined) :: rest =>
    if url = clause.1 then (url, .join joined clause.2) :: rest
    else (url, joined) :: addClause clause rest

/-- The endpoints in the order of their first clause, each with the join of all its clauses. -/
def endpoints (steps : List Step) : List (String × Pattern) :=
  (steps.filterMap Step.clause?).foldl (fun l c => addClause c l) []

/-- Reads the bodies of the endpoints one after the other, as `read` reads one of them. -/
def services {α : Type} (read : Nat → Pattern → Flattened α) :
    Nat → List (String × Pattern) → Flattened (List (String × α))
  | _, [] => ⟨[], 0, .ok []⟩
  | k, (url, body) :: rest =>
    let first := read k body
    match first.result with
    | .error reason => ⟨first.terms, first.scopes, .error reason⟩
    | .ok q =>
      let others := services read (k + first.scopes) rest
      ⟨first.terms ++ others.terms, first.scopes + others.scopes, others.result.map ((url, q) :: ·)⟩

/-- Reads the body of a projection, given how the bodies of its endpoints are read. -/
def body (read : Nat → Pattern → Flattened (ConjunctiveQuery Term)) (k : Nat)
    (projection : Option (List String)) (p : Pattern) : Flattened (ConjunctiveQuery Term) :=
  let steps := p.steps .root k
  let done := steps.takeWhile (·.rejection?.isNone)
  let terms := done.flatMap Step.terms
  let scopes := Step.scopes done
  match steps.findSome? Step.rejection? with
  | some reason => ⟨terms, scopes, .error reason⟩
  | none =>
    let remote := services read (k + scopes) (endpoints steps)
    ⟨terms ++ remote.terms, scopes + remote.scopes, remote.result.map fun services =>
      .ofUsed (steps.filterMap Step.atom?) (Distinct.ofList (steps.flatMap Step.visible))
        projection services⟩

/-- Reads a pattern in which no more than `depth` clauses are nested in each other. -/
def ofDepth : Nat → Nat → Pattern → Flattened (ConjunctiveQuery Term)
  | 0, k, p =>
    let (projection, inner) := p.splitProjection
    body (fun _ _ => ⟨[], 0, .ok ⟨[], [], [], []⟩⟩) k projection inner
  | depth + 1, k, p =>
    let (projection, inner) := p.splitProjection
    body (ofDepth depth) k projection inner

/--
Reads a pattern, whose outermost projection makes the answer; `k` scopes are open already. The
bodies of its clauses are nested less deeply, so its depth bounds the recursion.
-/
def ofPattern (k : Nat) (p : Pattern) : Flattened (ConjunctiveQuery Term) :=
  ofDepth p.serviceDepth k p

/-- Reads a pattern that is only asked for whether it has a solution; the answer is empty. -/
def ofAsk (k : Nat) (p : Pattern) : Flattened (ConjunctiveQuery Term) :=
  body (ofDepth p.serviceDepth) k none p

/-- Reads a query. Only `SELECT` and `ASK` over the default dataset are in the fragment. -/
def ofQuery (k : Nat) (q : Query) : Flattened (ConjunctiveQuery Term) :=
  match q.form, q.hasDataset with
  | .select, false => ofPattern k q.pattern
  | .ask, false => ofAsk k q.pattern
  | .select, true | .ask, true => ⟨[], 0, .error (.unsupported .dataset)⟩
  | .construct, _ => ⟨[], 0, .error (.unsupported .constructForm)⟩
  | .describe, _ => ⟨[], 0, .error (.unsupported .describeForm)⟩

end Flattened

namespace Naming

/--
Names the terms of a pattern and puts the names in their place. What was met before a rejection
keeps its name.
-/
def name (n : Naming) (f : Flattened (ConjunctiveQuery Term)) :
    Except Rejection (ConjunctiveQuery Symbol) × Naming :=
  let named := { n.addAll f.terms with scopes := n.scopes + f.scopes }
  (f.result.map (·.map named.symbol), named)

def readPattern (n : Naming) (p : Pattern) : Except Rejection (ConjunctiveQuery Symbol) × Naming :=
  n.name (.ofPattern n.scopes p)

def readQuery (n : Naming) (q : Query) : Except Rejection (ConjunctiveQuery Symbol) × Naming :=
  n.name (.ofQuery n.scopes q)

end Naming

end QueryContainment
