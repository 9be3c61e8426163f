import QueryContainment.Algebra.Rejection
import QueryContainment.Conjunctive.Query
import QueryContainment.Naming.Table

namespace QueryContainment

structure SubSelect where
  scope : Nat
  listed : List String
deriving DecidableEq, Repr

/-- Where a node stands: in which graph, and below which sub-selects, the innermost first. -/
structure Context where
  graph : Option String
  subSelects : List SubSelect
deriving DecidableEq, Repr

namespace Context

def root : Context := ⟨none, []⟩

/-- The scope of the innermost sub-select that does not list the variable. -/
def hiddenIn (c : Context) (name : String) : Option Nat :=
  (c.subSelects.find? (!·.listed.contains name)).map (·.scope)

/-- Renames a variable that a sub-select hides, so that it joins with nothing outside. -/
def rename (c : Context) : Term → Term
  | .var name =>
    match c.hiddenIn name with
    | some k => .var (Naming.scopedName name (Naming.scopeName k))
    | none => .var name
  | t => t

end Context

/-- A step in reading a pattern, whose nodes are taken in pre-order. -/
inductive Step where
  /-- An atom, with the variables of its triple that are visible outside all sub-selects. -/
  | atom (atom : Atom Term) (visible : List String)
  | endpoint (url : String) (body : Pattern)
  | newScope
  | reject (reason : Rejection)
deriving DecidableEq, Repr

namespace Step

def rejection? : Step → Option Rejection
  | reject reason => some reason
  | _ => none

/-- The terms that a step gives a name to, in that order. -/
def terms : Step → List Term
  | atom a _ => a.toList
  | endpoint url _ => [.iri url]
  | _ => []

def atom? : Step → Option (Atom Term)
  | atom a _ => some a
  | _ => none

def visible : Step → List String
  | atom _ names => names
  | _ => []

def isNewScope : Step → Bool
  | newScope => true
  | _ => false

def clause? : Step → Option (String × Pattern)
  | endpoint url body => some (url, body)
  | _ => none

def ofTriple (c : Context) (t : TriplePattern) : Step :=
  match t.terms with
  | .ok terms =>
    let renamed := terms.map c.rename
    .atom ⟨renamed.subject, renamed.predicate, renamed.object, c.graph.map .iri⟩
      ((terms.toList.filterMap Term.varName?).filter fun name => (c.hiddenIn name).isNone)
  | .error reason => .reject reason

/-- How many scopes a list of steps opens. -/
def scopes (steps : List Step) : Nat := steps.countP isNewScope

end Step

namespace Pattern

/-- The steps of a pattern, whose first sub-select opens scope `k`. -/
def steps (c : Context) (k : Nat) : Pattern → List Step
  | bgp triples => triples.map (Step.ofTriple c)
  | join left right =>
    let before := left.steps c k
    before ++ right.steps c (k + Step.scopes before)
  | distinct inner | reduced inner | orderBy inner => inner.steps c k
  | project inner names =>
    .newScope :: inner.steps { c with subSelects := ⟨k, names⟩ :: c.subSelects } (k + 1)
  | service (.iri url) inner => .endpoint url inner :: inner.steps { c with graph := some url } k
  | service (.var name) _ => [.reject (.variableEndpoint name)]
  | path .. => [.reject (.unsupported .path)]
  | leftJoin .. => [.reject (.unsupported .optional)]
  | union .. => [.reject (.unsupported .union)]
  | minus .. => [.reject (.unsupported .minus)]
  | filter _ => [.reject (.unsupported .filter)]
  | extend .. => [.reject (.unsupported .bind)]
  | values _ => [.reject (.unsupported .values)]
  | group .. => [.reject (.unsupported .group)]
  | slice _ => [.reject (.unsupported .slice)]
  | graph .. => [.reject (.unsupported .graph)]

/-- The final projection, below modifiers only, and what it is a projection of. -/
def splitProjection : Pattern → Option (List String) × Pattern
  | distinct inner | reduced inner | orderBy inner => inner.splitProjection
  | project inner names => (some names, inner)
  | p => (none, p)

end Pattern

end QueryContainment
