import QueryContainment.Algebra.Pattern

namespace QueryContainment

/-- What a query may hold that a conjunctive query cannot express. -/
inductive Construct where
  | dataset
  | constructForm
  | describeForm
  | path
  | optional
  | union
  | minus
  | filter
  | bind
  | values
  | group
  | slice
  | graph
deriving DecidableEq, Repr

inductive Rejection where
  | quotedTriple (triple : TriplePattern)
  | unsupported (construct : Construct)
  | variableEndpoint (name : String)
deriving DecidableEq, Repr

def Construct.label : Construct → String
  | .dataset => "FROM"
  | .constructForm => "CONSTRUCT query"
  | .describeForm => "DESCRIBE query"
  | .path => "property path"
  | .optional => "OPTIONAL"
  | .union => "UNION"
  | .minus => "MINUS"
  | .filter => "FILTER"
  | .bind => "BIND"
  | .values => "VALUES"
  | .group => "GROUP BY"
  | .slice => "LIMIT/OFFSET"
  | .graph => "GRAPH"

def Rejection.message : Rejection → String
  | .quotedTriple triple =>
    "The term " ++ triple.text ++ " is not an IRI, a literal, a variable or a blank node"
  | .unsupported construct =>
    "The graph pattern " ++ construct.label ++ " is not supported by the containment check"
  | .variableEndpoint name => "The SERVICE endpoint ?" ++ name ++ " is not an IRI"

/-- Refuses a quoted triple. -/
def Term.ofPattern : PatternTerm → Except Rejection Term
  | .iri value => .ok (.iri value)
  | .literal value => .ok (.literal value)
  | .var name => .ok (.var name)
  | .blank label => .ok (.blank label)
  | .quoted subject predicate object => .error (.quotedTriple ⟨subject, predicate, object⟩)

/-- The terms of a triple pattern. Of a quoted subject and object the subject is refused. -/
def TriplePattern.terms (t : TriplePattern) : Except Rejection (Triple Term) := do
  let subject ← Term.ofPattern t.subject
  let object ← Term.ofPattern t.object
  return ⟨subject, .ofIriOrVar t.predicate, object⟩

end QueryContainment
