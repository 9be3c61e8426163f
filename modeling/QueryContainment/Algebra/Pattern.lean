import QueryContainment.Rdf.Triple

namespace QueryContainment

/--
The graph patterns of the query algebra. Filter conditions, sort keys, the expressions of bindings
and left joins, bounds, rows of values and path expressions are left out: no function on queries
reads them.
-/
inductive Pattern where
  | bgp (triples : List TriplePattern)
  | path (subject object : PatternTerm)
  | join (left right : Pattern)
  | leftJoin (left right : Pattern)
  | union (left right : Pattern)
  | minus (left right : Pattern)
  | filter (inner : Pattern)
  | graph (name : IriOrVar) (inner : Pattern)
  | extend (inner : Pattern) (name : String)
  | values (vars : List String)
  | orderBy (inner : Pattern)
  | distinct (inner : Pattern)
  | reduced (inner : Pattern)
  | slice (inner : Pattern)
  | project (inner : Pattern) (vars : List String)
  | group (inner : Pattern) (vars aggregates : List String)
  | service (name : IriOrVar) (inner : Pattern)
deriving DecidableEq, Repr

inductive QueryForm where
  | select
  | ask
  | construct
  | describe
deriving DecidableEq, Repr

structure Query where
  form : QueryForm
  pattern : Pattern
  /-- Whether there is a `FROM` or `FROM NAMED` clause. -/
  hasDataset : Bool
deriving DecidableEq, Repr

namespace Pattern

def children : Pattern → List Pattern
  | bgp _ | path .. | values _ => []
  | join left right | leftJoin left right | union left right | minus left right => [left, right]
  | filter inner | graph _ inner | extend inner _ | orderBy inner | distinct inner | reduced inner
  | slice inner | project inner _ | group inner .. | service _ inner => [inner]

/-- The nodes of a pattern in pre-order, left before right. -/
def nodes : Pattern → List Pattern
  | p@(bgp _) | p@(path ..) | p@(values _) => [p]
  | p@(join left right) | p@(leftJoin left right) | p@(union left right) | p@(minus left right) =>
    p :: (left.nodes ++ right.nodes)
  | p@(filter inner) | p@(graph _ inner) | p@(extend inner _) | p@(orderBy inner)
  | p@(distinct inner) | p@(reduced inner) | p@(slice inner) | p@(project inner _)
  | p@(group inner ..) | p@(service _ inner) => p :: inner.nodes

/-- How deep `SERVICE` clauses are nested in each other. -/
def serviceDepth : Pattern → Nat
  | bgp _ | path .. | values _ => 0
  | join left right | leftJoin left right | union left right | minus left right =>
    max left.serviceDepth right.serviceDepth
  | filter inner | graph _ inner | extend inner _ | orderBy inner | distinct inner | reduced inner
  | slice inner | project inner _ | group inner .. => inner.serviceDepth
  | service _ inner => inner.serviceDepth + 1

/--
The variables that are in scope, with repetitions, as the SPARQL standard defines it. A variable
that names a service is not counted.
-/
def inScope : Pattern → List String
  | bgp triples => triples.flatMap TriplePattern.vars
  | path subject object => subject.vars ++ object.vars
  | join left right | leftJoin left right | union left right => left.inScope ++ right.inScope
  | minus left _ => left.inScope
  | graph name inner => name.vars ++ inner.inScope
  | extend inner name => name :: inner.inScope
  | group _ vars aggregates => vars ++ aggregates
  | values vars | project _ vars => vars
  | filter inner | orderBy inner | distinct inner | reduced inner | slice inner
  | service _ inner => inner.inScope

end Pattern

end QueryContainment
