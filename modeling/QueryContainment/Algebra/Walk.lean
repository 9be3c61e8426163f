import QueryContainment.Algebra.Pattern
import QueryContainment.Sorted

namespace QueryContainment

namespace Pattern

/--
Visits a pattern and its descendants in pre-order. The visitor carries a state along and tells for
each node whether its children are visited.
-/
def walk {σ : Type} (visit : Pattern → σ → Bool × σ) : Pattern → σ → σ
  | p@(bgp _), s | p@(path ..), s | p@(values _), s => (visit p s).2
  | p@(join left right), s | p@(leftJoin left right), s
  | p@(union left right), s | p@(minus left right), s =>
    match visit p s with
    | (true, s) => right.walk visit (left.walk visit s)
    | (false, s) => s
  | p@(filter inner), s | p@(graph _ inner), s | p@(extend inner _), s | p@(orderBy inner), s
  | p@(distinct inner), s | p@(reduced inner), s | p@(slice inner), s | p@(project inner _), s
  | p@(group inner ..), s | p@(service _ inner), s =>
    match visit p s with
    | (true, s) => inner.walk visit s
    | (false, s) => s

def isPath : Pattern → Bool
  | path .. => true
  | _ => false

def nodeVariables : Pattern → List String
  | bgp triples => triples.flatMap TriplePattern.positionVariables
  | path subject object => subject.varName?.toList ++ object.varName?.toList
  | _ => []

/-- Whether the outermost projection, below modifiers only, drops a variable that is in scope. -/
def dropsVariable : Pattern → Bool
  | distinct inner | reduced inner | orderBy inner | slice inner => inner.dropsVariable
  | project inner vars => inner.inScope.any (!vars.contains ·)
  | _ => false

end Pattern

namespace Query

/-- `SELECT *` and a `SELECT` of every variable in scope have no projection in this sense. -/
def dropsVariable (q : Query) : Bool := q.pattern.dropsVariable

/-- The variables of the triples and paths of the whole query, in ascending order. -/
def vars (q : Query) : List String :=
  Sorted.strings (q.pattern.walk (fun p seen => (true, seen ++ p.nodeVariables)) [])

/-- Whether there is a path; nothing below the first one found is visited. -/
def hasPath (q : Query) : Bool :=
  q.pattern.walk (fun p found => (!(found || p.isPath), found || p.isPath)) false

end Query

end QueryContainment
