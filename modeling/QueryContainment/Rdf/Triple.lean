import QueryContainment.Rdf.Literal

namespace QueryContainment

inductive Term where
  | iri (value : String)
  | literal (value : Literal)
  | var (name : String)
  | blank (label : String)
deriving DecidableEq, Repr

/-- What may stand in a predicate position or name a graph. -/
inductive IriOrVar where
  | iri (value : String)
  | var (name : String)
deriving DecidableEq, Repr

/-- A term as a query may write it. `Term.ofPattern` refuses quoted triples. -/
inductive PatternTerm where
  | iri (value : String)
  | literal (value : Literal)
  | var (name : String)
  | blank (label : String)
  | quoted (subject : PatternTerm) (predicate : IriOrVar) (object : PatternTerm)
deriving DecidableEq, Repr

structure Triple (α : Type) where
  subject : α
  predicate : α
  object : α
deriving DecidableEq, Repr

structure TriplePattern where
  subject : PatternTerm
  predicate : IriOrVar
  object : PatternTerm
deriving DecidableEq, Repr

namespace Triple

def map {α β : Type} (f : α → β) (t : Triple α) : Triple β :=
  ⟨f t.subject, f t.predicate, f t.object⟩

def toList {α : Type} (t : Triple α) : List α := [t.subject, t.predicate, t.object]

end Triple

namespace Term

def text : Term → String
  | .iri value => "<" ++ value ++ ">"
  | .literal l => l.text
  | .var name => "?" ++ name
  | .blank label => "_:" ++ label

/-- The term without its syntax: no brackets, quotes, tags or question mark. -/
def value : Term → String
  | .iri value => value
  | .literal l => l.lexical
  | .var name => name
  | .blank label => label

def varName? : Term → Option String
  | .var name => some name
  | _ => none

def ofIriOrVar : IriOrVar → Term
  | .iri value => .iri value
  | .var name => .var name

end Term

namespace IriOrVar

def text : IriOrVar → String
  | .iri value => "<" ++ value ++ ">"
  | .var name => "?" ++ name

def vars : IriOrVar → List String
  | .iri _ => []
  | .var name => [name]

end IriOrVar

namespace PatternTerm

def text : PatternTerm → String
  | .iri value => "<" ++ value ++ ">"
  | .literal l => l.text
  | .var name => "?" ++ name
  | .blank label => "_:" ++ label
  | .quoted subject predicate object =>
    "<<" ++ subject.text ++ " " ++ predicate.text ++ " " ++ object.text ++ ">>"

/-- The variables of a term, also those inside quoted triples. -/
def vars : PatternTerm → List String
  | .var name => [name]
  | .quoted subject predicate object =>
    subject.vars ++ predicate.vars ++ object.vars
  | _ => []

/-- The name of a term that is itself a variable. -/
def varName? : PatternTerm → Option String
  | .var name => some name
  | _ => none

end PatternTerm

namespace TriplePattern

def text (t : TriplePattern) : String :=
  t.subject.text ++ " " ++ t.predicate.text ++ " " ++ t.object.text

/-- The variables of a triple pattern, also those inside quoted triples. -/
def vars (t : TriplePattern) : List String :=
  t.subject.vars ++ t.predicate.vars ++ t.object.vars

/-- The variables that are themselves subject, predicate or object. -/
def positionVariables (t : TriplePattern) : List String :=
  t.subject.varName?.toList ++ t.predicate.vars ++ t.object.varName?.toList

end TriplePattern

end QueryContainment
