import QueryContainment.Distinct
import QueryContainment.Smt.Text

namespace QueryContainment.Smt

/--
What is put to a solver. IRIs, literals and the default graph are distinct from each other; a
variable may be equal to any of them.
-/
structure Script (α : Type) where
  /-- The symbols in the order in which they were first declared. -/
  declared : List Symbol
  assertions : List α
deriving Repr

namespace Script

variable {α : Type}

def empty : Script α := ⟨[], []⟩

def declare (s : Script α) (symbol : Symbol) : Script α :=
  { s with declared := Distinct.add s.declared symbol }

def declareAll (s : Script α) (symbols : List Symbol) : Script α := symbols.foldl declare s

/-- Declares every symbol of an atom. -/
def declareTermsOf (s : Script α) (a : Atom Symbol) : Script α := s.declareAll a.toList

/-- Declares the IRIs and literals of an atom. -/
def declareGroundOf (s : Script α) (a : Atom Symbol) : Script α :=
  s.declareAll (a.toList.filter (!·.isVar))

def assert (s : Script α) (a : α) : Script α := { s with assertions := s.assertions ++ [a] }

def assertAll (s : Script α) (l : List α) : Script α := { s with assertions := s.assertions ++ l }

def ofKind (s : Script α) (kind : SymbolKind) : List Symbol :=
  s.declared.filter (·.kind == kind)

/-- The IRIs and then the literals that are declared. -/
def ground (s : Script α) : List Symbol := s.ofKind .iri ++ s.ofKind .literal

/-- The default graph alone needs no assertion that it is distinct from all others. -/
def uniqueNames (s : Script α) : List String :=
  if s.ground.isEmpty then []
  else
    [ heading "Unique Names",
      assertText ("(distinct " ++ unwords (defaultGraphText :: s.ground.map Symbol.text) ++ ")") ]

/-- The lines of a script, given the text of an assertion. -/
def lines (text : α → String) (s : Script α) : List String :=
  heading "Sort and Predicate" :: preamble
    ++ heading "IRIs" :: (s.ofKind .iri).map Symbol.declaration
    ++ heading "Literals" :: (s.ofKind .literal).map Symbol.declaration
    ++ s.uniqueNames
    ++ heading "Variables" :: (s.ofKind .var).map Symbol.declaration
    ++ heading "Conjecture" :: s.assertions.map (assertText ∘ text)
    ++ ["(check-sat)"]

def render (text : α → String) (s : Script α) : String := "\n".intercalate (s.lines text)

end Script

end QueryContainment.Smt
