namespace QueryContainment

inductive SymbolKind where
  | iri
  | literal
  | var
deriving DecidableEq, Repr

structure Symbol where
  kind : SymbolKind
  name : String
deriving DecidableEq, Repr

/-- The sort of all RDF terms in a formula. -/
def sortName : String := "RDFValue"

/-- The name of the symbol of the default graph. -/
def defaultGraph : String := "default_graph"

def SymbolKind.rank : SymbolKind → Nat
  | .iri => 0
  | .literal => 1
  | .var => 2

namespace Symbol

def isVar (s : Symbol) : Bool := s.kind == .var

def text (s : Symbol) : String := "<" ++ s.name ++ ">"

def declaration (s : Symbol) : String := "(declare-const " ++ s.text ++ " " ++ sortName ++ ")"

/-- The copy of a variable in a local scope. IRIs and literals are global. -/
def within (scope : String) (s : Symbol) : Symbol :=
  if s.isVar then ⟨s.kind, scope ++ "." ++ s.name⟩ else s

def lt (a b : Symbol) : Bool :=
  a.kind.rank < b.kind.rank || (a.kind == b.kind && decide (a.name < b.name))

variable {r s : Symbol}

/-- Variables are told apart by their names. -/
theorem eq_of_isVar (hr : r.isVar) (hs : s.isVar) (h : r.name = s.name) : r = s := by
  have hkind : r.kind = s.kind := (eq_of_beq hr).trans (eq_of_beq hs).symm
  cases r
  cases s
  simp_all

theorem isVar_within (h : s.isVar) (scope : String) : (s.within scope).isVar := by
  rwa [within, if_pos h]

theorem name_within (h : s.isVar) (scope : String) :
    (s.within scope).name = scope ++ "." ++ s.name := by
  rw [within, if_pos h]

theorem dot_mem_name_within (h : s.isVar) (scope : String) :
    '.' ∈ (s.within scope).name.toList := by
  simp [name_within h]

end Symbol

namespace Naming

def isNameChar (c : Char) : Bool := c.isAlphanum || c == '_'

/-- Replaces what a name cannot have, such as the dot that separates a scope from a name. -/
def toNameChars (s : List Char) : List Char :=
  s.map fun c => if isNameChar c then c else '_'

def stripFront (front s : List Char) : List Char :=
  if front.isPrefixOf s then s.drop front.length else s

def stripScheme (s : List Char) : List Char :=
  if "http://".toList.isPrefixOf s then s.drop 7 else stripFront "https://".toList s

/--
The name that an IRI asks for: without the scheme of the web and a leading `www.`, and never
empty. Different IRIs may ask for the same name.
-/
def iriName (iri : String) : String :=
  match toNameChars (stripFront "www.".toList (stripScheme iri.toList)) with
  | [] => "iri"
  | name => String.ofList name

end Naming

end QueryContainment
