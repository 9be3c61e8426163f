import Mathlib.Data.Set.Basic
import QueryContainment.Algebra.Pattern

namespace QueryContainment

/-- A term of the data. -/
inductive RdfTerm where
  | iri (value : String)
  | literal (value : Literal)
  | blank (label : String)
deriving DecidableEq

/--
A triple in the default graph, or in the graph of the endpoint with the given IRI. Any term may
stand in any place.
-/
structure Quad where
  subject : RdfTerm
  predicate : RdfTerm
  object : RdfTerm
  graph : Option String

abbrev Dataset := Set Quad

/-- The values of the variables that a solution binds. -/
abbrev Mapping := String → Option RdfTerm

namespace Mapping

def empty : Mapping := fun _ => none

def Compatible (μ ν : Mapping) : Prop := ∀ x r s, μ x = some r → ν x = some s → r = s

def union (μ ν : Mapping) : Mapping := fun x => (μ x).or (ν x)

def restrict (μ : Mapping) (names : List String) : Mapping :=
  fun x => if x ∈ names then μ x else none

end Mapping

namespace PatternTerm

def value? (μ : Mapping) (σ : String → RdfTerm) : PatternTerm → Option RdfTerm
  | .iri value => some (.iri value)
  | .literal value => some (.literal value)
  | .var name => μ name
  | .blank label => some (σ label)
  | .quoted .. => none

/-- The blank nodes of a term, also those inside quoted triples. -/
def blanks : PatternTerm → List String
  | .blank label => [label]
  | .quoted subject _ object => subject.blanks ++ object.blanks
  | _ => []

end PatternTerm

def IriOrVar.value? (μ : Mapping) : IriOrVar → Option RdfTerm
  | .iri value => some (.iri value)
  | .var name => μ name

namespace TriplePattern

def Matches (D : Dataset) (g : Option String) (μ : Mapping) (σ : String → RdfTerm)
    (t : TriplePattern) : Prop :=
  ∃ s p o, t.subject.value? μ σ = some s ∧ t.predicate.value? μ = some p ∧
    t.object.value? μ σ = some o ∧ ⟨s, p, o, g⟩ ∈ D

def blanks (t : TriplePattern) : List String := t.subject.blanks ++ t.object.blanks

end TriplePattern

namespace Pattern

def basicSolutions (D : Dataset) (g : Option String) (triples : List TriplePattern) :
    Set Mapping :=
  {μ | (∀ x, (μ x).isSome ↔ x ∈ triples.flatMap TriplePattern.vars) ∧
    ∃ σ, ∀ t ∈ triples, t.Matches D g μ σ}

/--
The solutions of a pattern when `g` is the active graph. Solutions form a set, so that modifiers
change nothing. Only the fragment for which containment is decided is given a meaning.
-/
def solutions (D : Dataset) : Option String → Pattern → Set Mapping
  | g, bgp triples => basicSolutions D g triples
  | g, join left right =>
    {μ | ∃ μ₁ ∈ left.solutions D g, ∃ μ₂ ∈ right.solutions D g,
      μ₁.Compatible μ₂ ∧ μ = μ₁.union μ₂}
  | g, distinct inner | g, reduced inner | g, orderBy inner => inner.solutions D g
  | g, project inner names => {μ | ∃ ν ∈ inner.solutions D g, μ = ν.restrict names}
  | _, service (.iri url) inner => inner.solutions D (some url)
  | _, _ => ∅

/-- The basic patterns in the order in which they come. -/
def basics (p : Pattern) : List (List TriplePattern) :=
  p.nodes.filterMap fun
    | bgp triples => some triples
    | _ => none

def blanks (p : Pattern) : List String := p.basics.flatMap (·.flatMap TriplePattern.blanks)

/-- No variable of a triple has a `#` in its name. -/
def PlainNames (p : Pattern) : Prop :=
  ∀ triples ∈ p.basics, ∀ x ∈ triples.flatMap TriplePattern.vars, '#' ∉ x.toList

/-- No blank node is in two basic patterns. -/
def BlanksApart (p : Pattern) : Prop :=
  p.basics.Pairwise fun b b' =>
    ∀ label ∈ b.flatMap TriplePattern.blanks, label ∉ b'.flatMap TriplePattern.blanks

/-- Names as the grammar of the language has them. -/
structure WellNamed (p : Pattern) : Prop where
  plain : p.PlainNames
  apart : p.BlanksApart

/-- The variables that every solution binds. -/
def bound : Pattern → List String
  | bgp triples => triples.flatMap TriplePattern.vars
  | join left right => left.bound ++ right.bound
  | distinct inner | reduced inner | orderBy inner => inner.bound
  | project inner names => inner.bound.filter (names.contains ·)
  | service _ inner => inner.bound
  | _ => []

theorem isSome_iff_mem_bound {D : Dataset} {p : Pattern} {g : Option String} {μ : Mapping}
    (h : μ ∈ p.solutions D g) (x : String) : (μ x).isSome ↔ x ∈ p.bound := by
  induction p generalizing g μ with
  | bgp triples => exact h.1 x
  | join left right ihl ihr =>
    obtain ⟨μ₁, h₁, μ₂, h₂, -, rfl⟩ := h
    simp only [Mapping.union, Option.isSome_or, Bool.or_eq_true, ihl h₁, ihr h₂, bound,
      List.mem_append]
  | distinct inner ih => exact ih h
  | reduced inner ih => exact ih h
  | orderBy inner ih => exact ih h
  | project inner names ih =>
    obtain ⟨ν, hν, rfl⟩ := h
    by_cases hx : x ∈ names <;> simp [Mapping.restrict, bound, hx, ih hν]
  | service name inner ih =>
    cases name with
    | var name => exact absurd h (Set.notMem_empty μ)
    | iri url => exact ih h
  | _ => exact absurd h (Set.notMem_empty μ)

/-- What every solution binds is in scope. -/
theorem mem_inScope_of_mem_bound {p : Pattern} {x : String} (h : x ∈ p.bound) : x ∈ p.inScope := by
  induction p with
  | bgp triples => exact h
  | join left right ihl ihr =>
    rcases List.mem_append.1 h with h | h
    · exact List.mem_append_left _ (ihl h)
    · exact List.mem_append_right _ (ihr h)
  | distinct inner ih => exact ih h
  | reduced inner ih => exact ih h
  | orderBy inner ih => exact ih h
  | project inner names _ => exact List.contains_iff_mem.1 (List.mem_filter.1 h).2
  | service name inner ih => exact ih h
  | _ => simp [bound] at h

@[simp]
theorem basics_bgp (triples : List TriplePattern) : (bgp triples).basics = [triples] := rfl

@[simp]
theorem basics_join (left right : Pattern) :
    (join left right).basics = left.basics ++ right.basics := by
  simp [basics, nodes]

@[simp]
theorem basics_distinct (inner : Pattern) : (distinct inner).basics = inner.basics := rfl

@[simp]
theorem basics_reduced (inner : Pattern) : (reduced inner).basics = inner.basics := rfl

@[simp]
theorem basics_orderBy (inner : Pattern) : (orderBy inner).basics = inner.basics := rfl

@[simp]
theorem basics_project (inner : Pattern) (names : List String) :
    (project inner names).basics = inner.basics := rfl

@[simp]
theorem basics_service (name : IriOrVar) (inner : Pattern) :
    (service name inner).basics = inner.basics := rfl

/-- What is bound occurs in a basic pattern. -/
theorem exists_basic_of_mem_bound {p : Pattern} {x : String} (h : x ∈ p.bound) :
    ∃ b ∈ p.basics, x ∈ b.flatMap TriplePattern.vars := by
  induction p with
  | bgp triples => exact ⟨triples, by simp, h⟩
  | join left right ihl ihr =>
    rw [basics_join]
    rcases List.mem_append.1 h with h | h
    · obtain ⟨b, hb, hx⟩ := ihl h
      exact ⟨b, List.mem_append_left _ hb, hx⟩
    · obtain ⟨b, hb, hx⟩ := ihr h
      exact ⟨b, List.mem_append_right _ hb, hx⟩
  | distinct inner ih => exact ih h
  | reduced inner ih => exact ih h
  | orderBy inner ih => exact ih h
  | project inner names ih => exact ih (List.mem_filter.1 h).1
  | service name inner ih => exact ih h
  | _ => simp [bound] at h

theorem PlainNames.of_mem_bound {p : Pattern} (h : p.PlainNames) {x : String} (hx : x ∈ p.bound) :
    '#' ∉ x.toList := by
  obtain ⟨b, hb, hx⟩ := exists_basic_of_mem_bound hx
  exact h b hb x hx

end Pattern

namespace Query

/--
The solutions of a query. What `ASK` asks for is only whether there is a solution, so that the empty
mapping is the answer if there is one.
-/
def solutions (D : Dataset) (q : Query) : Set Mapping :=
  match q.form with
  | .ask => {μ | μ = .empty ∧ (q.pattern.solutions D none).Nonempty}
  | _ => q.pattern.solutions D none

end Query

end QueryContainment
