import QueryContainment.Proofs.Algebra.Solutions
import QueryContainment.Proofs.Naming.Run

namespace QueryContainment

/-- The quadruples of a dataset, as atoms. -/
def Dataset.facts (D : Dataset) : Set (Atom RdfTerm) :=
  {a | ∃ g, a.graph = g.map .iri ∧ ⟨a.subject, a.predicate, a.object, g⟩ ∈ D}

/-- The term of the data that a term names; variables and blank nodes name none. -/
def Term.ground? : Term → Option RdfTerm
  | .iri value => some (.iri value)
  | .literal value => some (.literal value)
  | .var _ | .blank _ => none

/-- A valuation in which IRIs and literals stand for themselves. -/
def Faithful (v : Term → RdfTerm) : Prop := ∀ t r, t.ground? = some r → v t = r

/-- A valuation in which the symbols of IRIs and literals stand for them. -/
def Naming.Respects (n : Naming) (v : Symbol → RdfTerm) : Prop :=
  ∀ e ∈ n.entries, ∀ r, e.1.ground? = some r → v e.2 = r

namespace ConjunctiveQuery

variable {α β δ : Type}

/-- All atoms are facts under a valuation. -/
def SatisfiedBy (q : ConjunctiveQuery α) (facts : Set (Atom δ)) (v : α → δ) : Prop :=
  ∀ a ∈ q.atoms, a.map v ∈ facts

/-- The answers over terms. -/
def termAnswers (q : ConjunctiveQuery Term) (D : Dataset) : Set Mapping :=
  {μ | ∃ v, Faithful v ∧ q.SatisfiedBy D.facts v ∧
    μ = fun x => if x ∈ q.answer then some (v (.var x)) else none}

/-- The answers over the symbols of a table. -/
def answers (q : ConjunctiveQuery Symbol) (n : Naming) (D : Dataset) : Set Mapping :=
  {μ | ∃ v, n.Respects v ∧ q.SatisfiedBy D.facts v ∧
    μ = fun x => if x ∈ q.answer then some (v (n.symbol (.var x))) else none}

end ConjunctiveQuery

end QueryContainment
