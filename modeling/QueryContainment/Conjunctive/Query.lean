import QueryContainment.Sorted

namespace QueryContainment

/-- A triple that has to hold in a graph; no graph stands for the default graph. -/
structure Atom (α : Type) where
  subject : α
  predicate : α
  object : α
  graph : Option α
deriving DecidableEq, Repr

structure ConjunctiveQuery (α : Type) where
  atoms : List (Atom α)
  /-- The variables in the answer, in the order in which they occur. -/
  answer : List String
  /-- The other variables, in the order in which they occur. -/
  other : List String
  /-- The queries for the endpoints, under the IRIs of these. -/
  services : List (String × ConjunctiveQuery α)
deriving Repr

namespace Atom

variable {α β : Type}

def map (f : α → β) (a : Atom α) : Atom β :=
  ⟨f a.subject, f a.predicate, f a.object, a.graph.map f⟩

/-- Subject, predicate, object and then the graph, unless it is the default graph. -/
def toList (a : Atom α) : List α := [a.subject, a.predicate, a.object] ++ a.graph.toList

end Atom

namespace ConjunctiveQuery

variable {α β : Type}

/-- Divides the variables that are used into those in the answer and the others. -/
def ofUsed (atoms : List (Atom α)) (used : List String) (projection : Option (List String))
    (services : List (String × ConjunctiveQuery α)) : ConjunctiveQuery α :=
  let listed := projection.getD []
  ⟨atoms, used.filter (listed.contains ·), used.filter (!listed.contains ·), services⟩

/-- All variables in ascending order. -/
def vars (q : ConjunctiveQuery α) : List String := Sorted.strings (q.answer ++ q.other)

mutual

def map (f : α → β) : ConjunctiveQuery α → ConjunctiveQuery β
  | ⟨atoms, answer, other, services⟩ => ⟨atoms.map (·.map f), answer, other, mapServices f services⟩

def mapServices (f : α → β) :
    List (String × ConjunctiveQuery α) → List (String × ConjunctiveQuery β)
  | [] => []
  | (url, q) :: rest => (url, q.map f) :: mapServices f rest

end

mutual

def beq [DecidableEq α] : ConjunctiveQuery α → ConjunctiveQuery α → Bool
  | ⟨atoms, answer, other, services⟩, ⟨atoms', answer', other', services'⟩ =>
    atoms == atoms' && answer == answer' && other == other' && beqServices services services'

def beqServices [DecidableEq α] :
    List (String × ConjunctiveQuery α) → List (String × ConjunctiveQuery α) → Bool
  | [], [] => true
  | (url, q) :: rest, (url', q') :: rest' => url == url' && q.beq q' && beqServices rest rest'
  | _, _ => false

end

instance [DecidableEq α] : BEq (ConjunctiveQuery α) := ⟨beq⟩

end ConjunctiveQuery

end QueryContainment
