import QueryContainment.Conjunctive.Query

namespace QueryContainment

/--
Both queries give sets of solutions, or the super-query alone may repeat some, or both may.
-/
inductive Multiplicity where
  | set
  | bagSet
  | bag
deriving DecidableEq, Repr

def Multiplicity.text : Multiplicity → String
  | .set => "SET"
  | .bagSet => "BAG_SET"
  | .bag => "BAG"

namespace ConjunctiveQuery

variable {α : Type}

/-- The same variables are in both answers, whatever their order. -/
def sameAnswer (sub sup : ConjunctiveQuery α) : Bool :=
  sub.answer.all (sup.answer.contains ·) && sup.answer.all (sub.answer.contains ·)

/-- Besides the same answer, the super-query uses all variables of the sub-query. -/
def sameAnswerAndVariables (sub sup : ConjunctiveQuery α) : Bool :=
  sub.sameAnswer sup && sub.vars.all (sup.vars.contains ·)

end ConjunctiveQuery

end QueryContainment
