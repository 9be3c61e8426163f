import QueryContainment.Naming.Table
import QueryContainment.Smt.Script

namespace QueryContainment.Smt

inductive Condition where
  | holds (atom : Atom Symbol)
  | equal (left right : Symbol)
deriving DecidableEq, Repr

inductive Statement where
  | holds (atom : Atom Symbol)
  /-- No values of the bound symbols satisfy all of the conditions. -/
  | noSolution (bound : List Symbol) (conditions : List Condition)
deriving DecidableEq, Repr

def Condition.text : Condition → String
  | .holds atom => atomText atom
  | .equal left right => equalText left right

def Statement.text : Statement → String
  | .holds atom => atomText atom
  | .noSolution bound conditions =>
    notText (existsText bound (andText (conditions.map Condition.text)))

/-- The scope of the variables of the super-query. -/
def superScope : String := "super"

def scopedAtom (scope : String) (a : Atom Symbol) : Atom Symbol :=
  ⟨a.subject.within scope, a.predicate.within scope, a.object.within scope, a.graph⟩

/-- The sub-query has a solution for which the super-query has none with the same answer. -/
def countermodel (sub sup : ConjunctiveQuery Symbol) (n : Naming) : Script Statement :=
  let declared : Script Statement :=
    sup.atoms.foldl .declareGroundOf (sub.atoms.foldl .declareTermsOf .empty)
  let bound := Distinct.ofList ((sup.atoms.flatMap Atom.toList).filter Symbol.isVar)
  let agreement := (sup.answer.filterMap n.varSymbol?).map fun s => .equal (s.within superScope) s
  let conditions := sup.atoms.map (fun a => .holds (scopedAtom superScope a)) ++ agreement
  (declared.assertAll (sub.atoms.map .holds)).assert
    (.noSolution (bound.map (·.within superScope)) conditions)

/-- The query has a solution. -/
def solvability (q : ConjunctiveQuery Symbol) : Script Statement :=
  (q.atoms.foldl .declareTermsOf .empty : Script Statement).assertAll (q.atoms.map .holds)

def formulaText (s : Script Statement) : String := s.render Statement.text

end QueryContainment.Smt
