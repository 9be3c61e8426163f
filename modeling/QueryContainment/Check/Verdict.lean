import QueryContainment.Sorted

namespace QueryContainment

structure Verdict where
  /-- Whether the sub-query is contained in the super-query. -/
  contained : Bool
  /-- The formula that decided, if the solver was asked. -/
  formula : Option String
  justification : Option String
  /-- The verdicts for the endpoints, in the order of their IRIs. -/
  endpoints : List (String × Verdict)
deriving Repr

namespace Verdict

def blank : Verdict := ⟨false, none, none, []⟩

/-- A verdict of the solver. -/
def ofAnswer (contained : Bool) (formula : String) : Verdict := ⟨contained, some formula, none, []⟩

def refusal (justification : String) : Verdict := ⟨false, none, some justification, []⟩

def because (v : Verdict) (justification : String) : Verdict :=
  { v with justification := some justification }

/-- The verdicts under their endpoints; of several for one endpoint the last one counts. -/
def byEndpoint (results : List (String × Verdict)) : List (String × Verdict) :=
  results.foldl (fun l r => Sorted.bind (fun a b => decide (a < b)) r.1 r.2 l) []

/-- Puts the verdicts for the endpoints in place of those that were there. -/
def withEndpoints (v : Verdict) (results : List (String × Verdict)) : Verdict :=
  { v with endpoints := byEndpoint results }

end Verdict

end QueryContainment
