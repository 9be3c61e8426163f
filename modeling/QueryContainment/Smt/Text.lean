import QueryContainment.Conjunctive.Query
import QueryContainment.Naming.Symbol

namespace QueryContainment.Smt

/-- The predicate of subject, predicate, object and graph. -/
def predicateName : String := "P"

def defaultGraphText : String := "<" ++ defaultGraph ++ ">"

def unwords (l : List String) : String := " ".intercalate l

def atomText (a : Atom Symbol) : String :=
  "(" ++ unwords [predicateName, a.subject.text, a.predicate.text, a.object.text,
    (a.graph.map Symbol.text).getD defaultGraphText] ++ ")"

def equalText (left right : Symbol) : String := "(" ++ unwords ["=", left.text, right.text] ++ ")"

/-- The empty conjunction is true, and a single term is a conjunction already. -/
def andText : List String → String
  | [] => "true"
  | [term] => term
  | terms => "(and " ++ unwords terms ++ ")"

/-- Binds symbols existentially; without symbols to bind, the body stands alone. -/
def existsText (bound : List Symbol) (body : String) : String :=
  if bound.isEmpty then body
  else
    "(exists (" ++ unwords (bound.map fun s => "(" ++ s.text ++ " " ++ sortName ++ ")") ++ ") " ++
      body ++ ")"

def notText (term : String) : String := "(not " ++ term ++ ")"

def assertText (term : String) : String := "(assert " ++ term ++ ")"

/-- The line that opens a section, filled with dashes. -/
def heading (title : String) : String :=
  let line := "; ------------ " ++ title ++ " "
  line ++ String.ofList (List.replicate (53 - line.length) '-')

def preamble : List String :=
  [ "(declare-sort " ++ sortName ++ " 0)",
    "(declare-fun " ++ predicateName ++ " (" ++ unwords (List.replicate 4 sortName) ++ ") Bool)",
    "(declare-const " ++ defaultGraphText ++ " " ++ sortName ++ ")" ]

end QueryContainment.Smt
