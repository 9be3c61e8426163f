import QueryContainment.Sparql.Lexeme

namespace QueryContainment.Sparql

open Reader

/--
A property path. Reversed and composed paths come down to triples; what any other path says is left
out.
-/
inductive Path where
  | iri (value : String)
  | reverse (inner : Path)
  | sequence (first second : Path)
  | other
deriving DecidableEq, Repr

/-- What stands between a subject and its objects. -/
inductive Verb where
  | var (name : String)
  | path (value : Path)
deriving DecidableEq, Repr

/-- A triple, or a path that comes down to none. -/
inductive Link where
  | triple (value : TriplePattern)
  | path (subject object : PatternTerm)
deriving DecidableEq, Repr

def rdfName (name : String) : String := "http://www.w3.org/1999/02/22-rdf-syntax-ns#" ++ name

abbrev Remark := PatternTerm → Reader (List Link)

def remarked (remark : Option Remark) (t : TriplePattern) : Reader (List Link) := do
  let about ← match remark with
    | some links => links (.quoted t.subject t.predicate t.object)
    | none => pure []
  return about ++ [.triple t]

/--
The links of a path; the nodes between the parts of a sequence are fresh blank nodes. Only a path
that comes down to a single triple can be remarked on.
-/
def Path.links (remark : Option Remark) (subject object : PatternTerm) :
    Path → Reader (List Link)
  | iri value => remarked remark ⟨subject, .iri value, object⟩
  | reverse p => p.links remark object subject
  | sequence first second => do
    require remark.isNone
    let middle := .blank (← invent)
    return (← first.links none subject middle) ++ (← second.links none middle object)
  | other => do
    require remark.isNone
    return [.path subject object]

def Verb.links (remark : Option Remark) (subject object : PatternTerm) :
    Verb → Reader (List Link)
  | var name => remarked remark ⟨subject, .var name, object⟩
  | path p => p.links remark subject object

def typeOrIri : Reader String := iri <|> do
  exact "a"
  return rdfName "type"

def negated : Reader Path := do
  let one : Reader Unit := do
    let _ ← optional (do char '^'; space)
    let _ ← typeOrIri
  (do char '('
      space
      let _ ← sepBy1 (one <* space) (char '|' *> space)
      char ')') <|> one
  return .other

def primaryPath (inner : Reader Path) : Reader Path :=
  Path.iri <$> typeOrIri <|> (do char '!'; space; negated) <|> between "(" ")" inner

/-- A question mark after a path is no operator if a variable begins with it. -/
def pathOperator : Reader Unit :=
  char '*' <|> char '+' <|> (do char '?'; no (satisfy isVarStart))

def modifiedPath (inner : Reader Path) : Reader Path := do
  let path ← primaryPath inner
  space
  match ← optional pathOperator with
  | some _ => return .other
  | none => return path

def directedPath (inner : Reader Path) : Reader Path :=
  (do char '^'; space; Path.reverse <$> modifiedPath inner) <|> modifiedPath inner

def pathSequence (inner : Reader Path) : Reader Path := do
  match ← sepBy1 (directedPath inner <* space) (char '/' *> space) with
  | first :: rest => return rest.foldl .sequence first
  | [] => failure

def pathChoice (inner : Reader Path) : Reader Path := do
  match ← sepBy1 (pathSequence inner <* space) (char '|' *> space) with
  | [path] => return path
  | _ => return .other

/-- A path in which no more than `n` parentheses are nested. -/
def pathUpTo : Nat → Reader Path
  | 0 => failure
  | n + 1 => pathChoice (pathUpTo n)

def path : Reader Path := do pathUpTo (← get).length

def pathVerb : Reader Verb := Verb.path <$> path <|> Verb.var <$> var

def simpleVerb : Reader Verb := Verb.var <$> var <|> (Verb.path ∘ Path.iri) <$> typeOrIri

end QueryContainment.Sparql
