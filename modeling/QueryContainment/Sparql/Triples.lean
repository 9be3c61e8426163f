import QueryContainment.Sparql.Path

namespace QueryContainment.Sparql

open Reader

/-- A node together with the links that were written inside it. -/
structure Node where
  focus : PatternTerm
  links : List Link
deriving Repr

/-- An object of a verb, and what is said about the triple. -/
structure Object where
  focus : PatternTerm
  remark : Option Remark

/-- Verbs with their objects, and the links that were written inside the objects. -/
structure Properties where
  objects : List (Verb × Object)
  links : List Link

namespace Properties

def append (a b : Properties) : Properties := ⟨a.objects ++ b.objects, a.links ++ b.links⟩

def linksOf (subject : PatternTerm) (p : Properties) : Reader (List Link) := do
  let own ← p.objects.mapM fun (verb, object) => verb.links object.remark subject object.focus
  return p.links ++ own.flatten

end Properties

def atom (quoted : Reader PatternTerm) : Reader PatternTerm :=
  PatternTerm.var <$> var <|> quoted <|> PatternTerm.iri <$> iri <|>
    PatternTerm.literal <$> literal <|> PatternTerm.blank <$> blank <|>
    (do emptyList; return .iri (rdfName "nil"))

def quotedUpTo : Nat → Reader PatternTerm
  | 0 => failure
  | n + 1 => do
    exact "<<"
    space
    let subject ← atom (quotedUpTo n)
    space
    let predicate ← varOrIri <|> (do exact "a"; return .iri (rdfName "type"))
    space
    let object ← atom (quotedUpTo n)
    space
    exact ">>"
    return .quoted subject predicate object

def quoted : Reader PatternTerm := do quotedUpTo (← get).length

def term : Reader PatternTerm := atom quoted

/-- How the nodes and the properties of a block are read, where they are nested less deeply. -/
structure Nested where
  node : Reader Node
  properties : Reader Properties

/-- A remark follows its object between braces with bars. -/
def object (nested : Nested) : Reader (Object × List Link) := do
  let node ← nested.node
  space
  let remark ← optional (do
    exact "\x7b|"
    space
    let p ← nested.properties
    space
    exact "|\x7d"
    return p)
  match remark with
  | none => return (⟨node.focus, none⟩, node.links)
  | some p =>
    let about : Remark := fun triple => do
      let own ← p.objects.mapM fun (verb, object) => verb.links object.remark triple object.focus
      return own.flatten
    return (⟨node.focus, some about⟩, node.links ++ p.links)

def property (verb : Reader Verb) (nested : Nested) : Reader Properties := do
  let v ← verb
  space
  let objects ← sepBy1 (object nested <* space) (char ',' *> space)
  return ⟨objects.map fun o => (v, o.1), objects.flatMap (·.2)⟩

def propertiesOf (verb : Reader Verb) (nested : Nested) : Reader Properties := do
  let first ← property verb nested
  space
  let more ← many (do
    char ';'
    space
    let p ← optional (property verb nested <* space)
    return p.getD ⟨[], []⟩)
  return more.foldl .append first

def bracketed (properties : Reader Properties) : Reader Node := do
  let p ← between "[" "]" properties
  let focus := .blank (← invent)
  return ⟨focus, ← p.linksOf focus⟩

/-- The cells of a list of nodes from the last to the first, each before what its node holds. -/
def listCells (tail : PatternTerm) (links : List Link) : List Node → Reader Node
  | [] => return ⟨tail, links⟩
  | node :: before => do
    let cell := .blank (← invent)
    listCells cell (links ++ [.triple ⟨cell, .iri (rdfName "first"), node.focus⟩,
      .triple ⟨cell, .iri (rdfName "rest"), tail⟩] ++ node.links) before

def collection (node : Reader Node) : Reader Node := do
  char '('
  space
  let nodes ← many1 (node <* space)
  char ')'
  listCells (.iri (rdfName "nil")) [] nodes.reverse

def compound (nested : Nested) : Reader Node :=
  collection nested.node <|> bracketed nested.properties

def nestedUpTo (verb : Reader Verb) : Nat → Nested
  | 0 => ⟨failure, failure⟩
  | n + 1 =>
    let nested := nestedUpTo verb n
    ⟨(Node.mk · []) <$> term <|> compound nested, propertiesOf verb nested⟩

def sameSubject (nested : Nested) : Reader (List Link) :=
  (do let subject ← term
      space
      (← nested.properties).linksOf subject) <|>
  (do let subject ← compound nested
      space
      let p ← optional nested.properties
      return subject.links ++ (← (p.getD ⟨[], []⟩).linksOf subject.focus))

/-- Triples with a dot between two subjects; one after the last is allowed. -/
def triples (verb : Reader Verb) : Reader (List Link) := do
  let nested := nestedUpTo verb (← get).length
  let blocks ← sepBy1 (space *> sameSubject nested <* space) (char '.')
  let _ ← optional (char '.')
  return blocks.flatten

def conjoin : Pattern → Pattern → Pattern
  | .bgp [], p => p
  | p, .bgp [] => p
  | .bgp a, .bgp b => .bgp (a ++ b)
  | .graph g p, .graph h q =>
    if g = h then .graph g (conjoin p q) else .join (.graph g p) (.graph h q)
  | p, q => .join p q

/-- Paths, and the longest runs of triples between them. -/
def runs : List Link → List Pattern
  | [] => []
  | .path subject object :: rest => .path subject object :: runs rest
  | .triple t :: rest =>
    match runs rest with
    | .bgp ts :: others => .bgp (t :: ts) :: others
    | others => .bgp [t] :: others

def patternOfLinks (links : List Link) : Pattern := (runs links).foldl conjoin (.bgp [])

end QueryContainment.Sparql
