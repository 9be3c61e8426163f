import QueryContainment.Sparql.Group

namespace QueryContainment.Sparql

open Reader

def baseDeclaration : Reader Unit := do
  keyword "BASE"
  space
  let iri ← iriRef
  note fun s => { s with base := some iri }

def namespaceDeclaration : Reader Unit := do
  keyword "PREFIX"
  space
  let name ← namespaceName
  space
  let iri ← iriRef
  note fun s => { s with namespaces := (name, iri) :: s.namespaces }

def prologue : Reader Unit := do
  let _ ← many ((baseDeclaration <|> namespaceDeclaration) <* space)

def datasetClauses : Reader Bool := do
  let clauses ← sepBy (do
    keyword "FROM"
    space
    iri <|> (keyword "NAMED" *> space *> iri)) space
  return !clauses.isEmpty

def selectQuery (inner : Inner) : Reader Query := do
  let (d, s) ← selectClause inner
  let hasDataset ← datasetClauses
  space
  let body ← whereClause inner
  space
  let m ← modifiers inner
  let p ← give (selected d s m (← closeAggregates) body)
  return ⟨.select, p, hasDataset⟩

/-- The pattern of a query that lists no variables. -/
def unprojected (m : Modifiers) (aggregates : List String) (body : Pattern) : Pattern :=
  sliced m (ordered m (grouped m aggregates body))

def askQuery (inner : Inner) : Reader Query := do
  keyword "ASK"
  space
  let hasDataset ← datasetClauses
  space
  let body ← whereClause inner
  space
  let m ← modifiers inner
  return ⟨.ask, unprojected m (← closeAggregates) body, hasDataset⟩

def describedItem : IriOrVar → Reader Item
  | .var name => return .var name
  | .iri _ => return .bind (.compound []) (← invent)

def describeQuery (inner : Inner) : Reader Query := do
  keyword "DESCRIBE"
  space
  let items ← (char '*' *> pure none) <|>
    (do some <$> (← many1 (varOrIri <* space)).mapM describedItem)
  space
  let hasDataset ← datasetClauses
  space
  let body := (← optional (whereClause inner)).getD (.bgp [])
  space
  let m ← modifiers inner
  let aggregates ← closeAggregates
  let p ← match items with
    | none => pure (unprojected m aggregates body)
    | some items => give (selected .keep (.items items) m aggregates body)
  return ⟨.describe, p, hasDataset⟩

def template : Reader Pattern := braced do
  let nested := nestedUpTo simpleVerb (← get).length
  let blocks ← sepBy (sameSubject nested <* space) (char '.' *> space)
  let _ ← optional (char '.')
  return patternOfLinks blocks.flatten

def templateBody : Reader Pattern := braced do
  let links ← optional (triples simpleVerb)
  return patternOfLinks (links.getD [])

def constructQuery (inner : Inner) : Reader Query := do
  keyword "CONSTRUCT"
  space
  let (body, hasDataset) ←
    (do let _ ← template
        space
        let hasDataset ← datasetClauses
        space
        return (← whereClause inner, hasDataset)) <|>
    (do let hasDataset ← datasetClauses
        space
        keyword "WHERE"
        space
        return (← templateBody, hasDataset))
  space
  let m ← modifiers inner
  return ⟨.construct, unprojected m (← closeAggregates) body, hasDataset⟩

def query (inner : Inner) : Reader Query := do
  space
  prologue
  let q ← selectQuery inner <|> constructQuery inner <|> describeQuery inner <|> askQuery inner
  space
  return q

/--
The query that a text stands for; groups are nested no deeper than the text is long. This reader
stands for the parser of a library, and only `Check.containedText` uses it.
-/
def ofText? (text : String) : Option Query :=
  let chars := text.toList
  match (((query (innerUpTo chars.length)).run chars).run.run .start).1 with
  | some (q, rest) => if rest.isEmpty then some q else none
  | none => none

end QueryContainment.Sparql
