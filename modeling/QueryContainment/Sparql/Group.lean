import QueryContainment.Sorted
import QueryContainment.Sparql.Expression

namespace QueryContainment.Sparql

open Reader

/-- What a `SELECT` lists: variables, and expressions with the variables they are bound to. -/
inductive Item where
  | var (name : String)
  | bind (expression : Expression) (name : String)
deriving Repr

inductive Selection where
  | all
  | items (items : List Item)
deriving Repr

inductive Duplicates where
  | keep
  | distinct
  | reduced
deriving DecidableEq, Repr

/-- The variables to group by, and the expressions that some of them are bound to first. -/
structure Grouping where
  vars : List String
  binds : List String
deriving Repr

/-- What may follow the body of a query. -/
structure Modifiers where
  grouping : Option Grouping
  isFiltered : Bool
  isOrdered : Bool
  isSliced : Bool
  values : Option Pattern
deriving Repr

/-- A label that was used in one group is not used in another. -/
def closeLabels : Reader Unit :=
  note fun s => { s with otherLabels := s.labels ++ s.otherLabels, labels := [] }

def groundTermUpTo : Nat → Reader PatternTerm
  | 0 => PatternTerm.iri <$> iri <|> PatternTerm.literal <$> literal
  | n + 1 => PatternTerm.iri <$> iri <|> PatternTerm.literal <$> literal <|> (do
    exact "<<"
    space
    let subject ← groundTermUpTo n
    space
    let predicate ← typeOrIri
    space
    let object ← groundTermUpTo n
    space
    exact ">>"
    require !(subject matches .literal _)
    return .quoted subject (.iri predicate) object)

def tableValue : Reader Unit := do
  (do let _ ← groundTermUpTo (← get).length) <|> keyword "UNDEF"

def braced {α : Type} (p : Reader α) : Reader α := between "\x7b" "\x7d" p

/-- A table of values, each row of which has one for each variable. -/
def table : Reader Pattern :=
  (do let name ← var
      space
      let _ ← braced (many (tableValue <* space))
      return .values [name]) <|>
  (do let names ← between "(" ")" (many (var <* space))
      space
      let rows ← braced (many (between "(" ")" (many (tableValue <* space)) <* space))
      require (rows.all fun row => row.length == names.length)
      return .values names)

def groupCondition (inner : Inner) : Reader (Expression × Option String) :=
  (do return (← builtIn inner, none)) <|>
  (do return (← customCall inner, none)) <|>
  (do char '('
      space
      let e ← inner.expression
      space
      let name ← optional (do keyword "AS"; space; var)
      space
      char ')'
      return (e, name)) <|>
  (do return (.var (← var), none))

def grouping (inner : Inner) : Reader Grouping := do
  keyword "GROUP"
  space
  keyword "BY"
  space
  let conditions ← many1 (groupCondition inner <* space)
  conditions.foldlM (fun (g : Grouping) (e, name) => do
    match e, name with
    | .var v, _ => return { g with vars := g.vars ++ [v] }
    | .compound _, some v => return ⟨g.vars ++ [v], g.binds ++ [v]⟩
    | .compound _, none =>
      let v ← invent
      return ⟨g.vars ++ [v], g.binds ++ [v]⟩) ⟨[], []⟩

def having (inner : Inner) : Reader Unit := do
  keyword "HAVING"
  space
  let _ ← many1 (constraint inner)

def ordering (inner : Inner) : Reader Unit := do
  keyword "ORDER"
  space
  keyword "BY"
  space
  let direction := keyword "ASC" <|> keyword "DESC"
  let condition := (do direction; space; parenthesized inner) <|> constraint inner <|>
    Expression.var <$> var
  let _ ← many1 (condition <* space)

/-- A bound on the number of solutions, which 64 bits hold. -/
def bound (k : String) : Reader Unit := do
  keyword k
  space
  let chars ← digits1
  require ((String.ofList chars).toNat?.any (· < Nat.pow 2 64))

/-- Bounds in either order. -/
def slice : Reader Unit :=
  (do bound "LIMIT"; space; let _ ← optional (bound "OFFSET")) <|>
  (do bound "OFFSET"; space; let _ ← optional (bound "LIMIT"))

def modifiers (inner : Inner) : Reader Modifiers := do
  let grouping ← optional (grouping inner)
  space
  let having ← optional (having inner)
  space
  let ordering ← optional (ordering inner)
  space
  let slice ← optional slice
  space
  let values ← optional (do keyword "VALUES"; space; table)
  return ⟨grouping, having.isSome, ordering.isSome, slice.isSome, values⟩

def listItems (grouped : Bool) (visible : List String) :
    List Item → Pattern → List String → Option (Pattern × List String)
  | [], p, names => some (p, names)
  | item :: rest, p, names =>
    match item with
    | .var name =>
      if names.contains name || (grouped && !visible.contains name) then none
      else listItems grouped visible rest p (names ++ [name])
    | .bind e name =>
      if names.contains name || visible.contains name
        || (grouped && !e.vars.all (visible.contains ·)) then none
      else listItems grouped visible rest (.extend p name) (names ++ [name])

def grouped (m : Modifiers) (aggregates : List String) (body : Pattern) : Pattern :=
  let p := match m.grouping with
    | some g => .group (g.binds.foldl .extend body) g.vars aggregates
    | none => if aggregates.isEmpty then body else .group body [] aggregates
  let p := if m.isFiltered then .filter p else p
  match m.values with
  | some table => conjoin p table
  | none => p

def ordered (m : Modifiers) (p : Pattern) : Pattern := if m.isOrdered then .orderBy p else p

def sliced (m : Modifiers) (p : Pattern) : Pattern := if m.isSliced then .slice p else p

def withDuplicates (d : Duplicates) (p : Pattern) : Pattern :=
  match d with
  | .keep => p
  | .distinct => .distinct p
  | .reduced => .reduced p

def selected (d : Duplicates) (s : Selection) (m : Modifiers) (aggregates : List String)
    (body : Pattern) : Option Pattern := do
  let isGrouped := m.grouping.isSome || !aggregates.isEmpty
  let p := grouped m aggregates body
  let (p, names) ← match s with
    | .all => if isGrouped then none else some (p, Sorted.strings p.inScope)
    | .items items => listItems isGrouped p.inScope items p []
  return sliced m (withDuplicates d (.project (ordered m p) names))

def selectClause (inner : Inner) : Reader (Duplicates × Selection) := do
  keyword "SELECT"
  space
  note fun s => { s with aggregates := [] :: s.aggregates }
  let d ← optional ((keyword "DISTINCT" *> pure Duplicates.distinct) <|>
    (keyword "REDUCED" *> pure .reduced))
  space
  let item : Reader Item := (Item.var <$> var) <|> (between "(" ")" (do
    let e ← inner.expression
    space
    keyword "AS"
    space
    return .bind e (← var)))
  let s ← (char '*' *> pure Selection.all) <|> Selection.items <$> many1 (item <* space)
  space
  return (d.getD .keep, s)

def closeAggregates : Reader (List String) := do
  let current := (← session).aggregates
  note fun s => { s with aggregates := current.drop 1 }
  return current.head?.getD []

def whereClause (inner : Inner) : Reader Pattern := do
  let _ ← optional (keyword "WHERE")
  space
  inner.group

def subSelect (inner : Inner) : Reader Pattern := do
  let (d, s) ← selectClause inner
  let body ← whereClause inner
  space
  let m ← modifiers inner
  give (selected d s m (← closeAggregates) body)

/-- An element of a group, as a change to the pattern of the elements before it, or a filter. -/
inductive Element where
  | filter
  | join (right : Pattern)
  | optional (right : Pattern)
  | minus (right : Pattern)
  | bind (name : String)
deriving Repr

def unions (inner : Inner) : Reader Pattern := do
  match ← sepBy1 (inner.group <* space) (keyword "UNION" *> space) with
  | first :: rest => return rest.foldl .union first
  | [] => failure

def service (inner : Inner) : Reader Pattern := do
  keyword "SERVICE"
  space
  let clause : Reader Pattern := do
    let name ← varOrIri
    space
    return .service name (← inner.group)
  (keyword "SILENT" *> space *> clause) <|> clause

def graphClause (inner : Inner) : Reader Pattern := do
  keyword "GRAPH"
  space
  let name ← varOrIri
  space
  return .graph name (← inner.group)

def withoutFilter : Pattern → Pattern
  | .filter p => p
  | p => p

def element (inner : Inner) : Reader Element :=
  (Element.join <$> unions inner) <|>
  (do keyword "OPTIONAL"; space; return .optional (withoutFilter (← inner.group))) <|>
  (do keyword "MINUS"; space; return .minus (← inner.group)) <|>
  (Element.join <$> graphClause inner) <|>
  (Element.join <$> service inner) <|>
  (do keyword "FILTER"; space; let _ ← constraint inner; return .filter) <|>
  (do keyword "BIND"
      space
      between "(" ")" (do
        let _ ← inner.expression
        space
        keyword "AS"
        space
        return .bind (← var))) <|>
  (do keyword "VALUES"; space; return .join (← table))

def block : Reader Pattern := patternOfLinks <$> triples pathVerb

/-- An element and the block of triples that may follow it. -/
def elementAndBlock (inner : Inner) : Reader (List Element) := do
  let e ← element inner
  space
  let _ ← optional (char '.' *> space)
  let after ← optional block
  space
  return e :: (after.map Element.join).toList

/-- Adds the elements of a group in turn. A variable is not bound where it is in scope already. -/
def addElements : List Element → Pattern → Option Pattern
  | [], p => some p
  | .filter :: rest, p => addElements rest p
  | .join q :: rest, p => addElements rest (conjoin p q)
  | .optional q :: rest, p => addElements rest (.leftJoin p q)
  | .minus q :: rest, p => addElements rest (.minus p q)
  | .bind name :: rest, p =>
    if p.inScope.contains name then none else addElements rest (.extend p name)

/-- All filters of a group wrap the whole of it. -/
def groupBody (inner : Inner) : Reader Pattern := do
  let first ← optional block
  space
  let elements := (← many (elementAndBlock inner)).flatten
  let p ← give (addElements elements (first.getD (.bgp [])))
  return if elements.any (· matches .filter) then .filter p else p

def groupOf (inner : Inner) : Reader Pattern :=
  let closing (p : Reader Pattern) : Reader Pattern :=
    braced (do closeLabels; let a ← p; closeLabels; return a)
  closing (groupBody inner) <|> closing (subSelect inner)

def innerUpTo : Nat → Inner
  | 0 => ⟨failure, failure⟩
  | n + 1 =>
    let inner := innerUpTo n
    ⟨expressionOf inner, groupOf inner⟩

end QueryContainment.Sparql
