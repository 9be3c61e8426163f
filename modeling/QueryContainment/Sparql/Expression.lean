import QueryContainment.Sparql.Triples

namespace QueryContainment.Sparql

open Reader

/--
An expression, of which only the variables are kept that it needs. A `SELECT` with aggregates may
use it where these are bound.
-/
inductive Expression where
  | var (name : String)
  | compound (vars : List String)
deriving DecidableEq, Repr

def Expression.vars : Expression → List String
  | var name => [name]
  | compound vars => vars

def Expression.combine : List Expression → Expression
  | [e] => e
  | l => .compound (l.flatMap vars)

/-- What expressions and groups are made of, where they are nested less deeply. -/
structure Inner where
  expression : Reader Expression
  group : Reader Pattern

def functions : List (String × List Nat) :=
  [ "STR", "LANG", "DATATYPE", "IRI", "URI", "ABS", "CEIL", "FLOOR", "ROUND", "STRLEN", "UCASE",
    "LCASE", "YEAR", "MONTH", "DAY", "HOURS", "MINUTES", "SECONDS", "TIMEZONE", "TZ", "ISIRI",
    "ISURI" ].map (·, [1]) ++
  [ "LANGMATCHES", "CONTAINS", "STRSTARTS", "STRENDS", "STRBEFORE", "STRAFTER", "STRLANG",
    "STRDT" ].map (·, [2]) ++
  [("IF", [3]), ("SUBSTR", [3, 2]), ("REGEX", [3, 2]), ("REPLACE", [4, 3])]

/-- The functions without arguments. -/
def constants : List String := ["RAND", "NOW", "UUID", "STRUUID"]

def tightFunctions : List (String × List Nat) :=
  [ "BNODE", "ENCODE_FOR_URI", "MD5", "SHA1", "SHA256", "SHA384", "SHA512", "ISBLANK", "ISLITERAL",
    "ISNUMERIC", "SUBJECT", "PREDICATE", "OBJECT", "ISTRIPLE" ].map (·, [1])
    ++ [("SAMETERM", [2]), ("TRIPLE", [3])]

/-- Any number of arguments. -/
def arguments (inner : Inner) : Reader (List Expression) :=
  between "(" ")" (sepBy1 (inner.expression <* space) (char ',' *> space)) <|>
    (emptyList *> pure [])

def exactly (inner : Inner) : Nat → Reader (List Expression)
  | 0 => return []
  | 1 => return [← inner.expression]
  | n + 1 => do
    let e ← inner.expression
    mark ","
    return e :: (← exactly inner n)

def argumentsOf (inner : Inner) (functions : List (String × List Nat)) (name : String) :
    Reader Expression := do
  let counts := (functions.lookup name).getD []
  let args ← counts.foldr (fun n p => between "(" ")" (exactly inner n) <|> p) failure
  return .compound (args.flatMap Expression.vars)

def functionCall (inner : Inner) : Reader Expression := do
  let name ← many1 (satisfy fun c => c.isAlphanum || c == '_')
  let name := String.ofList (name.map Char.toUpper)
  argumentsOf inner tightFunctions name <|>
    (do require (name == "CONCAT")
        return .compound ((← arguments inner).flatMap Expression.vars)) <|>
    (do require (name == "COALESCE")
        let _ ← arguments inner
        return .compound []) <|>
    (do require (name == "BNODE")
        emptyList
        return .compound []) <|>
    (do require (constants.contains name)
        space
        emptyList
        return .compound []) <|>
    (do require (name == "BOUND")
        space
        let _ ← between "(" ")" var
        return .compound []) <|>
    (do space
        argumentsOf inner functions name)

def customCall (inner : Inner) : Reader Expression := do
  let _ ← iri
  space
  return .compound ((← arguments inner).flatMap Expression.vars)

def aggregateName : Reader Unit :=
  ["SUM", "MIN", "MAX", "AVG", "SAMPLE"].foldr (fun k p => keyword k <|> p) failure

def aggregateArgument (p : Reader Unit) : Reader Unit :=
  between "(" ")" (keyword "DISTINCT" *> space *> p) <|> between "(" ")" p

def separator : Reader Unit := do
  mark ";"
  keyword "SEPARATOR"
  mark "="
  let _ ← string

/-- An aggregate stands for a new variable of the `SELECT` that is open. -/
def aggregate (inner : Inner) : Reader Expression := do
  let value : Reader Unit := do let _ ← inner.expression
  (do keyword "COUNT"
      space
      aggregateArgument (char '*' <|> value)) <|>
  (do aggregateName
      space
      aggregateArgument value) <|>
  (do keyword "GROUP_CONCAT"
      space
      aggregateArgument ((value *> separator) <|> value)) <|>
  (do let _ ← iri
      space
      aggregateArgument value)
  match (← session).aggregates with
  | names :: others =>
    let result ← invent
    note fun s => { s with aggregates := (result :: names) :: others }
    return .var result
  | [] => failure

def existence (inner : Inner) : Reader Expression := do
  let _ ← optional (keyword "NOT" *> space)
  keyword "EXISTS"
  space
  let _ ← inner.group
  return .compound []

def builtIn (inner : Inner) : Reader Expression :=
  aggregate inner <|> existence inner <|> functionCall inner

def parenthesized (inner : Inner) : Reader Expression := between "(" ")" inner.expression

def quotedExpressionUpTo : Nat → Reader Expression
  | 0 => failure
  | n + 1 => do
    let part : Reader Expression := quotedExpressionUpTo n <|>
      (do let _ ← iri; return .compound []) <|> (do let _ ← literal; return .compound []) <|>
      Expression.var <$> var
    exact "<<"
    space
    let subject ← part
    space
    let predicate ← IriOrVar.vars <$> varOrIri <|> (exact "a" *> pure [])
    space
    let object ← part
    space
    exact ">>"
    return .compound (subject.vars ++ predicate ++ object.vars)

def quotedExpression : Reader Expression := do quotedExpressionUpTo (← get).length

def primary (inner : Inner) : Reader Expression :=
  parenthesized inner <|> quotedExpression <|> customCall inner <|>
    (do let _ ← iri; return .compound []) <|> Expression.var <$> var <|>
    (do let _ ← literal; return .compound []) <|> builtIn inner

def unary (inner : Inner) : Reader Expression := do
  match ← optional (satisfy fun c => c == '!' || c == '+' || c == '-') with
  | some _ => space; return .compound (← primary inner).vars
  | none => primary inner

def chain (operand : Reader Expression) (operator : Reader Unit) : Reader Expression :=
  Expression.combine <$> sepBy1 (operand <* space) (operator *> space)

def arithmetic (inner : Inner) : Reader Expression :=
  chain (chain (unary inner) (char '*' <|> char '/')) (char '+' <|> char '-')

def comparison : Reader Unit :=
  ["=", "!=", ">=", ">", "<=", "<"].foldr (fun s p => exact s <|> p) failure

def relation (inner : Inner) : Reader Expression := do
  let left ← arithmetic inner
  space
  let right ← optional (
    (do comparison
        space
        return [← arithmetic inner]) <|>
    (do let _ ← optional (keyword "NOT" *> space)
        keyword "IN"
        space
        arguments inner))
  match right with
  | some l => return .compound ((left :: l).flatMap Expression.vars)
  | none => return left

def expressionOf (inner : Inner) : Reader Expression :=
  chain (chain (relation inner) (exact "&&")) (exact "||")

def constraint (inner : Inner) : Reader Expression :=
  parenthesized inner <|> customCall inner <|> builtIn inner

end QueryContainment.Sparql
