import QueryContainment.Sparql.LanguageTag
import QueryContainment.Sparql.Reader

namespace QueryContainment.Sparql

open Reader

def hexValue (digits : List Char) : Nat :=
  digits.foldl (fun n c =>
    16 * n + (if c.isDigit then c.toNat - 48 else c.toUpper.toNat - 55)) 0

def codePointOf (count : Nat) : Reader Char := do
  let digits ← atMost (satisfy IriReference.isHexDigit) count
  require (digits.length == count)
  let n := hexValue digits
  require (n.isValidChar)
  return Char.ofNat n

def codePoint : Reader Char := do
  codePointOf (if (← satisfy fun c => c == 'u' || c == 'U') == 'u' then 4 else 8)

def simpleEscape (c : Char) : Option Char :=
  match c with
  | 't' => some '\t'
  | 'b' => some '\x08'
  | 'n' => some '\n'
  | 'r' => some '\r'
  | 'f' => some '\x0c'
  | '"' | '\'' | '\\' => some c
  | _ => none

def escape : Reader Char := do
  char '\\'
  (do let c ← satisfy fun c => (simpleEscape c).isSome
      return (simpleEscape c).getD c) <|> codePoint

def signedCodePoint : Reader Char := do
  let count := if (← satisfy fun c => c == 'u' || c == 'U') == 'u' then 4 else 8
  let sign ← optional (char '+')
  codePointOf (if sign.isSome then count - 1 else count)

def iriRef : Reader String := do
  char '<'
  let chars ← many (satisfy (fun c => c != '>' && c != '\\') <|> (char '\\' *> signedCodePoint))
  char '>'
  match IriReference.absolute? (← session).base chars with
  | some iri => return iri
  | none => failure

def dotted (p : Reader (List Char)) : Reader (List Char) := do
  let parts ← many (do
    let dots ← many (satisfy (· == '.'))
    return dots ++ (← p))
  return parts.flatten

def nameChar : Reader (List Char) := do return [← satisfy isNameChar]

def namespaceName : Reader String := do
  let name ← optional (do return (← satisfy isLetter) :: (← dotted nameChar))
  char ':'
  return String.ofList (name.getD [])

def localEscape : Reader (List Char) :=
  (do char '\\'
      return [← satisfy isLocalEscape]) <|>
  (do char '%'
      let a ← satisfy IriReference.isHexDigit
      return ['%', a, ← satisfy IriReference.isHexDigit])

def localChars (p : Char → Bool) : Reader (List Char) :=
  (do return [← satisfy p]) <|> localEscape

/-- A local name may hold dots in one place, with another character after them. -/
def localName : Reader (List Char) := do
  let first ← localChars isLocalStart
  let more ← many (localChars isLocalChar)
  let dotted ← optional (do
    let dots ← many1 (satisfy (· == '.'))
    return dots ++ (← many1 (localChars isLocalChar)).flatten)
  return first ++ more.flatten ++ dotted.getD []

def expandName (name : String) (chars : List Char) : Reader String := do
  match (← session).namespaces.lookup name with
  | none => failure
  | some iri =>
    match IriReference.absolute? none (iri.toList ++ chars) with
    | some iri => return iri
    | none => failure

def namespacedIri : Reader String :=
  (do let name ← namespaceName
      expandName name (← localName)) <|>
  (do expandName (← namespaceName) [])

def iri : Reader String := iriRef <|> namespacedIri

def var : Reader String := do
  let _ ← satisfy fun c => c == '?' || c == '$'
  let first ← satisfy isVarStart
  return String.ofList (first :: (← many (satisfy isVarChar)))

def varOrIri : Reader IriOrVar := IriOrVar.var <$> var <|> IriOrVar.iri <$> iri

def labelledBlank : Reader String := do
  exact "_:"
  let first ← satisfy isVarStart
  let label := String.ofList (first :: (← dotted nameChar))
  require (!(← session).otherLabels.contains label)
  note fun s => { s with labels := label :: s.labels }
  return label

/-- Brackets with nothing but white space between them; comments do not count as such. -/
def empty (left right : Char) : Reader Unit := do
  char left
  let _ ← many (satisfy isSpace)
  char right

def blank : Reader String := labelledBlank <|> (empty '[' ']' *> invent)

def emptyList : Reader Unit := empty '(' ')'

def shortString (quote : Char) : Reader (List Char) := do
  char quote
  let chars ← many (satisfy (fun c => c != quote && c != '\\' && c != '\n' && c != '\r') <|> escape)
  char quote
  return chars

def longString (quote : Char) : Reader (List Char) := do
  let quotes (n : Nat) : Reader (List Char) := do
    let l ← atMost (satisfy (· == quote)) n
    require (l.length == n)
    return l
  let _ ← quotes 3
  let parts ← many (do
    let before ← optional (quotes 2 <|> quotes 1)
    return before.getD [] ++ [← satisfy (fun c => c != quote && c != '\\') <|> escape])
  let _ ← quotes 3
  return parts.flatten

def singleQuote : Char := '\''

def string : Reader (List Char) :=
  longString singleQuote <|> longString '"' <|> shortString singleQuote <|> shortString '"'

def languageTag : Reader String := do
  char '@'
  let first ← many1 (satisfy Char.isAlpha)
  let more ← many (do
    char '-'
    return '-' :: (← many1 (satisfy Char.isAlphanum)))
  let tag := (first ++ more.flatten).map Char.toLower
  require (LanguageTag.isWellFormed tag)
  return String.ofList tag

def stringLiteral : Reader Literal := do
  let lexical := String.ofList (← string)
  (do mark "^^"
      return .typed lexical (← iri)) <|>
  (do space
      return .tagged lexical (← languageTag)) <|>
  pure (.simple lexical)

def datatype (name : String) : String := "http://www.w3.org/2001/XMLSchema#" ++ name

def digits : Reader (List Char) := many (satisfy Char.isDigit)

def digits1 : Reader (List Char) := many1 (satisfy Char.isDigit)

def exponent : Reader (List Char) := do
  let e ← satisfy fun c => c == 'e' || c == 'E'
  let sign ← optional (satisfy fun c => c == '+' || c == '-')
  return e :: sign.toList ++ (← digits1)

def decimal : Reader (List Char) := do
  return (← digits) ++ (← satisfy (· == '.')) :: (← digits1)

def double : Reader (List Char) :=
  (do return (← digits1) ++ (← satisfy (· == '.')) :: (← digits) ++ (← exponent)) <|>
  (do return (← decimal <|> digits1) ++ (← exponent))

def unsigned : Reader (List Char × String) :=
  (do return (← double, "double")) <|>
  (do return (← decimal, "decimal")) <|>
  (do return (← digits1, "integer"))

/-- The characters that a reader takes. -/
def taken (p : Reader Unit) : Reader (List Char) := do
  let before ← get
  p
  return before.take (before.length - (← get).length)

def number : Reader Literal := do
  let sign ← taken (do
    let sign ← optional (satisfy fun c => c == '+' || c == '-')
    if sign.isSome then space)
  let (lexical, type) ← unsigned
  return .typed (String.ofList (sign ++ lexical)) (datatype type)

def boolean : Reader Literal :=
  (do exact "true"
      return .typed "true" (datatype "boolean")) <|>
  (do exact "false"
      return .typed "false" (datatype "boolean"))

def literal : Reader Literal := stringLiteral <|> number <|> boolean

end QueryContainment.Sparql
