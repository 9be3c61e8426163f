namespace QueryContainment

inductive Literal where
  | tagged (lexical tag : String)
  | typed (lexical datatype : String)
deriving DecidableEq, Repr

namespace Literal

def stringDatatype : String := "http://www.w3.org/2001/XMLSchema#string"

def simple (lexical : String) : Literal := .typed lexical stringDatatype

def lexical : Literal → String
  | .tagged lexical _ => lexical
  | .typed lexical _ => lexical

def hexDigit (n : Nat) : Char :=
  Char.ofNat (if n < 10 then 48 + n else 55 + n)

def hex4 (n : Nat) : List Char :=
  [hexDigit (n / 4096 % 16), hexDigit (n / 256 % 16), hexDigit (n / 16 % 16), hexDigit (n % 16)]

def escapeChar (c : Char) : List Char :=
  if c = '\x08' then ['\\', 'b']
  else if c = '\t' then ['\\', 't']
  else if c = '\n' then ['\\', 'n']
  else if c = '\x0c' then ['\\', 'f']
  else if c = '\r' then ['\\', 'r']
  else if c = '"' then ['\\', '"']
  else if c = '\\' then ['\\', '\\']
  else if c.toNat < 0x20 ∨ c.toNat = 0x7f then '\\' :: 'u' :: hex4 c.toNat
  else [c]

def quote (lexical : String) : String :=
  "\"" ++ String.ofList (lexical.toList.flatMap escapeChar) ++ "\""

/-- The written form. The datatype of a simple literal is left out. -/
def text : Literal → String
  | .tagged lexical tag => quote lexical ++ "@" ++ tag
  | .typed lexical datatype =>
    if datatype = stringDatatype then quote lexical
    else quote lexical ++ "^^<" ++ datatype ++ ">"

end Literal

end QueryContainment
