import QueryContainment.Rdf.IriReference

namespace QueryContainment.Sparql

def letterRanges : List (Nat × Nat) :=
  [ (0x41, 0x5a), (0x61, 0x7a), (0xc0, 0xd6), (0xd8, 0xf6), (0xf8, 0x2ff), (0x370, 0x37d),
    (0x37f, 0x1fff), (0x200c, 0x200d), (0x2070, 0x218f), (0x2c00, 0x2fef), (0x3001, 0xd7ff),
    (0xf900, 0xfdcf), (0xfdf0, 0xfffd) ]

def continuationRanges : List (Nat × Nat) :=
  [(0x30, 0x39), (0xb7, 0xb7), (0x300, 0x36f), (0x203f, 0x2040)]

def isLetter (c : Char) : Bool := IriReference.inRanges letterRanges c

def isNameStart (c : Char) : Bool := isLetter c || c == '_'

def isVarStart (c : Char) : Bool := isNameStart c || c.isDigit

def isVarChar (c : Char) : Bool := isNameStart c || IriReference.inRanges continuationRanges c

def isNameChar (c : Char) : Bool := isVarChar c || c == '-'

def isLocalStart (c : Char) : Bool := isVarStart c || c == ':'

def isLocalChar (c : Char) : Bool := isNameChar c || c == ':'

def isLocalEscape (c : Char) : Bool := "_~.-!$&'()*+,;=/?#@%".toList.contains c

def isSpace (c : Char) : Bool := c == ' ' || c == '\t' || c == '\n' || c == '\r'

def skipSpace : Bool → List Char → List Char
  | _, [] => []
  | true, c :: rest => skipSpace (c != '\n' && c != '\r') rest
  | false, c :: rest =>
    if isSpace c then skipSpace false rest else if c = '#' then skipSpace true rest else c :: rest

end QueryContainment.Sparql
