import QueryContainment.Rdf.IriReference

namespace QueryContainment.Sparql.LanguageTag

/-- The tags that are registered as a whole and do not follow the rules. -/
def irregular : List String :=
  [ "art-lojban", "cel-gaulish", "en-gb-oed", "i-ami", "i-bnn", "i-default", "i-enochian", "i-hak",
    "i-klingon", "i-lux", "i-mingo", "i-navajo", "i-pwn", "i-tao", "i-tay", "i-tsu", "no-bok",
    "no-nyn", "sgn-be-fr", "sgn-be-nl", "sgn-ch-de", "zh-guoyu", "zh-hakka", "zh-min",
    "zh-min-nan", "zh-xiang" ]

/-- What has been read of a tag; the last two tell whether a subtag has to follow. -/
inductive Stage where
  | language (extensions : Nat)
  | extended
  | script
  | region
  | extension (isEmpty : Bool)
  | privateUse (isEmpty : Bool)
deriving DecidableEq, Repr

def isAlpha (s : List Char) : Bool := s.all Char.isAlpha

def isAlnum (s : List Char) : Bool := s.all Char.isAlphanum

def Stage.mayEnd : Stage → Bool
  | extension isEmpty | privateUse isEmpty => !isEmpty
  | _ => true

def isRegion (s : List Char) : Bool :=
  (s.length == 2 && isAlpha s) || (s.length == 3 && s.all Char.isDigit)

def isVariant (s : List Char) : Bool :=
  isAlnum s && (s.length ≥ 5 || (s.length == 4 && s.head?.any Char.isDigit))

/-- The stage after one more subtag. -/
def Stage.next (stage : Stage) (s : List Char) : Option Stage :=
  if s.isEmpty || s.length > 8 || !isAlnum s then none
  else match stage with
    | privateUse _ => some (privateUse false)
    | extension true => if s.length = 1 then none else some (extension false)
    | stage =>
      if s = ['x'] then some (privateUse true)
      else if s.length = 1 then some (extension true)
      else match stage with
        | extension _ => some (extension false)
        | language n =>
          if s.length = 3 && isAlpha s then if n < 3 then some (language (n + 1)) else none
          else if s.length = 4 && isAlpha s then some script
          else if isRegion s || isVariant s then some region
          else none
        | extended =>
          if s.length = 4 && isAlpha s then some script
          else if isRegion s || isVariant s then some region
          else none
        | script => if isRegion s || isVariant s then some region else none
        | _ => if isVariant s then some region else none

def start (s : List Char) : Option Stage :=
  if s = ['x'] then some (.privateUse true)
  else if s.length < 2 || s.length > 8 || !isAlpha s then none
  else some (if s.length < 4 then .language 0 else .extended)

def isWellFormed (tag : List Char) : Bool :=
  irregular.contains (String.ofList tag) ||
    match IriReference.splitOnChar '-' tag with
    | [] => false
    | first :: rest =>
      ((start first).bind fun stage => rest.foldlM Stage.next stage).any Stage.mayEnd

end QueryContainment.Sparql.LanguageTag
