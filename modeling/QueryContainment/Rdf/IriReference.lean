namespace QueryContainment

/--
The parts of an IRI reference. Like the SPARQL reader, which alone uses it, this module stands for
a library.
-/
structure IriReference where
  scheme : Option (List Char)
  authority : Option (List Char)
  path : List Char
  query : Option (List Char)
  fragment : Option (List Char)
deriving DecidableEq, Repr

namespace IriReference

def inRanges (ranges : List (Nat × Nat)) (c : Char) : Bool :=
  ranges.any fun r => r.1 ≤ c.toNat && c.toNat ≤ r.2

def unicodeRanges : List (Nat × Nat) :=
  [ (0xa0, 0xd7ff), (0xf900, 0xfdcf), (0xfdf0, 0xffef), (0x10000, 0x1fffd), (0x20000, 0x2fffd),
    (0x30000, 0x3fffd), (0x40000, 0x4fffd), (0x50000, 0x5fffd), (0x60000, 0x6fffd),
    (0x70000, 0x7fffd), (0x80000, 0x8fffd), (0x90000, 0x9fffd), (0xa0000, 0xafffd),
    (0xb0000, 0xbfffd), (0xc0000, 0xcfffd), (0xd0000, 0xdfffd), (0xe1000, 0xefffd) ]

def privateRanges : List (Nat × Nat) :=
  [(0xe000, 0xf8ff), (0xf0000, 0xffffd), (0x100000, 0x10fffd)]

def isHexDigit (c : Char) : Bool :=
  c.isDigit || ('a' ≤ c && c ≤ 'f') || ('A' ≤ c && c ≤ 'F')

def isPlainAscii (c : Char) : Bool := c.isAlphanum || "-._~!$&'()*+,;=".toList.contains c

def isPlain (c : Char) : Bool := isPlainAscii c || inRanges unicodeRanges c

def allOf (allowed : Char → Bool) : List Char → Bool
  | '%' :: a :: b :: rest => isHexDigit a && isHexDigit b && allOf allowed rest
  | c :: rest => c != '%' && allowed c && allOf allowed rest
  | [] => true

def isScheme : List Char → Bool
  | c :: rest => c.isAlpha && rest.all fun c => c.isAlphanum || "+-.".toList.contains c
  | [] => false

def splitOnChar (sep : Char) : List Char → List (List Char)
  | [] => [[]]
  | c :: rest =>
    match splitOnChar sep rest with
    | [] => [[c]]
    | part :: parts => if c = sep then [] :: part :: parts else (c :: part) :: parts

def isByteNumber (s : List Char) : Bool :=
  !s.isEmpty && s.length ≤ 3 && s.all Char.isDigit && (s.length == 1 || s.head? != some '0')
    && (String.ofList s).toNat?.any (· < 256)

/-- Dotted decimal notation of four bytes. -/
def isIpv4 (s : List Char) : Bool :=
  let parts := splitOnChar '.' s
  parts.length == 4 && parts.all isByteNumber

def isIpv6Group (s : List Char) : Bool := !s.isEmpty && s.length ≤ 4 && s.all isHexDigit

def ipv6Groups? (s : List Char) : Option Nat :=
  if s.isEmpty then some 0
  else
    let parts := splitOnChar ':' s
    let front := parts.dropLast
    match parts.getLast? with
    | some last =>
      if front.all isIpv6Group then
        if isIpv6Group last then some parts.length
        else if isIpv4 last then some (parts.length + 1)
        else none
      else none
    | none => none

def splitDoubleColon : List Char → Option (List Char × List Char)
  | ':' :: ':' :: rest => some ([], rest)
  | c :: rest => (splitDoubleColon rest).map fun (a, b) => (c :: a, b)
  | [] => none

def isIpv6 (s : List Char) : Bool :=
  match splitDoubleColon s with
  | none => ipv6Groups? s == some 8
  | some (front, back) =>
    match ipv6Groups? front, ipv6Groups? back with
    | some m, some n => m + n ≤ 7 && !front.contains '.'
    | _, _ => false

def isFutureAddress : List Char → Bool
  | v :: rest =>
    let version := rest.takeWhile (· != '.')
    let address := (rest.dropWhile (· != '.')).drop 1
    (v == 'v' || v == 'V') && !version.isEmpty && version.all isHexDigit && !address.isEmpty
      && address.all fun c => isPlainAscii c || c == ':'
  | [] => false

def isHost : List Char → Bool
  | '[' :: rest =>
    let address := rest.takeWhile (· != ']')
    (isIpv6 address || isFutureAddress address) &&
      match rest.dropWhile (· != ']') with
      | [']'] => true
      | ']' :: ':' :: digits => digits.all Char.isDigit
      | _ => false
  | s =>
    allOf isPlain (s.takeWhile (· != ':')) && ((s.dropWhile (· != ':')).drop 1).all Char.isDigit

def isAuthority (s : List Char) : Bool :=
  match s.dropWhile (· != '@') with
  | _ :: host =>
    allOf (fun c => isPlain c || c == ':') (s.takeWhile (· != '@')) && isHost host
  | [] => isHost s

def isPathChar (c : Char) : Bool := isPlain c || c == '/' || c == ':' || c == '@'

def isQueryChar (c : Char) : Bool := isPathChar c || c == '?' || inRanges privateRanges c

def isFragmentChar (c : Char) : Bool := isPathChar c || c == '?'

def startsWithColonSegment (path : List Char) : Bool := (path.takeWhile (· != '/')).contains ':'

/-- A reference without scheme and authority has no colon in its first segment. -/
def isValid (r : IriReference) : Bool :=
  (r.scheme.isSome || r.authority.isSome || !startsWithColonSegment r.path)
    && r.scheme.all isScheme && r.authority.all isAuthority && allOf isPathChar r.path
    && r.query.all (allOf isQueryChar) && r.fragment.all (allOf isFragmentChar)

/-- The text before a character, and the text after it if the character is there. -/
def cut (c : Char) (s : List Char) : List Char × Option (List Char) :=
  match s.dropWhile (· != c) with
  | _ :: rest => (s.takeWhile (· != c), some rest)
  | [] => (s, none)

def cutScheme (s : List Char) : Option (List Char) × List Char :=
  match cut ':' s with
  | (scheme, some rest) => if isScheme scheme then (some scheme, rest) else (none, s)
  | (_, none) => (none, s)

def ofChars (s : List Char) : IriReference :=
  let (s, fragment) := cut '#' s
  let (s, query) := cut '?' s
  let (scheme, s) := cutScheme s
  match s with
  | '/' :: '/' :: rest =>
    ⟨scheme, some (rest.takeWhile (· != '/')), rest.dropWhile (· != '/'), query, fragment⟩
  | path => ⟨scheme, none, path, query, fragment⟩

def toChars (r : IriReference) : List Char :=
  r.scheme.elim [] (· ++ [':']) ++ r.authority.elim [] (['/', '/'] ++ ·) ++ r.path
    ++ r.query.elim [] ('?' :: ·) ++ r.fragment.elim [] ('#' :: ·)

def directory (path : List Char) : List Char := (path.reverse.dropWhile (· != '/')).reverse

def rooted (hasAuthority : Bool) (path : List Char) : List Char :=
  if hasAuthority && path.isEmpty then ['/'] else path

def parent (hasAuthority : Bool) (path : List Char) : List Char :=
  rooted hasAuthority (directory path.dropLast)

def isAmbiguous (hasAuthority : Bool) (path : List Char) : Bool :=
  !hasAuthority && ['/', '/'].isPrefixOf path

/--
Goes along segments from a directory, `.` staying where it is and `..` going up. No path on the way
may end a segment, however empty, when it could be taken for an authority.
-/
def follow (hasAuthority : Bool) (path : List Char) : List (List Char) → Option (List Char)
  | [] => some path
  | s :: rest =>
    let isDots := s = ['.'] || s = ['.', '.']
    let path := if s = ['.', '.'] then parent hasAuthority path
      else if isDots then path else path ++ s
    if isAmbiguous hasAuthority path then none
    else if rest.isEmpty then some path
    else follow hasAuthority (if isDots then path else path ++ ['/']) rest

def resolvePath (base : IriReference) (path : List Char) : Option (List Char) :=
  let hasAuthority := base.authority.isSome
  match path with
  | '/' :: rest => follow hasAuthority ['/'] (splitOnChar '/' rest)
  | _ => follow hasAuthority (rooted hasAuthority (directory base.path)) (splitOnChar '/' path)

/-- Only a path that is relative to the base is worked out; all others stay as they are. -/
def resolve (base r : IriReference) : Option IriReference :=
  if r.scheme.isSome then some r
  else if r.authority.isSome then some { r with scheme := base.scheme }
  else if r.path.isEmpty then
    some ⟨base.scheme, base.authority, base.path, r.query.or base.query, r.fragment⟩
  else (resolvePath base r.path).map (⟨base.scheme, base.authority, ·, r.query, r.fragment⟩)

/-- The absolute IRI that a text stands for, with a base or without one. -/
def absolute? (base : Option String) (text : List Char) : Option String := do
  let r := ofChars text
  let resolved ← match base with
    | some base => resolve (ofChars base.toList) r
    | none => some r
  if r.isValid && resolved.scheme.isSome then some (String.ofList resolved.toChars) else none

end IriReference

end QueryContainment
