import QueryContainment.Algebra.Pattern
import QueryContainment.Sparql.Character

namespace QueryContainment.Sparql

/-- What is known about the text so far. It is kept when a reader refuses. -/
structure Session where
  base : Option String
  namespaces : List (String × String)
  /-- The labels of blank nodes in this group, and those that belong to other groups. -/
  labels : List String
  otherLabels : List String
  /-- How many names have been made up. -/
  invented : Nat
  /-- The results of the aggregates, for each `SELECT` that is open, the innermost first. -/
  aggregates : List (List String)
deriving Repr

namespace Session

def start : Session := ⟨none, [], [], [], 0, []⟩

end Session

/--
Takes some of the text or refuses. Of two alternatives the second is tried where the first began,
with all that was noted on the way.
-/
abbrev Reader := StateT (List Char) (OptionT (StateM Session))

namespace Reader

variable {α β : Type}

def session : Reader Session := getThe Session

def note (f : Session → Session) : Reader Unit := modifyThe Session f

def satisfy (p : Char → Bool) : Reader Char := do
  match ← get with
  | c :: rest => if p c then set rest *> return c else failure
  | [] => failure

def char (c : Char) : Reader Unit := do let _ ← satisfy (· == c)

def exact (s : String) : Reader Unit := s.toList.forM char

/-- Refuses where `p` does not, and takes nothing. -/
def no (p : Reader α) : Reader Unit := do
  let text ← get
  match ← optional p with
  | some _ => failure
  | none => set text

def atMost (p : Reader α) : Nat → Reader (List α)
  | 0 => return []
  | n + 1 => do
    match ← optional p with
    | some a => return a :: (← atMost p n)
    | none => return []

/-- Repeats a reader that takes at least one character until it refuses. -/
def many (p : Reader α) : Reader (List α) := do atMost p (← get).length

def many1 (p : Reader α) : Reader (List α) := do return (← p) :: (← many p)

def sepBy1 (p : Reader α) (sep : Reader β) : Reader (List α) := do
  return (← p) :: (← many (sep *> p))

def sepBy (p : Reader α) (sep : Reader β) : Reader (List α) := sepBy1 p sep <|> pure []

/-- Skips white space and comments. -/
def space : Reader Unit := modify (skipSpace false)

/-- An upper or lower case keyword, whatever follows it. -/
def keyword (k : String) : Reader Unit := do
  let text ← get
  if (text.take k.length).map Char.toUpper = k.toList then set (text.drop k.length) else failure

/-- A mark with space around it. -/
def mark (s : String) : Reader Unit := do space; exact s; space

def between (left right : String) (p : Reader α) : Reader α := do
  exact left
  space
  let a ← p
  space
  exact right
  return a

def require (b : Bool) : Reader Unit := if b then return () else failure

def give : Option α → Reader α
  | some a => return a
  | none => failure

/-- A name that no text can write. -/
def invent : Reader String := do
  let n := (← session).invented
  note fun s => { s with invented := n + 1 }
  return "[" ++ toString n ++ "]"

end Reader

end QueryContainment.Sparql
