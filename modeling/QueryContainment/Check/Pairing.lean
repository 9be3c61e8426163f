namespace QueryContainment

variable {α : Type}

/-- The value under a key; of several the last one counts. -/
def lookupLast (url : String) (l : List (String × α)) : Option α := l.reverse.lookup url

/--
For each service of the sub-query, in order, the one of the super-query at the same endpoint, or
else the first endpoint that the super-query does not address.
-/
def partners : List (String × α) → List (String × α) → Except String (List α)
  | [], _ => .ok []
  | (url, _) :: rest, sup =>
    match lookupLast url sup with
    | some partner => (partners rest sup).map (partner :: ·)
    | none => .error url

end QueryContainment
