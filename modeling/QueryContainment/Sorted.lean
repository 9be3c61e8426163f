namespace QueryContainment.Sorted

variable {α β : Type}

/-- Inserts an element into an ascending list, unless it is there already. -/
def insert (lt : α → α → Bool) (a : α) : List α → List α
  | [] => [a]
  | b :: l => if lt a b then a :: b :: l else if lt b a then b :: insert lt a l else b :: l

def ofList (lt : α → α → Bool) (l : List α) : List α :=
  l.foldl (fun sorted a => insert lt a sorted) []

/-- Binds a key in an ascending list of pairs; the value that the key had is replaced. -/
def bind (lt : α → α → Bool) (a : α) (v : β) : List (α × β) → List (α × β)
  | [] => [(a, v)]
  | (b, w) :: l =>
    if lt a b then (a, v) :: (b, w) :: l
    else if lt b a then (b, w) :: bind lt a v l
    else (a, v) :: l

/-- Strings are ordered by their code points. -/
def strings (l : List String) : List String :=
  ofList (fun a b => decide (a < b)) l

end QueryContainment.Sorted
