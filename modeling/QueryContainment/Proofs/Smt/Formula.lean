import QueryContainment.Proofs.Smt.SExpression

namespace QueryContainment.Smt

inductive Formula where
  | top
  | holds (subject predicate object graph : String)
  | equal (left right : String)
  | distinct (names : List String)
  | not (body : Formula)
  | and (left right : Formula)
  | exist (bound : List String) (body : Formula)

inductive Command where
  | declareSort (name : String)
  | declarePredicate (name : String) (places : List String)
  | declareConstant (name sort : String)
  | assert (f : Formula)
  | checkSat

namespace Formula

/-- The conjunction of a list; a single formula is a conjunction already. -/
def conj : List Formula → Formula
  | [] => top
  | [f] => f
  | f :: fs => and f (conj fs)

def name? : SExpr → Option String
  | .symbol name => some name
  | .list _ => none

def binding? : SExpr → Option String
  | .list [.symbol name, .symbol sort] => if sort = sortName then some name else none
  | _ => none

mutual

def ofSExpr? : SExpr → Option Formula
  | .symbol "true" => some top
  | .list [.symbol "P", .symbol s, .symbol p, .symbol o, .symbol g] => some (holds s p o g)
  | .list [.symbol "=", .symbol left, .symbol right] => some (equal left right)
  | .list (.symbol "distinct" :: names) => (names.mapM name?).map distinct
  | .list [.symbol "not", e] => (ofSExpr? e).map not
  | .list (.symbol "and" :: es) => (allOf? es).map conj
  | .list [.symbol "exists", .list bound, e] => do
    let names ← bound.mapM binding?
    let body ← ofSExpr? e
    return exist names body
  | _ => none

def allOf? : List SExpr → Option (List Formula)
  | [] => some []
  | e :: es => do
    let f ← ofSExpr? e
    let fs ← allOf? es
    return f :: fs

end

/--
Truth, given the relation that the predicate stands for and the values of the names. The values of
bound names are chosen anew, those of all others are kept.
-/
def Holds {δ : Type} (P : δ → δ → δ → δ → Prop) : (String → δ) → Formula → Prop
  | _, top => True
  | v, holds s p o g => P (v s) (v p) (v o) (v g)
  | v, equal left right => v left = v right
  | v, distinct names => (names.map v).Nodup
  | v, not body => ¬body.Holds P v
  | v, and left right => left.Holds P v ∧ right.Holds P v
  | v, exist bound body => ∃ w : String → δ, (∀ name, name ∉ bound → w name = v name) ∧
      body.Holds P w

theorem holds_conj {δ : Type} {P : δ → δ → δ → δ → Prop} {v : String → δ} {fs : List Formula} :
    (conj fs).Holds P v ↔ ∀ f ∈ fs, f.Holds P v := by
  induction fs with
  | nil => simp [conj, Holds]
  | cons f fs ih =>
    cases fs with
    | nil => simp [conj]
    | cons g fs =>
      rw [conj, Holds, ih, List.forall_mem_cons (a := f)]
      simp

end Formula

def Command.ofSExpr? : SExpr → Option Command
  | .list [.symbol "declare-sort", .symbol name, .symbol "0"] => some (.declareSort name)
  | .list [.symbol "declare-fun", .symbol name, .list places, .symbol "Bool"] =>
    (places.mapM Formula.name?).map (.declarePredicate name)
  | .list [.symbol "declare-const", .symbol name, .symbol sort] => some (.declareConstant name sort)
  | .list [.symbol "assert", e] => (Formula.ofSExpr? e).map .assert
  | .list [.symbol "check-sat"] => some .checkSat
  | _ => none

def Command.formula? : Command → Option Formula
  | .assert f => some f
  | _ => none

/-- The commands of a script. -/
def commands? (text : String) : Option (List Command) :=
  (expressions? text).bind (·.mapM Command.ofSExpr?)

/-- The formulas that a script asserts. -/
def assertions? (text : String) : Option (List Formula) :=
  (commands? text).map (·.filterMap Command.formula?)

/-- The formulas hold together in some domain, for some relation and some values of the names. -/
def Satisfiable (fs : List Formula) : Prop :=
  ∃ (δ : Type) (P : δ → δ → δ → δ → Prop) (v : String → δ), ∀ f ∈ fs, f.Holds P v

end QueryContainment.Smt
