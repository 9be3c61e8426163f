import QueryContainment.Distinct
import QueryContainment.Naming.Fresh
import QueryContainment.Naming.Symbol
import QueryContainment.Rdf.Triple

namespace QueryContainment

/--
The symbols of one check. A term keeps the symbol that it is given when it is first met, and a name
that is taken is never given again.
-/
structure Naming where
  /-- The terms met so far with their symbols, the latest first. -/
  entries : List (Term × Symbol)
  /-- How many scopes of hidden variables have been opened. -/
  scopes : Nat
deriving Repr

namespace Naming

def empty : Naming := ⟨[], 0⟩

def symbol? (n : Naming) (t : Term) : Option Symbol := n.entries.lookup t

/-- The names in use, that of the default graph included. -/
def taken (n : Naming) : List String := defaultGraph :: n.entries.map (·.2.name)

def literalCount (n : Naming) : Nat := n.entries.countP fun e => e.1 matches .literal _

def blankCount (n : Naming) : Nat := n.entries.countP fun e => e.1 matches .blank _

def kindOf : Term → SymbolKind
  | .iri _ => .iri
  | .literal _ => .literal
  | .var _ | .blank _ => .var

/-- The name that a new term asks for. Literals and blank nodes are numbered as they are met. -/
def baseName (n : Naming) : Term → String
  | .iri value => iriName value
  | .literal _ => "l_" ++ toString n.literalCount
  | .var name => String.ofList (toNameChars name.toList)
  | .blank _ => "_b" ++ toString n.blankCount

/-- The symbol that a term has, or would be given if it were met now. -/
def symbol (n : Naming) (t : Term) : Symbol :=
  (n.symbol? t).getD ⟨kindOf t, fresh n.taken (n.baseName t)⟩

/-- Meets a term. -/
def add (n : Naming) (t : Term) : Naming :=
  if (n.symbol? t).isSome then n else { n with entries := (t, n.symbol t) :: n.entries }

def addAll (n : Naming) (ts : List Term) : Naming := ts.foldl add n

def varSymbol? (n : Naming) (name : String) : Option Symbol := n.symbol? (.var name)

/-- The name of the scope with a given number. -/
def scopeName (k : Nat) : String := "sq" ++ toString k

/--
The name of a variable within a scope. A variable of a query never has it, because `#` is no
character of variable names.
-/
def scopedName (name scope : String) : String := name ++ "#" ++ scope

def newScope (n : Naming) : String × Naming :=
  (scopeName n.scopes, { n with scopes := n.scopes + 1 })

/-- A table in which no two terms share a name, and none has that of the default graph. -/
structure WellFormed (n : Naming) : Prop where
  nodup_taken : n.taken.Nodup
  nodup_terms : (n.entries.map (·.1)).Nodup

theorem wellFormed_empty : empty.WellFormed := ⟨by simp [taken, empty], by simp [empty]⟩

theorem symbol_of_symbol? {n : Naming} {t : Term} {s : Symbol} (h : n.symbol? t = some s) :
    n.symbol t = s := by
  simp [symbol, h]

theorem symbol?_add_self (n : Naming) (t : Term) : (n.add t).symbol? t = some (n.symbol t) := by
  cases h : n.symbol? t with
  | some s => simp [add, symbol, h]
  | none =>
    rw [add, if_neg (by simp [h])]
    simp [symbol?]

theorem symbol?_add_of_some {n : Naming} {t u : Term} {s : Symbol} (h : n.symbol? t = some s) :
    (n.add u).symbol? t = some s := by
  unfold add
  split
  · exact h
  · next hu =>
    have hne : t ≠ u := fun he => hu (by simp [← he, h])
    simpa only [symbol?, List.lookup_cons, beq_false_of_ne hne] using h

theorem symbol?_addAll_of_some {n : Naming} {t : Term} {s : Symbol} (ts : List Term)
    (h : n.symbol? t = some s) : (n.addAll ts).symbol? t = some s := by
  induction ts generalizing n with
  | nil => exact h
  | cons u ts ih => exact ih (symbol?_add_of_some h)

theorem symbol?_addAll_of_mem {n : Naming} {t : Term} {ts : List Term} (h : t ∈ ts) :
    ((n.addAll ts).symbol? t).isSome := by
  induction ts generalizing n with
  | nil => simp at h
  | cons u ts ih =>
    rcases List.mem_cons.1 h with rfl | h
    · show (((n.add t).addAll ts).symbol? t).isSome
      rw [symbol?_addAll_of_some ts (symbol?_add_self n t)]
      rfl
    · exact ih h

theorem symbol_kind_of_new {n : Naming} {t : Term} (h : n.symbol? t = none) :
    n.symbol t = ⟨kindOf t, fresh n.taken (n.baseName t)⟩ := by
  simp [symbol, h]

theorem wellFormed_add {n : Naming} (h : n.WellFormed) (t : Term) : (n.add t).WellFormed := by
  unfold add
  split
  · exact h
  · next ht =>
    have hnone : n.symbol? t = none := by simpa using ht
    have hname : (n.symbol t).name ∉ n.taken := by
      rw [symbol_kind_of_new hnone]
      exact fresh_not_mem _ _
    refine ⟨?_, List.nodup_cons.2 ⟨fun hmem => ?_, h.nodup_terms⟩⟩
    · obtain ⟨hd, hn⟩ := List.nodup_cons.1 h.nodup_taken
      refine List.nodup_cons.2 ⟨fun hmem => ?_, List.nodup_cons.2 ⟨fun hmem => ?_, hn⟩⟩
      · exact (List.mem_cons.1 hmem).elim (fun he => hname (List.mem_cons.2 (.inl he.symm))) hd
      · exact hname (List.mem_cons_of_mem _ hmem)
    · obtain ⟨e, he, het⟩ := List.mem_map.1 hmem
      simpa [het] using List.lookup_eq_none_iff.1 hnone e he

theorem mem_entries_of_symbol? {n : Naming} {t : Term} {s : Symbol} (h : n.symbol? t = some s) :
    (t, s) ∈ n.entries := by
  obtain ⟨before, after, he, -⟩ := List.lookup_eq_some_iff.1 h
  simp [he]

end Naming

end QueryContainment
