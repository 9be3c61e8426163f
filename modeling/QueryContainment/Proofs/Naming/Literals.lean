import QueryContainment.Proofs.Naming.Run

namespace QueryContainment

namespace Literal

def taggedDatatype : String := "http://www.w3.org/1999/02/22-rdf-syntax-ns#langString"

/-- The language tag as it is given. -/
def language? : Literal → Option String
  | tagged _ tag => some tag
  | typed .. => none

def datatype : Literal → String
  | tagged .. => taggedDatatype
  | typed _ datatype => datatype

/-- A literal is its lexical form, language tag and datatype. -/
theorem eq_iff {a b : Literal} : a = b ↔
    a.lexical = b.lexical ∧ a.language? = b.language? ∧ a.datatype = b.datatype := by
  constructor
  · rintro rfl
    exact ⟨rfl, rfl, rfl⟩
  · rintro ⟨hlexical, hlanguage, hdatatype⟩
    cases a with
    | tagged lexical tag =>
      cases b with
      | tagged lexical' tag' =>
        obtain rfl : lexical = lexical' := hlexical
        rw [Option.some.inj hlanguage]
      | typed lexical' datatype' => cases hlanguage
    | typed lexical datatype =>
      cases b with
      | tagged lexical' tag' => cases hlanguage
      | typed lexical' datatype' =>
        obtain rfl : lexical = lexical' := hlexical
        obtain rfl : datatype = datatype' := hdatatype
        rfl

end Literal

namespace Naming

def writtenLiterals (n : Naming) : List (String × Symbol) :=
  n.entries.filterMap fun
    | (.literal l, s) => some (l.text, s)
    | _ => none

/-- Meets a literal that is looked for under its written form. -/
def meetWritten (n : Naming) (l : Literal) : Symbol × Naming :=
  match n.writtenLiterals.lookup l.text with
  | some s => (s, n)
  | none =>
    let s : Symbol := ⟨.literal, fresh n.taken ("l_" ++ toString n.literalCount)⟩
    (s, { n with entries := (.literal l, s) :: n.entries })

theorem lookup_writtenLiterals (n : Naming) (l : Literal) :
    n.writtenLiterals.lookup l.text = n.symbol? (.literal l) := by
  obtain ⟨entries, scopes⟩ := n
  show (List.filterMap _ entries).lookup l.text = entries.lookup (.literal l)
  induction entries with
  | nil => rfl
  | cons e entries ih =>
    obtain ⟨t, s⟩ := e
    rw [List.lookup_cons, ← ih]
    cases t with
    | literal l' =>
      have hsame : (l.text == l'.text) = (Term.literal l == Term.literal l') := by
        rw [Bool.eq_iff_iff, beq_iff_eq, beq_iff_eq, Literal.text_inj, Term.literal.injEq]
      rw [List.filterMap_cons, List.lookup_cons, hsame]
    | _ => rfl

/-- So it does not matter that literals are looked for under their written forms. -/
theorem meetWritten_eq (n : Naming) (l : Literal) :
    n.meetWritten l = (n.symbol (.literal l), n.add (.literal l)) := by
  rw [meetWritten, lookup_writtenLiterals]
  cases h : n.symbol? (.literal l) with
  | some s =>
    have hadd : n.add (.literal l) = n := if_pos (by rw [h]; rfl)
    rw [symbol_of_symbol? h, hadd]
  | none =>
    rw [add, if_neg (by simp [h]), symbol_kind_of_new h]
    rfl

/--
Whatever was met and read before, and in between: a literal that is met gets the symbol that another
one was given if and only if both have the same lexical form, language tag and datatype. It is found
under its written form, and so told by these as well.
-/
theorem symbol_literal_eq_iff (calls more : List Call) (a b : Literal) :
    (empty.after calls).meetWritten a =
        ((empty.after calls).symbol (.literal a), (empty.after calls).add (.literal a)) ∧
    (a.text = b.text ↔
      a.lexical = b.lexical ∧ a.language? = b.language? ∧ a.datatype = b.datatype) ∧
    ((empty.after calls).symbol (.literal a) =
        (empty.after (calls ++ .term (.literal a) :: more)).symbol (.literal b) ↔
      a.lexical = b.lexical ∧ a.language? = b.language? ∧ a.datatype = b.datatype) := by
  refine ⟨meetWritten_eq _ a, by rw [Literal.text_inj, Literal.eq_iff], ?_⟩
  -- both literals are in the table that is left when the second one has been met
  let n := empty.after (calls ++ .term (.literal a) :: more)
  have hn : (n.add (.literal b)).WellFormed := (sound_add (sound_after sound_empty _) _).toWellFormed
  have hfirst : (.literal a, (empty.after calls).symbol (.literal a)) ∈ n.entries := by
    show _ ∈ (empty.after (calls ++ _)).entries
    rw [after_append]
    exact (mem_entries_after more).2 (.inl (mem_entries_add.2 (.inr rfl)))
  have hsecond : (.literal b, n.symbol (.literal b)) ∈ (n.add (.literal b)).entries :=
    mem_entries_add.2 (.inr rfl)
  have hiff := symbol_eq_iff hn (mem_entries_add.2 (.inl hfirst)) hsecond
  rw [Term.literal.injEq, Literal.eq_iff] at hiff
  exact hiff

end Naming

end QueryContainment
