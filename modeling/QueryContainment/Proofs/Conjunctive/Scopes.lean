import QueryContainment.Proofs.Algebra.Solutions
import QueryContainment.Proofs.Naming.Run

namespace QueryContainment

namespace Naming

theorem hash_not_mem_scopeName (k : Nat) : '#' ∉ (scopeName k).toList := by
  intro h
  have hchar := nameChars_append (List.all_eq_true.1 rfl) (nameChars_toString k) _ h
  exact absurd hchar (by decide)

theorem scopeName_inj {j k : Nat} (h : scopeName j = scopeName k) : j = k := by
  have hd := congrArg String.toList h
  simp only [scopeName, String.toList_append, List.append_cancel_left_eq] at hd
  have hn := congrArg (fun ds => Nat.ofDigitChars 10 ds 0) hd
  simpa [Nat.toString_eq_ofList_toDigits] using hn

/-- Of two texts with the same separator, one cannot reach over the separator of the other. -/
theorem append_cons_inj {l l' r r' : List Char} {c : Char} (hr : c ∉ r) (hr' : c ∉ r')
    (h : l ++ c :: r = l' ++ c :: r') : l = l' ∧ r = r' := by
  induction l generalizing l' with
  | nil =>
    cases l' with
    | nil => simpa using h
    | cons d l' =>
      simp only [List.nil_append, List.cons_append, List.cons.injEq] at h
      exact absurd (h.2 ▸ List.mem_append_right l' List.mem_cons_self) hr
  | cons d l ih =>
    cases l' with
    | nil =>
      simp only [List.nil_append, List.cons_append, List.cons.injEq] at h
      exact absurd (h.2 ▸ List.mem_append_right l List.mem_cons_self) hr'
    | cons e l' =>
      simp only [List.cons_append, List.cons.injEq] at h
      obtain ⟨hl, hrest⟩ := ih h.2
      exact ⟨by rw [h.1, hl], hrest⟩

/-- A name within a scope tells the name and the scope, even if there is a `#` in the name. -/
theorem scopedName_inj {x y : String} {j k : Nat}
    (h : scopedName x (scopeName j) = scopedName y (scopeName k)) : x = y ∧ j = k := by
  have hd := congrArg String.toList h
  simp only [scopedName, String.toList_append, List.append_assoc] at hd
  obtain ⟨hx, hk⟩ := append_cons_inj (hash_not_mem_scopeName j) (hash_not_mem_scopeName k) hd
  exact ⟨String.toList_inj.1 hx, scopeName_inj (String.toList_inj.1 hk)⟩

theorem hash_mem_scopedName (x scope : String) : '#' ∈ (scopedName x scope).toList := by
  simp [scopedName]

theorem ne_scopedName {x : String} (h : '#' ∉ x.toList) (y scope : String) :
    x ≠ scopedName y scope := fun he => h (he ▸ hash_mem_scopedName y scope)

end Naming

open Naming

/-- A blank node with one of the labels, or a variable hidden in a scope from `lo` up to `hi`. -/
def Inner (labels : List String) (lo hi : Nat) : Term → Prop
  | .blank label => label ∈ labels
  | .var name => ∃ x k, lo ≤ k ∧ k < hi ∧ name = scopedName x (scopeName k)
  | _ => False

theorem Inner.mono {labels labels' : List String} {lo lo' hi hi' : Nat} {t : Term}
    (h : Inner labels lo hi t) (hl : ∀ label ∈ labels, label ∈ labels') (hlo : lo' ≤ lo)
    (hhi : hi ≤ hi') : Inner labels' lo' hi' t := by
  cases t with
  | iri value => exact h
  | literal value => exact h
  | var name =>
    obtain ⟨x, k, hk, hk', he⟩ := h
    exact ⟨x, k, hlo.trans hk, Nat.lt_of_lt_of_le hk' hhi, he⟩
  | blank label => exact hl label h

def Unhidden (lo hi : Nat) (x : String) : Prop :=
  ∀ y k, lo ≤ k → k < hi → x ≠ scopedName y (scopeName k)

theorem Unhidden.mono {lo lo' hi hi' : Nat} {x : String} (h : Unhidden lo hi x) (hlo : lo ≤ lo')
    (hhi : hi' ≤ hi) : Unhidden lo' hi' x :=
  fun y k hk hk' => h y k (hlo.trans hk) (Nat.lt_of_lt_of_le hk' hhi)

namespace Pattern

/-- All variables of the triples avoid the scopes from `lo` up to `hi`. -/
def AvoidsScopes (p : Pattern) (lo hi : Nat) : Prop :=
  ∀ triples ∈ p.basics, ∀ x ∈ triples.flatMap TriplePattern.vars, Unhidden lo hi x

theorem PlainNames.avoidsScopes {p : Pattern} (h : p.PlainNames) (lo hi : Nat) :
    p.AvoidsScopes lo hi :=
  fun triples ht x hx y k _ _ => ne_scopedName (h triples ht x hx) y (scopeName k)

/-- No scope at all is opened. -/
theorem avoidsScopes_self (p : Pattern) (k : Nat) : p.AvoidsScopes k k :=
  fun _ _ _ _ _ _ hk hk' => absurd hk (by omega)

namespace AvoidsScopes

variable {p : Pattern} {lo hi : Nat}

theorem mono {lo' hi' : Nat} (h : p.AvoidsScopes lo hi) (hlo : lo ≤ lo') (hhi : hi' ≤ hi) :
    p.AvoidsScopes lo' hi' := fun triples ht x hx => (h triples ht x hx).mono hlo hhi

theorem of_join {left right : Pattern} (h : (join left right).AvoidsScopes lo hi) :
    left.AvoidsScopes lo hi ∧ right.AvoidsScopes lo hi :=
  ⟨fun b hb => h b (by simp [hb]), fun b hb => h b (by simp [hb])⟩

theorem of_mem_bound (h : p.AvoidsScopes lo hi) {x : String} (hx : x ∈ p.bound) :
    Unhidden lo hi x := by
  obtain ⟨b, hb, hx⟩ := exists_basic_of_mem_bound hx
  exact h b hb x hx

end AvoidsScopes

end Pattern

namespace Context

/-- The variables of a pattern stand for terms of the outside: no scope of its own hides them. -/
theorem not_inner_rename_var {c : Context} {lo hi : Nat} (hc : ∀ s ∈ c.subSelects, s.scope < lo)
    (labels : List String) {x : String} (hx : Unhidden lo hi x) :
    ¬Inner labels lo hi (c.rename (.var x)) := by
  intro h
  cases hh : c.hiddenIn x with
  | none =>
    simp only [rename, hh] at h
    obtain ⟨y, k, hk, hk', he⟩ := h
    exact hx y k hk hk' he
  | some j =>
    simp only [rename, hh] at h
    obtain ⟨y, k, hk, -, he⟩ := h
    obtain ⟨s, hs, rfl⟩ := Option.map_eq_some_iff.1 hh
    have hlt := hc s (List.mem_of_find?_eq_some hs)
    have := (scopedName_inj he).2
    omega

theorem hiddenIn_cons (c : Context) (s : SubSelect) (x : String) :
    { c with subSelects := s :: c.subSelects }.hiddenIn x =
      if x ∈ s.listed then c.hiddenIn x else some s.scope := by
  by_cases h : x ∈ s.listed <;> simp [hiddenIn, h]

/-- A sub-select leaves the variables that it lists as they are. -/
theorem rename_cons_of_listed {c : Context} {s : SubSelect} {x : String} (h : x ∈ s.listed) :
    { c with subSelects := s :: c.subSelects }.rename (.var x) = c.rename (.var x) := by
  simp only [rename, hiddenIn_cons, if_pos h]

/-- A sub-select renames all others into its scope. -/
theorem rename_cons_of_not_listed {c : Context} {s : SubSelect} {x : String}
    (h : x ∉ s.listed) : { c with subSelects := s :: c.subSelects }.rename (.var x) =
      .var (scopedName x (scopeName s.scope)) := by
  simp only [rename, hiddenIn_cons, if_neg h]

end Context

/-- The terms of a triple that is read are its own terms. -/
theorem TriplePattern.terms_eq_ok {t : TriplePattern} {terms : Triple Term}
    (h : t.terms = .ok terms) : Term.ofPattern t.subject = .ok terms.subject ∧
      terms.predicate = Term.ofIriOrVar t.predicate ∧
      Term.ofPattern t.object = .ok terms.object := by
  unfold TriplePattern.terms at h
  cases hs : Term.ofPattern t.subject with
  | error reason => simp [hs, bind, Except.bind] at h
  | ok s =>
    cases ho : Term.ofPattern t.object with
    | error reason => simp [hs, ho, bind, Except.bind] at h
    | ok o =>
      simp only [hs, ho, bind, Except.bind, pure, Except.pure, Except.ok.injEq] at h
      subst h
      exact ⟨rfl, rfl, rfl⟩

namespace Term

/-- What is not a quoted triple is a term as it stands. -/
theorem ofPattern_eq_ok {p : PatternTerm} {t : Term} (h : ofPattern p = .ok t) :
    (∃ value, p = .iri value ∧ t = .iri value) ∨
    (∃ value, p = .literal value ∧ t = .literal value) ∨
    (∃ name, p = .var name ∧ t = .var name) ∨
    ∃ label, p = .blank label ∧ t = .blank label := by
  cases p <;> simp_all [ofPattern, eq_comm]

theorem varName?_ofPattern {p : PatternTerm} {t : Term} (h : ofPattern p = .ok t) (x : String) :
    t.varName? = some x ↔ x ∈ p.vars := by
  rcases ofPattern_eq_ok h with ⟨_, rfl, rfl⟩ | ⟨_, rfl, rfl⟩ | ⟨_, rfl, rfl⟩ | ⟨_, rfl, rfl⟩ <;>
    simp [varName?, PatternTerm.vars, eq_comm]

theorem mem_blanks_of_ofPattern {p : PatternTerm} {label : String}
    (h : ofPattern p = .ok (.blank label)) : label ∈ p.blanks := by
  cases p <;> simp_all [ofPattern, PatternTerm.blanks]

end Term

/-- The variables and blank nodes among the terms of a triple are those of the triple. -/
theorem TriplePattern.mem_of_terms {t : TriplePattern} {terms : Triple Term}
    (h : t.terms = .ok terms) {u : Term} (hu : u ∈ terms.toList) :
    (∀ x, u = .var x → x ∈ t.vars) ∧ ∀ label, u = .blank label → label ∈ t.blanks := by
  obtain ⟨hs, hp, ho⟩ := terms_eq_ok h
  simp only [Triple.toList, List.mem_cons, List.not_mem_nil, or_false] at hu
  simp only [TriplePattern.vars, TriplePattern.blanks, List.mem_append]
  rcases hu with rfl | rfl | rfl
  · exact ⟨fun x hx => .inl (.inl ((Term.varName?_ofPattern hs x).1 (hx ▸ rfl))),
      fun label hl => .inl (Term.mem_blanks_of_ofPattern (hl ▸ hs))⟩
  · rw [hp]
    cases t.predicate <;> simp [Term.ofIriOrVar, IriOrVar.vars]
  · exact ⟨fun x hx => .inr ((Term.varName?_ofPattern ho x).1 (hx ▸ rfl)),
      fun label hl => .inr (Term.mem_blanks_of_ofPattern (hl ▸ ho))⟩

namespace Pattern

theorem blanks_join (left right : Pattern) :
    (join left right).blanks = left.blanks ++ right.blanks := by
  simp [blanks]

theorem scopes_steps_project (c : Context) (k : Nat) (inner : Pattern) (names : List String) :
    Step.scopes ((project inner names).steps c k) = Step.scopes
      (inner.steps { c with subSelects := ⟨k, names⟩ :: c.subSelects } (k + 1)) + 1 :=
  List.countP_cons_of_pos rfl

theorem scopes_steps_join (c : Context) (k : Nat) (left right : Pattern) :
    Step.scopes ((join left right).steps c k) = Step.scopes (left.steps c k) +
      Step.scopes (right.steps c (k + Step.scopes (left.steps c k))) := by
  simp [steps, Step.scopes]

theorem scopes_steps_service (c : Context) (k : Nat) (url : String) (inner : Pattern) :
    Step.scopes ((service (.iri url) inner).steps c k) =
      Step.scopes (inner.steps { c with graph := some url } k) :=
  List.countP_cons_of_neg Bool.false_ne_true

/--
No atom of a pattern has a term that is private to a pattern with other blank nodes and later
scopes.
-/
theorem not_inner_of_mem_steps {p : Pattern} {c : Context} {k lo hi : Nat} {labels : List String}
    (hn : p.AvoidsScopes lo hi) (hb : ∀ label ∈ labels, label ∉ p.blanks)
    (hc : ∀ s ∈ c.subSelects, s.scope < lo) (hk : k + Step.scopes (p.steps c k) ≤ lo)
    {a : Atom Term} {visible : List String} (ha : .atom a visible ∈ p.steps c k) :
    ∀ t ∈ a.toList, ¬Inner labels lo hi t := by
  induction p generalizing c k with
  | bgp triples =>
    obtain ⟨triple, htriple, hstep⟩ := List.mem_map.1 ha
    obtain ⟨terms, hterms, rfl, -⟩ := Step.ofTriple_eq_atom hstep
    have hplace : ∀ u ∈ terms.toList, ¬Inner labels lo hi (c.rename u) := by
      intro u hu
      obtain ⟨hvar, hblank⟩ := TriplePattern.mem_of_terms hterms hu
      cases u with
      | iri value => exact id
      | literal value => exact id
      | var x =>
        exact Context.not_inner_rename_var hc labels
          (hn triples (by simp) x (List.mem_flatMap.2 ⟨triple, htriple, hvar x rfl⟩))
      | blank label =>
        intro hl
        refine hb label hl ?_
        simp only [blanks, basics_bgp, List.flatMap_cons, List.flatMap_nil, List.append_nil]
        exact List.mem_flatMap.2 ⟨triple, htriple, hblank label rfl⟩
    intro t ht
    rcases Atom.mem_toList.1 ht with ht | ht
    · simp only [Atom.places, List.mem_cons, List.not_mem_nil, or_false] at ht
      rcases ht with rfl | rfl | rfl <;> exact hplace _ (by simp [Triple.toList])
    · obtain ⟨url, -, rfl⟩ := Option.map_eq_some_iff.1 ht
      exact id
  | join left right ihl ihr =>
    rw [scopes_steps_join] at hk
    simp only [blanks_join, List.mem_append, not_or] at hb
    -- the right part opens its scopes after those of the left part, and all of them before `lo`
    rcases List.mem_append.1 ha with ha | ha
    · exact ihl hn.of_join.1 (fun l h => (hb l h).1) hc (by omega) ha
    · exact ihr hn.of_join.2 (fun l h => (hb l h).2) hc (by omega) ha
  | distinct inner ih => exact ih hn hb hc hk ha
  | reduced inner ih => exact ih hn hb hc hk ha
  | orderBy inner ih => exact ih hn hb hc hk ha
  | project inner names ih =>
    rw [scopes_steps_project] at hk
    simp only [steps, List.mem_cons, reduceCtorEq, false_or] at ha
    exact ih hn hb (List.forall_mem_cons.2 ⟨by show k < lo; omega, hc⟩) (by omega) ha
  | service name inner ih =>
    cases name with
    | var name => simp [steps] at ha
    | iri url =>
      rw [scopes_steps_service] at hk
      simp only [steps, List.mem_cons, reduceCtorEq, false_or] at ha
      exact ih (c := { c with graph := some url }) hn hb hc hk ha
  | _ => simp [steps] at ha

end Pattern

end QueryContainment
