import Mathlib.Data.List.Forall2
import Mathlib.Logic.Relator
import QueryContainment.Proofs.Conjunctive.Answers

namespace QueryContainment

variable {R R' : String → String → Prop}

theorem rel_imp {α β : Type} {P Q : α → β → Prop} {a : Option α} {b : Option β}
    (h : Option.Rel P a b) (hPQ : ∀ x y, P x y → Q x y) : Option.Rel Q a b := by
  cases h with
  | none => exact .none
  | some hxy => exact .some (hPQ _ _ hxy)

theorem rel_flip {α β : Type} {P : α → β → Prop} {a : Option α} {b : Option β}
    (h : Option.Rel P a b) : Option.Rel (flip P) b a := by
  cases h with
  | none => exact .none
  | some hxy => exact .some hxy

theorem exists_of_mem_forall₂ {α β : Type} {P : α → β → Prop} {l : List α} {l' : List β}
    (h : List.Forall₂ P l l') {a : α} (ha : a ∈ l) : ∃ b ∈ l', P a b := by
  induction h with
  | nil => simp at ha
  | @cons a' b _ _ hab _ ih =>
    rcases List.mem_cons.1 ha with rfl | ha
    · exact ⟨b, List.mem_cons_self, hab⟩
    · obtain ⟨b', hb', hab'⟩ := ih ha
      exact ⟨b', List.mem_cons_of_mem _ hb', hab'⟩

/-- Of variables `R` decides whether they are paired; all other terms are paired with themselves. -/
inductive Term.Paired (R : String → String → Prop) : Term → Term → Prop
  | iri (value : String) : Paired R (.iri value) (.iri value)
  | literal (value : Literal) : Paired R (.literal value) (.literal value)
  | var {x y : String} (h : R x y) : Paired R (.var x) (.var y)
  | blank (label : String) : Paired R (.blank label) (.blank label)

theorem Term.Paired.mono {t u : Term} (h : t.Paired R u) (hR : ∀ x y, R x y → R' x y) :
    t.Paired R' u := by
  cases h with
  | iri value => exact .iri value
  | literal value => exact .literal value
  | var hxy => exact .var (hR _ _ hxy)
  | blank label => exact .blank label

theorem Term.Paired.flip {t u : Term} (h : t.Paired R u) : u.Paired (flip R) t := by
  cases h with
  | iri value => exact .iri value
  | literal value => exact .literal value
  | var hxy => exact .var hxy
  | blank label => exact .blank label

theorem Term.Paired.right_unique (hR : Relator.RightUnique R) {t u u' : Term} (h : t.Paired R u)
    (h' : t.Paired R u') : u = u' := by
  cases h with
  | var hxy =>
    cases h' with
    | var hxy' => rw [hR hxy hxy']
  | _ =>
    cases h'
    rfl

theorem Term.Paired.left_unique (hR : Relator.LeftUnique R) {t t' u : Term} (h : t.Paired R u)
    (h' : t'.Paired R u) : t = t' := by
  have hflip : Relator.RightUnique fun y x => R x y := fun _ _ _ hx hy => hR hx hy
  exact right_unique hflip h.flip h'.flip

/-- Atoms with paired terms in all places. -/
structure Atom.Paired (R : String → String → Prop) (a b : Atom Term) : Prop where
  subject : a.subject.Paired R b.subject
  predicate : a.predicate.Paired R b.predicate
  object : a.object.Paired R b.object
  graph : Option.Rel (Term.Paired R) a.graph b.graph

theorem Atom.Paired.mono {a b : Atom Term} (h : a.Paired R b) (hR : ∀ x y, R x y → R' x y) :
    a.Paired R' b :=
  ⟨h.subject.mono hR, h.predicate.mono hR, h.object.mono hR,
    rel_imp h.graph fun _ _ ht => ht.mono hR⟩

theorem Atom.Paired.flip {a b : Atom Term} (h : a.Paired R b) : b.Paired (flip R) a :=
  ⟨h.subject.flip, h.predicate.flip, h.object.flip,
    rel_imp (rel_flip h.graph) fun _ _ ht => ht.flip⟩

theorem Atom.Paired.toList {a b : Atom Term} (h : a.Paired R b) :
    List.Forall₂ (Term.Paired R) a.toList b.toList := by
  have hgraph {g g' : Option Term} (hg : Option.Rel (Term.Paired R) g g') :
      List.Forall₂ (Term.Paired R) g.toList g'.toList := by
    cases hg with
    | none => exact .nil
    | some ht => exact .cons ht .nil
  exact .cons h.subject (.cons h.predicate (.cons h.object (hgraph h.graph)))

/-- Where paired terms have the same value, paired atoms have. -/
theorem Atom.Paired.map_eq {δ : Type} {v w : Term → δ} {a b : Atom Term} (h : a.Paired R b)
    (hv : ∀ t ∈ a.toList, ∀ u ∈ b.toList, t.Paired R u → v t = w u) : a.map v = b.map w := by
  obtain ⟨s, p, o, g⟩ := a
  obtain ⟨s', p', o', g'⟩ := b
  obtain ⟨hs, hp, ho, hg⟩ := h
  have hgraph : g.map v = g'.map w := by
    cases hg with
    | none => rfl
    | some ht => exact congrArg some (hv _ (by simp [Atom.toList]) _ (by simp [Atom.toList]) ht)
  simp only [Atom.map, hgraph, hv s (by simp [Atom.toList]) s' (by simp [Atom.toList]) hs,
    hv p (by simp [Atom.toList]) p' (by simp [Atom.toList]) hp,
    hv o (by simp [Atom.toList]) o' (by simp [Atom.toList]) ho]

open Classical in
noncomputable def carry (R : String → String → Prop) (v : Term → RdfTerm) : Term → RdfTerm
  | .var x => if h : ∃ y, R x y then v (.var h.choose) else .blank ""
  | t => v t

theorem faithful_carry {v : Term → RdfTerm} (hv : Faithful v) : Faithful (carry R v) := by
  intro t r ht
  cases t with
  | var x => simp [Term.ground?] at ht
  | _ => exact hv _ r ht

theorem carry_eq (hR : Relator.RightUnique R) {t u : Term} (h : t.Paired R u)
    (v : Term → RdfTerm) : carry R v t = v u := by
  cases h with
  | @var x y hxy =>
    have hex : ∃ y, R x y := ⟨y, hxy⟩
    rw [carry, dif_pos hex, hR hex.choose_spec hxy]
  | _ => rfl

theorem Atom.Paired.map_carry (hR : Relator.RightUnique R) {a b : Atom Term} (h : a.Paired R b)
    (v : Term → RdfTerm) : a.map (carry R v) = b.map v :=
  h.map_eq fun _ _ _ _ ht => carry_eq hR ht v

namespace ConjunctiveQuery

variable {q q' : ConjunctiveQuery Term}

/-- Queries with the same variables in the answer, whose atoms are paired. -/
structure Paired (R : String → String → Prop) (q q' : ConjunctiveQuery Term) : Prop where
  biUnique : Relator.BiUnique R
  atoms : List.Forall₂ (Atom.Paired R) q.atoms q'.atoms
  answer : ∀ x, x ∈ q.answer ↔ x ∈ q'.answer
  fixed : ∀ x ∈ q.answer, R x x

theorem Paired.flip (h : q.Paired R q') : q'.Paired (flip R) q :=
  ⟨⟨fun _ _ _ h₁ h₂ => h.biUnique.2 h₁ h₂, fun _ _ _ h₁ h₂ => h.biUnique.1 h₁ h₂⟩,
    h.atoms.flip.imp fun _ _ ha => ha.flip, fun x => (h.answer x).symm,
    fun x hx => h.fixed x ((h.answer x).2 hx)⟩

theorem Paired.termAnswers_subset (h : q.Paired R q') (D : Dataset) :
    q'.termAnswers D ⊆ q.termAnswers D := by
  rintro μ ⟨v, hv, hfacts, rfl⟩
  refine ⟨carry R v, faithful_carry hv, fun a ha => ?_, funext fun x => ?_⟩
  · obtain ⟨b, hb, hab⟩ := exists_of_mem_forall₂ h.atoms ha
    rw [hab.map_carry h.biUnique.2]
    exact hfacts b hb
  · by_cases hx : x ∈ q.answer
    · rw [if_pos hx, if_pos ((h.answer x).1 hx), carry_eq h.biUnique.2 (.var (h.fixed x hx))]
    · rw [if_neg hx, if_neg fun hx' => hx ((h.answer x).2 hx')]

/-- Paired queries have the same answers. -/
theorem Paired.termAnswers_eq (h : q.Paired R q') (D : Dataset) :
    q.termAnswers D = q'.termAnswers D :=
  (h.flip.termAnswers_subset D).antisymm (h.termAnswers_subset D)

end ConjunctiveQuery

end QueryContainment
