import QueryContainment.Proofs.Conjunctive.Homomorphism
import QueryContainment.Proofs.Conjunctive.QueryAnswers

namespace QueryContainment

open Naming

variable {n : Naming} {sub sup : ConjunctiveQuery Symbol}

def frozen (n : Naming) (s : Symbol) : RdfTerm :=
  ((n.term? s).bind Term.ground?).getD (.blank s.name)

theorem frozen_of_ground (hn : n.WellFormed) {e : Term × Symbol} (he : e ∈ n.entries)
    {r : RdfTerm} (hr : e.1.ground? = some r) : frozen n e.2 = r := by
  rw [frozen, term?_of_mem hn he, Option.bind_some, hr, Option.getD_some]

theorem frozen_of_not_ground (hn : n.WellFormed) {e : Term × Symbol} (he : e ∈ n.entries)
    (hr : e.1.ground? = none) : frozen n e.2 = .blank e.2.name := by
  rw [frozen, term?_of_mem hn he, Option.bind_some, hr, Option.getD_none]

theorem respects_frozen (hn : n.WellFormed) : n.Respects (frozen n) :=
  fun _ he _ hr => frozen_of_ground hn he hr

theorem Term.eq_of_ground? {t u : Term} {r : RdfTerm} (ht : t.ground? = some r)
    (hu : u.ground? = some r) : t = u := by
  cases t <;> cases u <;> simp only [Term.ground?, Option.some.injEq, reduceCtorEq] at ht hu <;>
    subst hu <;> simp_all

theorem Term.ground?_ne_blank (t : Term) (label : String) : t.ground? ≠ some (.blank label) := by
  cases t <;> simp [Term.ground?]

theorem frozen_injective (hn : n.WellFormed) {e e' : Term × Symbol} (he : e ∈ n.entries)
    (he' : e' ∈ n.entries) (h : frozen n e.2 = frozen n e'.2) : e.2 = e'.2 := by
  have hterm : e.1 = e'.1 := by
    -- blank nodes are told apart by names, and from what is frozen to itself
    cases hg : e.1.ground? with
    | some r =>
      rw [frozen_of_ground hn he hg] at h
      cases hg' : e'.1.ground? with
      | some r' =>
        rw [frozen_of_ground hn he' hg'] at h
        exact Term.eq_of_ground? hg (h ▸ hg')
      | none =>
        rw [frozen_of_not_ground hn he' hg'] at h
        exact absurd (h ▸ hg) (Term.ground?_ne_blank _ _)
    | none =>
      rw [frozen_of_not_ground hn he hg] at h
      cases hg' : e'.1.ground? with
      | some r' =>
        rw [frozen_of_ground hn he' hg'] at h
        exact absurd (h ▸ hg') (Term.ground?_ne_blank _ _)
      | none =>
        rw [frozen_of_not_ground hn he' hg'] at h
        exact (name_eq_iff hn he he').1 (RdfTerm.blank.inj h)
  rw [← symbol_of_mem_entries hn he, ← symbol_of_mem_entries hn he', hterm]

def frozenDataset (n : Naming) (q : ConjunctiveQuery Symbol) : Dataset :=
  {quad | ∃ a ∈ q.atoms, a.map (frozen n) =
    ⟨quad.subject, quad.predicate, quad.object, quad.graph.map .iri⟩}

theorem mem_facts_frozenDataset (hn : n.Sound) {q : ConjunctiveQuery Symbol} (hq : q.NamedBy n)
    (b : Atom RdfTerm) :
    b ∈ (frozenDataset n q).facts ↔ ∃ a ∈ q.atoms, b = a.map (frozen n) := by
  constructor
  · rintro ⟨g, hg, a, ha, hab⟩
    refine ⟨a, ha, ?_⟩
    rw [hab]
    simp only [← hg]
  · rintro ⟨a, ha, rfl⟩
    have hgraph : ∃ g : Option String, (a.map (frozen n)).graph = g.map .iri := by
      cases hg : a.graph with
      | none => exact ⟨none, by simp [Atom.map, hg]⟩
      | some s =>
        obtain ⟨t, ht⟩ := hq.named a ha s (Atom.mem_toList.2 (.inr hg))
        have hkind := (hn.kind_eq _ ht).symm.trans (hq.graph_kind a ha s hg)
        cases t with
        | iri url =>
          have hs := frozen_of_ground hn.toWellFormed ht rfl
          exact ⟨some url, by simpa [Atom.map, hg] using hs⟩
        | _ => cases hkind
    obtain ⟨g, hg⟩ := hgraph
    refine ⟨g, hg, a, ha, ?_⟩
    simp only [← hg]

theorem isSome_ground? (hn : n.Sound) {e : Term × Symbol} (he : e ∈ n.entries)
    (h : e.2.isVar = false) : e.1.ground?.isSome := by
  rw [Symbol.isVar, hn.kind_eq e he] at h
  cases ht : e.1 <;> simp_all [Term.ground?, kindOf]

theorem isVar_of_ground? (hn : n.Sound) {e : Term × Symbol} (he : e ∈ n.entries)
    (h : e.1.ground?.isSome) : e.2.isVar = false := by
  rw [Symbol.isVar, hn.kind_eq e he]
  cases ht : e.1 <;> simp_all [Term.ground?, kindOf]

namespace ConjunctiveQuery

/-- A mapping takes the answers of the sub-query to answers of the super-query. -/
theorem Mapped.answers_subset (hn : n.Sound) {f : Symbol → Symbol} (hf : sub.Mapped n sup f)
    (hsame : sub.sameAnswer sup) (D : Dataset) : sub.answers n D ⊆ sup.answers n D := by
  rintro μ ⟨v, hv, hfacts, rfl⟩
  refine ⟨v ∘ f, fun e he r hr => ?_, hf.satisfiedBy hfacts, funext fun x => ?_⟩
  · have hground : e.2.isVar = false := isVar_of_ground? hn he (by simp [hr])
    rw [Function.comp_apply, hf.ground e.2 hground, hv e he r hr]
  · by_cases hx : x ∈ sup.answer
    · rw [if_pos ((sameAnswer_iff.1 hsame x).2 hx), if_pos hx, Function.comp_apply,
        hf.answer x hx]
    · rw [if_neg fun h => hx ((sameAnswer_iff.1 hsame x).1 h), if_neg hx]

/-- The frozen atoms of the sub-query tell whether there is a mapping. -/
theorem exists_mapped_of_frozen (hn : n.Sound) (hsub : sub.NamedBy n) (hsup : sup.NamedBy n)
    (h : sub.answers n (frozenDataset n sub) ⊆ sup.answers n (frozenDataset n sub)) :
    sub.sameAnswer sup ∧ ∃ f, sub.Mapped n sup f := by
  have hanswer : (fun x => if x ∈ sub.answer then some (frozen n (n.symbol (.var x))) else none) ∈
      sub.answers n (frozenDataset n sub) :=
    ⟨frozen n, respects_frozen hn.toWellFormed,
      fun a ha => (mem_facts_frozenDataset hn hsub _).2 ⟨a, ha, rfl⟩, rfl⟩
  obtain ⟨w, hw, hfacts, heq⟩ := h hanswer
  -- both answers bind the same variables, and to frozen symbols
  have hsame (x : String) : x ∈ sub.answer ↔ x ∈ sup.answer := by
    have hvalue := congrArg Option.isSome (congrFun heq x)
    by_cases hx : x ∈ sub.answer <;> by_cases hx' : x ∈ sup.answer <;> simp_all
  refine ⟨sameAnswer_iff.2 hsame, _, mapped_thawed hn.toWellFormed hsub hsup
    ⟨fun e he e' he' => frozen_injective hn.toWellFormed he he', fun e he hground => ?_⟩
    (fun x hx => ?_) fun a ha => (mem_facts_frozenDataset hn hsub _).1 (hfacts a ha)⟩
  · obtain ⟨r, hr⟩ := Option.isSome_iff_exists.1 (isSome_ground? hn he hground)
    rw [hw e he r hr, frozen_of_ground hn.toWellFormed he hr]
  · have hvalue := congrFun heq x
    rw [if_pos ((hsame x).2 hx), if_pos hx] at hvalue
    exact (Option.some.inj hvalue).symm

/--
All answers of the sub-query are answers of the super-query, in every dataset, if and only if the
variables in the answers are the same and there is a mapping.
-/
theorem answers_subset_iff_mapped (hn : n.Sound) (hsub : sub.NamedBy n) (hsup : sup.NamedBy n) :
    (∀ D, sub.answers n D ⊆ sup.answers n D) ↔
      sub.sameAnswer sup ∧ ∃ f, sub.Mapped n sup f := by
  constructor
  · exact fun h => exists_mapped_of_frozen hn hsub hsup (h _)
  · rintro ⟨hsame, f, hf⟩ D
    exact hf.answers_subset hn hsame D

end ConjunctiveQuery

end QueryContainment
