import QueryContainment.Check.Multiplicity
import QueryContainment.Proofs.Conjunctive.Answers

namespace QueryContainment

open Naming

variable {n : Naming} {sub sup : ConjunctiveQuery Symbol} {δ : Type}

/-- A variable in the answers has a symbol in the table. -/
theorem ConjunctiveQuery.NamedBy.mem_entries {q : ConjunctiveQuery Symbol} (hq : q.NamedBy n)
    (hn : n.WellFormed) {x : String} (hx : x ∈ q.answer) :
    (.var x, n.symbol (.var x)) ∈ n.entries := by
  obtain ⟨s, hs, -⟩ := hq.occurs x (List.mem_append_left _ hx)
  rwa [symbol_of_mem_entries hn hs]

namespace ConjunctiveQuery

theorem sameAnswer_iff {α : Type} {q q' : ConjunctiveQuery α} :
    q.sameAnswer q' ↔ ∀ x, x ∈ q.answer ↔ x ∈ q'.answer := by
  simp only [sameAnswer, Bool.and_eq_true, List.all_eq_true, List.contains_iff_mem]
  exact ⟨fun h x => ⟨h.1 x, h.2 x⟩, fun h => ⟨fun x => (h x).1, fun x => (h x).2⟩⟩

/--
A mapping from the symbols of the super-query to those of the sub-query. IRIs, literals and the
variables in the answer stay what they are.
-/
structure Mapped (n : Naming) (sub sup : ConjunctiveQuery Symbol) (h : Symbol → Symbol) :
    Prop where
  ground : ∀ s, s.isVar = false → h s = s
  answer : ∀ x ∈ sup.answer, h (n.symbol (.var x)) = n.symbol (.var x)
  atoms : ∀ a ∈ sup.atoms, a.map h ∈ sub.atoms

/-- What satisfies the sub-query satisfies the super-query, through the mapping. -/
theorem Mapped.satisfiedBy {h : Symbol → Symbol} (hm : Mapped n sub sup h) {facts : Set (Atom δ)}
    {v : Symbol → δ} (hv : sub.SatisfiedBy facts v) : sup.SatisfiedBy facts (v ∘ h) := by
  intro a ha
  rw [← Atom.map_map]
  exact hv _ (hm.atoms a ha)

/-- Frozen symbols are told apart, and IRIs and literals have their frozen values. -/
structure Freezes (n : Naming) (frozen w : Symbol → δ) : Prop where
  injective : ∀ e ∈ n.entries, ∀ e' ∈ n.entries, frozen e.2 = frozen e'.2 → e.2 = e'.2
  ground : ∀ e ∈ n.entries, e.2.isVar = false → w e.2 = frozen e.2

open Classical in
noncomputable def thawed (n : Naming) (frozen w : Symbol → δ) (s : Symbol) : Symbol :=
  if h : s.isVar ∧ ∃ e ∈ n.entries, w s = frozen e.2 then h.2.choose.2 else s

theorem thawed_ground {frozen w : Symbol → δ} {s : Symbol} (h : s.isVar = false) :
    thawed n frozen w s = s :=
  dif_neg fun hc => by simp [h] at hc

theorem thawed_eq {frozen w : Symbol → δ} (hf : Freezes n frozen w) {s : Symbol} {t : Term}
    (hs : (t, s) ∈ n.entries) {e : Term × Symbol} (he : e ∈ n.entries) (hw : w s = frozen e.2) :
    thawed n frozen w s = e.2 := by
  by_cases hv : s.isVar
  · have hex : s.isVar ∧ ∃ e ∈ n.entries, w s = frozen e.2 := ⟨hv, e, he, hw⟩
    obtain ⟨hmem, hvalue⟩ := hex.2.choose_spec
    rw [thawed, dif_pos hex]
    exact hf.injective _ hmem e he (hvalue.symm.trans hw)
  · have hground : s.isVar = false := by simpa using hv
    rw [thawed_ground hground]
    exact hf.injective _ hs e he ((hf.ground _ hs hground).symm.trans hw)

/--
A valuation that sends the atoms of the super-query to frozen atoms of the sub-query gives a
mapping.
-/
theorem mapped_thawed (hn : n.WellFormed) (hsub : sub.NamedBy n) (hsup : sup.NamedBy n)
    {frozen w : Symbol → δ} (hf : Freezes n frozen w)
    (hanswer : ∀ x ∈ sup.answer, w (n.symbol (.var x)) = frozen (n.symbol (.var x)))
    (hatoms : ∀ a ∈ sup.atoms, ∃ b ∈ sub.atoms, a.map w = b.map frozen) :
    Mapped n sub sup (thawed n frozen w) := by
  refine ⟨fun s => thawed_ground, fun x hx => ?_, fun a ha => ?_⟩
  · have hmem := hsup.mem_entries hn hx
    exact thawed_eq hf hmem hmem (hanswer x hx)
  · obtain ⟨b, hb, hab⟩ := hatoms a ha
    -- each symbol of the atom has the frozen value of the symbol in its place
    have heq : a.map (thawed n frozen w) = b := by
      refine Atom.map_eq_of_map_eq hab fun s hs t ht hst => ?_
      obtain ⟨u, hu⟩ := hsup.named a ha s hs
      obtain ⟨u', hu'⟩ := hsub.named b hb t ht
      exact thawed_eq hf hu hu' hst
    rwa [heq]

end ConjunctiveQuery

end QueryContainment
