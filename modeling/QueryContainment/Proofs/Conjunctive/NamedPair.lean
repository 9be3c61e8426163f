import QueryContainment.Proofs.Conjunctive.Throughout

namespace QueryContainment

open Naming

namespace ConjunctiveQuery

variable {n n' : Naming} {r r' : ConjunctiveQuery Term} {s s' : ConjunctiveQuery Symbol}

/-- The symbols of a query that was read, given the terms that they stand for. -/
structure NamedFrom (n : Naming) (r : ConjunctiveQuery Term) (s : ConjunctiveQuery Symbol) :
    Prop where
  eq_map : s = r.map n.symbol
  drawn : ∃ met, r.Over met ∧ ∀ t ∈ met, (n.symbol? t).isSome

/-- Queries whose terms are in the relation `N`, with their symbols. -/
def NamedPair (N : ConjunctiveQuery Term → ConjunctiveQuery Term → Prop) (n n' : Naming)
    (s s' : ConjunctiveQuery Symbol) : Prop :=
  ∃ r r', N r r' ∧ NamedFrom n r s ∧ NamedFrom n' r' s'

theorem NamedFrom.namedBy (hn : n.Sound) (h : NamedFrom n r s) : s.NamedBy n := by
  obtain ⟨rfl, met, hover, hmet⟩ := h
  exact namedBy_map hn hover hmet

/-- The terms of the atoms are in the table. -/
theorem NamedFrom.mem_entries (h : NamedFrom n r s) {a : Atom Term} (ha : a ∈ r.atoms) {t : Term}
    (ht : t ∈ a.toList) : (t, n.symbol t) ∈ n.entries := by
  obtain ⟨-, met, hover, hmet⟩ := h
  exact mem_entries_symbol (hmet t (hover.met_of_mem a ha t ht))

theorem NamedFrom.var_mem_entries (h : NamedFrom n r s) {x : String}
    (hx : x ∈ r.answer ++ r.other) : (.var x, n.symbol (.var x)) ∈ n.entries := by
  obtain ⟨met, hover, -⟩ := h.drawn
  obtain ⟨a, ha, hplace⟩ := hover.occurs x hx
  exact h.mem_entries ha (Atom.mem_toList.2 (.inl hplace))

theorem NamedFrom.answers_eq (hn : n.Sound) (h : NamedFrom n r s) (D : Dataset) :
    s.answers n D = r.termAnswers D := by
  obtain ⟨rfl, met, hover, hmet⟩ := h
  exact answers_eq_termAnswers hn.toWellFormed hover hmet (atoms_map _ _) (answer_map _ _) D

/-- All parts of what is read are named by the table that is left. -/
theorem namedFrom_of_wellDrawn {f : Flattened (ConjunctiveQuery Term)} (hf : f.WellDrawn)
    (hr : f.result = .ok r) : ∀ part ∈ r.parts,
      NamedFrom (n.name f).2 part (part.map (n.name f).2.symbol) :=
  fun part hpart => ⟨rfl, f.terms, hf r hr part hpart, fun _ ht => symbol?_addAll_of_mem ht⟩

theorem throughoutServices_named
    {N : ConjunctiveQuery Term → ConjunctiveQuery Term → Prop}
    (h : ∀ part ∈ r.parts, NamedFrom n part (part.map n.symbol))
    (h' : ∀ part ∈ r'.parts, NamedFrom n' part (part.map n'.symbol))
    (hN : ThroughoutServices N r.services r'.services) : ThroughoutServices (NamedPair N n n')
      (r.map n.symbol).services (r'.map n'.symbol).services := by
  have hpart {q a : ConjunctiveQuery Term} (ha : a ∈ partsOf q.services) : a ∈ q.parts := by
    rw [parts_eq]
    exact List.mem_cons_of_mem _ ha
  have hnamed := ThroughoutServices.imp_mem (M := fun a a' => N a a' ∧
    NamedFrom n a (a.map n.symbol) ∧ NamedFrom n' a' (a'.map n'.symbol))
    (fun a ha a' ha' hpair => ⟨hpair, h a (hpart ha), h' a' (hpart ha')⟩) hN
  rw [services_map, services_map, ← mapServices_eq, ← mapServices_eq]
  exact ThroughoutServices.map (fun a a' ⟨hpair, ha, ha'⟩ => ⟨a, a', hpair, ha, ha'⟩) hnamed

end ConjunctiveQuery

end QueryContainment
