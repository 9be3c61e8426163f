import QueryContainment.Proofs.Smt.Solvability

namespace QueryContainment

open Naming

theorem eq_of_map_eq {α β : Type} {f : α → β} {l l' : List α}
    (hf : ∀ a ∈ l, ∀ b ∈ l', f a = f b → a = b) (h : l.map f = l'.map f) : l = l' := by
  induction l generalizing l' with
  | nil => exact (List.map_eq_nil_iff.1 h.symm).symm
  | cons a l ih =>
    obtain ⟨b, l', rfl, hab, hl⟩ := List.map_eq_cons_iff.1 h.symm
    obtain rfl := hf a List.mem_cons_self b List.mem_cons_self hab.symm
    rw [ih (fun c hc d hd => hf c (List.mem_cons_of_mem _ hc) d (List.mem_cons_of_mem _ hd)) hl.symm]

namespace Smt

variable {n : Naming} {a b : Atom Symbol} {q q' : ConjunctiveQuery Symbol}

/-- A text is read as one formula. -/
theorem Denotes.unique {text : String} {f f' : Formula} (h : Denotes text f)
    (h' : Denotes text f') : f = f' := by
  obtain ⟨e, he, hf⟩ := h
  obtain ⟨e', he', hf'⟩ := h'
  obtain rfl : e = e' := by simpa [he.expressions?] using he'.expressions?
  exact Option.some.inj (hf.symm.trans hf')

theorem graph_eq_of_text_eq (hn : n.WellFormed) {g g' : Option Symbol}
    (hg : ∀ s, g = some s → ∃ t, (t, s) ∈ n.entries)
    (hg' : ∀ s, g' = some s → ∃ t, (t, s) ∈ n.entries)
    (h : (g.map Symbol.text).getD defaultGraphText = (g'.map Symbol.text).getD defaultGraphText) :
    g = g' := by
  cases g with
  | none =>
    cases g' with
    | none => rfl
    | some s =>
      obtain ⟨t, ht⟩ := hg' s rfl
      exact absurd h.symm (text_ne_defaultGraphText hn ht)
  | some s =>
    obtain ⟨t, ht⟩ := hg s rfl
    cases g' with
    | none => exact absurd h (text_ne_defaultGraphText hn ht)
    | some s' =>
      obtain ⟨t', ht'⟩ := hg' s' rfl
      exact congrArg some (eq_of_text_eq hn ht ht' h)

theorem eq_of_atomFormula_eq (hn : n.WellFormed) (ha : ∀ s ∈ a.toList, ∃ t, (t, s) ∈ n.entries)
    (hb : ∀ s ∈ b.toList, ∃ t, (t, s) ∈ n.entries) (h : atomFormula a = atomFormula b) :
    a = b := by
  obtain ⟨s, p, o, g⟩ := a
  obtain ⟨s', p', o', g'⟩ := b
  simp only [atomFormula, Formula.holds.injEq] at h
  obtain ⟨hs, hp, ho, hg⟩ := h
  have hplace {x y : Symbol} (hx : x ∈ [s, p, o]) (hy : y ∈ [s', p', o']) (he : x.text = y.text) :
      x = y := by
    obtain ⟨t, ht⟩ := ha x (List.mem_append_left _ hx)
    obtain ⟨u, hu⟩ := hb y (List.mem_append_left _ hy)
    exact eq_of_text_eq hn ht hu he
  have hgraph : g = g' := graph_eq_of_text_eq hn
    (fun x hx => ha x (Atom.mem_toList.2 (.inr hx))) (fun x hx => hb x (Atom.mem_toList.2 (.inr hx)))
    hg
  rw [hplace (by simp) (by simp) hs, hplace (by simp) (by simp) hp, hplace (by simp) (by simp) ho,
    hgraph]

theorem eq_of_atomText_eq (hn : n.Sound) (ha : ∀ s ∈ a.toList, ∃ t, (t, s) ∈ n.entries)
    (hb : ∀ s ∈ b.toList, ∃ t, (t, s) ∈ n.entries) (h : atomText a = atomText b) : a = b := by
  have hdenotes {a : Atom Symbol} (ha : ∀ s ∈ a.toList, ∃ t, (t, s) ∈ n.entries) :
      Denotes (atomText a) (atomFormula a) := denotes_atomText fun s hs => by
    obtain ⟨t, ht⟩ := ha s hs
    exact plain_of_mem_entries hn ht
  have hsame : atomFormula a = atomFormula b := (h ▸ hdenotes ha).unique (hdenotes hb)
  exact eq_of_atomFormula_eq hn.toWellFormed ha hb hsame

def Formula.isHolds : Formula → Bool
  | .holds .. => true
  | _ => false

theorem filter_formulas_solvability (q : ConjunctiveQuery Symbol) :
    (solvability q).formulas.filter Formula.isHolds = q.atoms.map atomFormula := by
  have hdistinct : (solvability q).distinctness.filter Formula.isHolds = [] := by
    unfold Script.distinctness
    split <;> rfl
  have hatoms : (q.atoms.map atomFormula).filter Formula.isHolds = q.atoms.map atomFormula := by
    simp [List.filter_eq_self, atomFormula, Formula.isHolds]
  have hassertions : (solvability q).assertions.map Statement.formula =
      q.atoms.map atomFormula := by
    rw [solvability_eq, List.map_map]
    rfl
  rw [Script.formulas, List.filter_append, hdistinct, List.nil_append, hassertions, hatoms]

/-- The text of the formula for a solution tells the atoms and their order, and nothing else. -/
theorem solvability_text_eq_iff (hn : n.Sound) (hq : q.NamedBy n) (hq' : q'.NamedBy n) :
    formulaText (solvability q) = formulaText (solvability q') ↔ q.atoms = q'.atoms := by
  constructor
  · intro h
    have hread := assertions?_formulaText (plain_solvability hn hq)
    rw [h, assertions?_formulaText (plain_solvability hn hq'), Option.some.injEq] at hread
    have hatoms := congrArg (List.filter Formula.isHolds) hread.symm
    rw [filter_formulas_solvability, filter_formulas_solvability] at hatoms
    exact eq_of_map_eq (fun a ha b hb =>
      eq_of_atomFormula_eq hn.toWellFormed (hq.named a ha) (hq'.named b hb)) hatoms
  · intro h
    rw [solvability_eq, solvability_eq, h]

/--
Whatever was asked of a table that was empty at first: atoms with symbols that were handed out, in
whichever of their places, have the same text only if they are the same, in the same graph; and the
formulas for a solution of two queries that were made, or of queries for endpoints of these, have
the same text if and only if the queries have the same atoms in the same order.
-/
theorem texts_injective (calls : List Call) :
    (∀ a b : Atom Symbol, (∀ s ∈ a.toList ++ b.toList, ∃ t, (t, s) ∈ empty.log calls) →
      (atomText a = atomText b ↔ a = b)) ∧
    ∀ q ∈ empty.made calls, ∀ q' ∈ empty.made calls,
      (formulaText (solvability q) = formulaText (solvability q') ↔ q.atoms = q'.atoms) := by
  have hn := sound_after sound_empty calls
  refine ⟨fun a b hab => ⟨eq_of_atomText_eq hn (fun s hs => ?_) fun s hs => ?_,
    congrArg atomText⟩, fun q hq q' hq' => ?_⟩
  · simpa only [mem_entries_iff_log] using hab s (List.mem_append_left _ hs)
  · simpa only [mem_entries_iff_log] using hab s (List.mem_append_right _ hs)
  · exact solvability_text_eq_iff hn (namedBy_made sound_empty calls q hq)
      (namedBy_made sound_empty calls q' hq')

/-- Terms with empty names and the name of the default graph, there and at an endpoint. -/
def awkwardCalls : List Call :=
  [ .pattern (.bgp [⟨.var "", .iri "", .var "default_graph"⟩]),
    .pattern (.service (.iri "default_graph") (.bgp [⟨.var "", .iri "", .var "default_graph"⟩])) ]

theorem texts_injective_awkward : ∃ here there sent, empty.made awkwardCalls = [here, there, sent] ∧
    here.atoms = [⟨⟨.var, ""⟩, ⟨.iri, "iri"⟩, ⟨.var, "default_graph_1"⟩, none⟩] ∧
    formulaText (solvability here) ≠ formulaText (solvability there) ∧
    formulaText (solvability here) = formulaText (solvability sent) ∧
    ∀ a ∈ here.atoms, ∀ b ∈ there.atoms, atomText a ≠ atomText b := by
  obtain ⟨here, there, sent, hmade, hhere, hthere, hsent⟩ : ∃ here there sent,
      empty.made awkwardCalls = [here, there, sent] ∧
      here.atoms = [⟨⟨.var, ""⟩, ⟨.iri, "iri"⟩, ⟨.var, "default_graph_1"⟩, none⟩] ∧
      there.atoms = [⟨⟨.var, ""⟩, ⟨.iri, "iri"⟩, ⟨.var, "default_graph_1"⟩,
        some ⟨.iri, "default_graph_2"⟩⟩] ∧
      sent.atoms = here.atoms := ⟨_, _, _, rfl, rfl, rfl, rfl⟩
  obtain ⟨hatoms, hformulas⟩ := texts_injective awkwardCalls
  have hnamed := namedBy_made sound_empty awkwardCalls
  refine ⟨here, there, sent, hmade, hhere, fun h => ?_, ?_, fun a ha b hb h => ?_⟩
  · have hsame := (hformulas here (by simp [hmade]) there (by simp [hmade])).1 h
    simp [hhere, hthere] at hsame
  · exact (hformulas here (by simp [hmade]) sent (by simp [hmade])).2 hsent.symm
  · have hsame := (hatoms a b fun s hs => ?_).1 h
    · simp_all
    · simp only [← mem_entries_iff_log]
      rcases List.mem_append.1 hs with hs | hs
      · exact (hnamed here (by simp [hmade])).named a ha s hs
      · exact (hnamed there (by simp [hmade])).named b hb s hs

end Smt

end QueryContainment
