import QueryContainment.Proofs.Naming.Translation

namespace QueryContainment

open Naming ConjunctiveQuery

variable {σ : String → String} {τ : Translation}

theorem Symbol.rename_injective (hσ : Function.Injective σ) :
    Function.Injective (Symbol.rename σ) := by
  intro s t h
  obtain ⟨hkind, hname⟩ := Symbol.mk.inj h
  obtain ⟨kind, name⟩ := s
  obtain ⟨kind', name'⟩ := t
  rw [show kind = kind' from hkind, show name = name' from hσ hname]

namespace Smt

variable {T : Term → Term} {n n' : Naming} {sub sup : ConjunctiveQuery Symbol}

theorem flatMap_toList_relabel (q : ConjunctiveQuery Symbol) :
    (q.relabel τ (Symbol.rename σ)).atoms.flatMap Atom.toList =
      (q.atoms.flatMap Atom.toList).map (Symbol.rename σ) := by
  simp only [atoms_relabel, List.flatMap_map, List.map_flatMap, Atom.toList_map]

theorem ofList_rename (hσ : Function.Injective σ) (l : List Symbol) :
    Distinct.ofList (l.map (Symbol.rename σ)) = (Distinct.ofList l).map (Symbol.rename σ) :=
  Distinct.ofList_map fun _ _ _ _ h => Symbol.rename_injective hσ h

theorem solvability_relabel (hσ : Function.Injective σ) (q : ConjunctiveQuery Symbol) :
    solvability (q.relabel τ (Symbol.rename σ)) = (solvability q).rename σ := by
  rw [solvability_eq, solvability_eq, flatMap_toList_relabel, ofList_rename hσ, atoms_relabel,
    Script.rename, List.map_map, List.map_map]
  rfl

theorem boundSymbols_relabel (hσ : Function.Injective σ) (sup : ConjunctiveQuery Symbol) :
    boundSymbols (sup.relabel τ (Symbol.rename σ)) =
      (boundSymbols sup).map (Symbol.rename σ) := by
  rw [boundSymbols, flatMap_toList_relabel, List.filter_map, ofList_rename hσ, boundSymbols]
  rfl

theorem scopedAtom_rename {a : Atom Symbol}
    (h : ∀ s ∈ a.toList, (s.rename σ).within superScope = (s.within superScope).rename σ) :
    scopedAtom superScope (a.map (Symbol.rename σ)) =
      (scopedAtom superScope a).map (Symbol.rename σ) := by
  simp only [scopedAtom, Atom.map, h a.subject (by simp [Atom.toList]),
    h a.predicate (by simp [Atom.toList]), h a.object (by simp [Atom.toList])]

theorem superConditions_relabel
    (hatoms : ∀ a ∈ sup.atoms, ∀ s ∈ a.toList,
      (s.rename σ).within superScope = (s.within superScope).rename σ)
    (hanswer : ∀ x ∈ sup.answer, n'.varSymbol? (τ.var x) = (n.varSymbol? x).map (Symbol.rename σ))
    (hcopies : ∀ x ∈ sup.answer, ∀ s, n.varSymbol? x = some s →
      (s.rename σ).within superScope = (s.within superScope).rename σ) :
    superConditions (sup.relabel τ (Symbol.rename σ)) n' =
      (superConditions sup n).map (Condition.rename σ) := by
  have hsymbols : (sup.answer.map τ.var).filterMap n'.varSymbol? =
      (sup.answer.filterMap n.varSymbol?).map (Symbol.rename σ) := by
    rw [List.filterMap_map, List.map_filterMap]
    exact List.filterMap_congr hanswer
  have hconditions : (sup.atoms.map (·.map (Symbol.rename σ))).map
        (fun a => Condition.holds (scopedAtom superScope a)) =
      (sup.atoms.map fun a => Condition.holds (scopedAtom superScope a)).map
        (Condition.rename σ) := by
    rw [List.map_map, List.map_map]
    exact List.map_congr_left fun a ha =>
      congrArg Condition.holds (scopedAtom_rename (hatoms a ha))
  have hagreement : ((sup.answer.filterMap n.varSymbol?).map (Symbol.rename σ)).map
        (fun s => Condition.equal (s.within superScope) s) =
      ((sup.answer.filterMap n.varSymbol?).map
        fun s => Condition.equal (s.within superScope) s).map (Condition.rename σ) := by
    rw [List.map_map, List.map_map]
    apply List.map_congr_left
    intro s hs
    obtain ⟨x, hx, hs⟩ := List.mem_filterMap.1 hs
    exact congrArg (Condition.equal · (s.rename σ)) (hcopies x hx s hs)
  rw [superConditions, atoms_relabel, answer_relabel, hsymbols, hconditions, hagreement,
    superConditions, List.map_append]

theorem countermodel_relabel {σ : Equiv.Perm String} (htable : RenamedTable T σ n n')
    (hsup : sup.NamedBy n)
    (hanswer : ∀ x ∈ sup.answer, n'.varSymbol? (τ.var x) =
      (n.varSymbol? x).map (Symbol.rename σ)) (sub : ConjunctiveQuery Symbol) :
    countermodel (sub.relabel τ (Symbol.rename σ)) (sup.relabel τ (Symbol.rename σ)) n' =
      (countermodel sub sup n).rename σ := by
  have hatoms (a : Atom Symbol) (ha : a ∈ sup.atoms) (s : Symbol) (hs : s ∈ a.toList) :
      (s.rename σ).within superScope = (s.within superScope).rename σ := by
    obtain ⟨t, ht⟩ := hsup.named a ha s hs
    exact htable.copies _ ht
  have hconditions := superConditions_relabel hatoms hanswer fun x _ s hs =>
    htable.copies _ (mem_entries_of_symbol? hs)
  have hbound : ((boundSymbols sup).map (Symbol.rename σ)).map (·.within superScope) =
      ((boundSymbols sup).map (·.within superScope)).map (Symbol.rename σ) := by
    rw [List.map_map, List.map_map]
    apply List.map_congr_left
    intro s hs
    obtain ⟨-, a, ha, hsa⟩ := mem_boundSymbols.1 hs
    exact hatoms a ha s hsa
  have hground : (sup.relabel τ (Symbol.rename σ)).atoms.flatMap
        (fun a => a.toList.filter (!·.isVar)) =
      (sup.atoms.flatMap fun a => a.toList.filter (!·.isVar)).map (Symbol.rename σ) := by
    simp only [atoms_relabel, List.flatMap_map, List.map_flatMap, Atom.toList_map, List.filter_map]
    rfl
  have hasserted : (sub.atoms.map (·.map (Symbol.rename σ))).map Statement.holds =
      (sub.atoms.map Statement.holds).map (Statement.rename σ) := by
    rw [List.map_map, List.map_map]
    rfl
  rw [countermodel_eq, countermodel_eq, Script.rename, flatMap_toList_relabel, hground,
    ← List.map_append, ofList_rename σ.injective, boundSymbols_relabel σ.injective, hbound,
    hconditions, atoms_relabel, hasserted, List.map_append]
  rfl

end Smt

end QueryContainment
