import QueryContainment.Proofs.Smt.Model

namespace QueryContainment

open Naming

namespace Smt

variable {n : Naming} {q : ConjunctiveQuery Symbol}

theorem solvability_eq (q : ConjunctiveQuery Symbol) :
    solvability q = ⟨Distinct.ofList (q.atoms.flatMap Atom.toList), q.atoms.map .holds⟩ := by
  have hdeclared : (q.atoms.foldl .declareTermsOf .empty : Script Statement) =
      ⟨Distinct.ofList (q.atoms.flatMap Atom.toList), []⟩ :=
    Script.foldl_declareAll Atom.toList q.atoms .empty
  rw [solvability, hdeclared]
  rfl

theorem drawnFrom_solvability (hq : q.NamedBy n) : (solvability q).DrawnFrom n := by
  rw [solvability_eq]
  refine ⟨fun s hs => ?_, Distinct.nodup_ofList _⟩
  obtain ⟨a, ha, hs⟩ := List.mem_flatMap.1 (Distinct.mem_ofList.1 hs)
  exact hq.named a ha s hs

theorem plain_solvability (hn : n.Sound) (hq : q.NamedBy n) : (solvability q).Plain := by
  refine ⟨fun s hs => ?_, fun a ha s hs => ?_⟩
  · obtain ⟨t, ht⟩ := (drawnFrom_solvability hq).named s hs
    exact plain_of_mem_entries hn ht
  · rw [solvability_eq] at ha
    obtain ⟨b, hb, rfl⟩ := List.mem_map.1 ha
    obtain ⟨t, ht⟩ := hq.named b hb s hs
    exact plain_of_mem_entries hn ht

theorem satisfiable_solvability (hn : n.Sound) (hq : q.NamedBy n) :
    Satisfiable (solvability q).formulas := by
  have hdefault := namedValue_defaultGraph hn.toWellFormed some q.canonical.defaultGraph
  refine ⟨Option Symbol, q.canonical.holds, namedValue n some q.canonical.defaultGraph, ?_⟩
  rw [Script.formulas, List.forall_mem_append, List.forall_mem_map]
  refine ⟨distinctness_holds hn.toWellFormed (drawnFrom_solvability hq)
    (ConjunctiveQuery.uniqueNames_canonical q) fun _ _ => rfl, fun a ha => ?_⟩
  rw [solvability_eq] at ha
  obtain ⟨b, hb, rfl⟩ := List.mem_map.1 ha
  refine (holds_atomFormula hdefault b).2 ?_
  rw [map_namedValue hn.toWellFormed (hq.named b hb)]
  exact ConjunctiveQuery.map_some_mem_canonical hb

end Smt

end QueryContainment
