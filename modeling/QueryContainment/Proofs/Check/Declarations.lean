import QueryContainment.Proofs.Check.Plan
import QueryContainment.Proofs.Smt.Declarations

namespace QueryContainment

open Naming

namespace Check

open Smt

variable {n : Naming} {s t : ConjunctiveQuery Symbol}

/-- What is asked for is the text of a script that declares all that it is about. -/
theorem closed_script (hn : n.Sound) (hs : s.NamedBy n) (ht : t.NamedBy n) {c : Bool}
    (hc : c = true → s.sameAnswer t) : (script c s t n).Closed := by
  cases c with
  | true => exact Smt.closed_countermodel hn hs ht (hc rfl)
  | false => exact Smt.closed_solvability hn hs

/--
For any two queries that a run has made, and any two among them and the queries of their endpoints,
the script for a solution is well declared, and so is the script for the containment if the answers
are the same; its last assertion equates the answers. Each script that a check can ask for is one of
these.
-/
theorem formulas_well_declared (calls : List Call) (hs : s ∈ empty.made calls)
    (ht : t ∈ empty.made calls) :
    (∀ sub ∈ s.parts, ∀ sup ∈ t.parts,
      (∃ cs, commands? (formulaText (solvability sub)) = some cs ∧
        WellDeclared (empty.after calls) cs) ∧
      (sub.sameAnswer sup → ∃ cs,
        commands? (formulaText (countermodel sub sup (empty.after calls))) = some cs ∧
        WellDeclared (empty.after calls) cs ∧ EquatesAnswer (empty.after calls) sup cs)) ∧
    ∀ mode, ∀ f ∈ plan (empty.after calls) mode s t, ∃ cs, commands? f = some cs ∧
      WellDeclared (empty.after calls) cs := by
  have hn := sound_after sound_empty calls
  have hnamed {q part : ConjunctiveQuery Symbol} (hq : q ∈ empty.made calls)
      (hpart : part ∈ q.parts) : part.NamedBy (empty.after calls) :=
    namedBy_made sound_empty calls part (made_of_mem_parts hq hpart)
  have hsolvability (sub : ConjunctiveQuery Symbol) (hsub : sub ∈ s.parts) : ∃ cs,
      commands? (formulaText (solvability sub)) = some cs ∧
        WellDeclared (empty.after calls) cs :=
    ⟨_, commands?_formulaText (plain_solvability hn (hnamed hs hsub)),
      wellDeclared_solvability hn.toWellFormed (hnamed hs hsub)⟩
  have hcountermodel (sub : ConjunctiveQuery Symbol) (hsub : sub ∈ s.parts)
      (sup : ConjunctiveQuery Symbol) (hsup : sup ∈ t.parts) (hsame : sub.sameAnswer sup) : ∃ cs,
      commands? (formulaText (countermodel sub sup (empty.after calls))) = some cs ∧
        WellDeclared (empty.after calls) cs ∧ EquatesAnswer (empty.after calls) sup cs :=
    ⟨_, commands?_formulaText (plain_countermodel hn (hnamed hs hsub) (hnamed ht hsup)),
      wellDeclared_countermodel hn (hnamed hs hsub) (hnamed ht hsup) hsame,
      equatesAnswer_countermodel hn (hnamed hs hsub) (hnamed ht hsup) hsame⟩
  refine ⟨fun sub hsub sup hsup => ⟨hsolvability sub hsub, hcountermodel sub hsub sup hsup⟩,
    fun mode f hf => ?_⟩
  obtain ⟨m, sub, sup, hvisit, rfl⟩ := exists_visit_of_mem_formulasOf hf
  obtain ⟨hsub, hsup⟩ := mem_parts_of_visit hvisit
  cases hc : compatible sub sup m with
  | false => exact hsolvability sub hsub
  | true =>
    obtain ⟨cs, hcs, hwell, -⟩ := hcountermodel sub hsub sup hsup (sameAnswer_of_compatible hc)
    exact ⟨cs, hcs, hwell⟩

theorem formulas_well_declared_path :
    (∃ cs, commands? (formulaText (countermodel pathQuery stepQuery (empty.after pathCalls))) =
      some cs ∧ WellDeclared (empty.after pathCalls) cs ∧
        EquatesAnswer (empty.after pathCalls) stepQuery cs) ∧
    (plan (empty.after pathCalls) .set pathQuery pathQuery).length = 2 ∧
    ∀ f ∈ plan (empty.after pathCalls) .set pathQuery pathQuery, ∃ cs, commands? f = some cs ∧
      WellDeclared (empty.after pathCalls) cs := by
  have hpath : pathQuery ∈ empty.made pathCalls := List.mem_cons_self
  have hstep : stepQuery ∈ empty.made pathCalls :=
    List.mem_cons_of_mem _ (List.mem_cons_of_mem _ List.mem_cons_self)
  have hscripts := (formulas_well_declared pathCalls hpath hstep).1 _ pathQuery.self_mem_parts _
    stepQuery.self_mem_parts
  exact ⟨hscripts.2 rfl, rfl, (formulas_well_declared pathCalls hpath hpath).2 .set⟩

end Check

end QueryContainment
