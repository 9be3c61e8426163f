import QueryContainment.Proofs.Check.Reflexivity
import QueryContainment.Proofs.Check.Transitivity
import QueryContainment.Proofs.Sparql.Queries

namespace QueryContainment

/-- A query of a text that is cut to a number of solutions is never read. -/
theorem Sparql.Written.projectsIfSelect {n : Naming} {q : Query} {s : ConjunctiveQuery Symbol}
    (h : Written q) (hs : (n.readQuery q).1 = .ok s) : q.ProjectsIfSelect := by
  rcases h.projected with hp | ⟨inner, hp⟩
  · exact hp
  · have hreadable := Naming.readable_of_readQuery hs
    rw [hp] at hreadable
    cases hreadable _ List.mem_cons_self

namespace Check

variable {solver : Solver} {mode : Multiplicity} {x y z : String} {q q' : Query}
  {asked asked' : List String} {v w : Verdict}

/-- A check of texts that ends with a verdict is one of the queries that they stand for. -/
theorem exists_of_containedText
    (h : (CheckM.outcome (containedText solver mode x y) asked).1 = .ok v) : ∃ q q',
      Sparql.ofText? x = some q ∧ Sparql.ofText? y = some q' ∧
        (CheckM.outcome (contained solver mode q q') asked).1 = .ok v := by
  rw [outcome_containedText] at h
  split at h
  · next q q' hx hy => exact ⟨q, q', hx, hy, h⟩
  · cases h

theorem outcome_containedText_of_some (hx : Sparql.ofText? x = some q)
    (hy : Sparql.ofText? y = some q') :
    CheckM.outcome (containedText solver mode x y) asked =
      CheckM.outcome (contained solver mode q q') asked := by
  rw [outcome_containedText, hx, hy]

/-- A text whose query is read is contained in itself. -/
theorem containedText_self (hsolver : solver.Refuting) (hmode : mode ≠ .bag)
    (hx : Sparql.ofText? x = some q) {s : ConjunctiveQuery Symbol}
    (hs : (Naming.empty.readQuery q).1 = .ok s) (asked : List String) : ∃ v,
      (CheckM.outcome (containedText solver mode x x) asked).1 = .ok v ∧ v.contained := by
  obtain ⟨r, d, hcopies⟩ := exists_copies hs (Sparql.written_of_ofText? hx).plain
  obtain ⟨m, hm, hrun⟩ := outcome_contained hmode hcopies.reads
  rw [outcome_containedText_of_some hx hx, hrun]
  exact hcopies.contained hm hsolver asked

/-- Of three texts, containments of the first in the second and of that in the third make one. -/
theorem containedText_trans (hsolver : solver.Decides)
    (hxy : (CheckM.outcome (containedText solver .set x y) asked).1 = .ok v) (hv : v.contained)
    (hyz : (CheckM.outcome (containedText solver .set y z) asked').1 = .ok w) (hw : w.contained)
    (asked'' : List String) : ∃ u,
      (CheckM.outcome (containedText solver .set x z) asked'').1 = .ok u ∧ u.contained := by
  obtain ⟨a, b, hx, hy, hab⟩ := exists_of_containedText hxy
  obtain ⟨b', c, hy', hz, hbc⟩ := exists_of_containedText hyz
  obtain rfl := Option.some.inj (hy.symm.trans hy')
  obtain ⟨s₁, t₁, hreads₁, hcovers₁⟩ := covers_of_contained hsolver hab hv
  obtain ⟨s₂, t₂, hreads₂, hcovers₂⟩ := covers_of_contained hsolver hbc hw
  obtain ⟨s, t, hreads, hcovers⟩ := hreads₁.exists_covers (Sparql.written_of_ofText? hx).plain
    (Sparql.written_of_ofText? hy).plain (Sparql.written_of_ofText? hz).plain hcovers₁ hreads₂
    hcovers₂
  obtain ⟨u, hu, hpositive⟩ := hreads.exists_positive hsolver hcovers asked''
  rw [outcome_containedText_of_some hx hz]
  exact ⟨u, hu, (Verdict.throughout_iff.1 hpositive).1.1⟩

/--
If the check finds one text contained in another one, the solutions of the one query are among those
of the other in every dataset. No label may be in two basic patterns of a text.
-/
theorem containedText_sound (hsolver : solver.Decides)
    (h : (CheckM.outcome (containedText solver mode x y) asked).1 = .ok v) (hv : v.contained) :
    ∃ q q', Sparql.ofText? x = some q ∧ Sparql.ofText? y = some q' ∧
      (q.pattern.BlanksApart → q'.pattern.BlanksApart → ∀ D, q.solutions D ⊆ q'.solutions D) := by
  obtain ⟨q, q', hx, hy, hrun⟩ := exists_of_containedText h
  refine ⟨q, q', hx, hy, fun hapart hapart' D => ?_⟩
  obtain ⟨s, t, hreads, -⟩ := exists_mapped_of_contained hsolver hrun hv
  have hprojects := (Sparql.written_of_ofText? hx).projectsIfSelect hreads.sub
  have hprojects' := (Sparql.written_of_ofText? hy).projectsIfSelect hreads.sup
  obtain ⟨hq, hq'⟩ := hreads.solutions_eq hprojects hprojects' D
  rw [← hq, ← hq']
  exact (projectedSolutions_correct hsolver asked ⟨(Sparql.written_of_ofText? hx).plain, hapart⟩
    ⟨(Sparql.written_of_ofText? hy).plain, hapart'⟩).sound mode v hrun hv D

end Check

end QueryContainment
