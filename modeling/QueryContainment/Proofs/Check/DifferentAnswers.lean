import Mathlib.Data.Set.Finite.List
import QueryContainment.Proofs.Check.Federation

namespace QueryContainment

open Naming

def Mapping.domain (μ : Mapping) : Set String := {x | (μ x).isSome}

theorem Mapping.mem_domain_restrict {μ : Mapping} {names : List String} {x : String} :
    x ∈ (μ.restrict names).domain ↔ x ∈ names ∧ x ∈ μ.domain := by
  by_cases hx : x ∈ names <;> simp [domain, restrict, hx]

theorem Pattern.mem_bound_splitProjection (p : Pattern) (x : String) :
    x ∈ p.splitProjection.2.bound ∧ x ∈ p.splitProjection.1.getD [] ↔
      x ∈ p.bound ∧ x ∈ p.splitProjection.1.getD [] := by
  cases h : p.splitProjection.1 with
  | none => simp
  | some names => simp [mem_bound_of_some h]

namespace Query

theorem mem_bound_inner (q : Query) (x : String) :
    x ∈ q.inner.bound ∧ x ∈ q.listed ↔ x ∈ q.pattern.bound ∧ x ∈ q.listed := by
  obtain ⟨form, p, hasDataset⟩ := q
  cases form with
  | ask => rfl
  | _ => exact p.mem_bound_splitProjection x

theorem mem_domain_of_mem_projectedSolutions {q : Query} {D : Dataset} {μ : Mapping}
    (h : μ ∈ q.projectedSolutions D) (x : String) :
    x ∈ μ.domain ↔ x ∈ q.pattern.bound ∧ x ∈ q.listed := by
  obtain ⟨ν, hν, rfl⟩ := h
  have hbound : x ∈ ν.domain ↔ x ∈ q.pattern.bound := Pattern.isSome_iff_mem_bound hν x
  rw [Mapping.mem_domain_restrict, hbound, and_comm]

theorem mem_answer_iff {q : Query} {k : Nat} {r : ConjunctiveQuery Term}
    (h : (Flattened.ofQuery k q).result = .ok r) (x : String) :
    x ∈ r.answer ↔ x ∈ q.pattern.bound ∧ x ∈ q.listed := by
  obtain ⟨projection, hlisted, hbody⟩ := Flattened.exists_body_of_ofQuery h
  rw [hbody] at h
  obtain ⟨-, -, hanswer⟩ := Flattened.body_answers h
  rw [hanswer, hlisted, mem_bound_inner]

theorem mem_domain_iff {q : Query} {n : Naming} {s : ConjunctiveQuery Symbol}
    (hs : (n.readQuery q).1 = .ok s) {D : Dataset} {μ : Mapping}
    (hμ : μ ∈ q.projectedSolutions D) (x : String) : x ∈ μ.domain ↔ x ∈ s.answer := by
  obtain ⟨r, hr, rfl⟩ := name_eq_ok hs
  rw [ConjunctiveQuery.answer_map, mem_answer_iff hr, mem_domain_of_mem_projectedSolutions hμ]

end Query

def Atom.quad (a : Atom RdfTerm) : Quad :=
  ⟨a.subject, a.predicate, a.object, a.graph.bind fun
    | .iri url => some url
    | _ => none⟩

/-- The dataset of the atoms of a query, with values for its terms. -/
def ConjunctiveQuery.dataset (q : ConjunctiveQuery Term) (v : Term → RdfTerm) : Dataset :=
  {quad | quad ∈ q.atoms.map fun a => (a.map v).quad}

theorem ConjunctiveQuery.finite_dataset (q : ConjunctiveQuery Term) (v : Term → RdfTerm) :
    (q.dataset v).Finite := List.finite_toSet _

theorem ConjunctiveQuery.satisfiedBy_dataset {met : List Term} {q : ConjunctiveQuery Term}
    (hq : q.Over met) {v : Term → RdfTerm} (hv : Faithful v) :
    q.SatisfiedBy (q.dataset v).facts v := by
  intro a ha
  have hmem : (a.map v).quad ∈ q.dataset v := List.mem_map.2 ⟨a, ha, rfl⟩
  have hgraph : (a.map v).graph = (a.map v).quad.graph.map .iri := by
    cases hg : a.graph with
    | none => simp [Atom.map, Atom.quad, hg]
    | some t =>
      obtain ⟨url, rfl⟩ := hq.graph_iri a ha t hg
      have hurl : v (.iri url) = .iri url := hv _ _ rfl
      simp [Atom.map, Atom.quad, hg, hurl]
  exact ⟨_, hgraph, hmem⟩

theorem Query.nonempty_projectedSolutions {q : Query} {D : Dataset}
    (h : (q.inner.solutions D none).Nonempty) : (q.projectedSolutions D).Nonempty := by
  have hpattern : (q.pattern.solutions D none).Nonempty := by
    obtain ⟨μ, hμ⟩ := h
    obtain ⟨form, p, hasDataset⟩ := q
    cases form with
    | ask => exact ⟨μ, hμ⟩
    | _ =>
      cases hp : p.splitProjection.1 with
      | none => exact ⟨μ, by rw [Pattern.solutions_of_none hp]; exact hμ⟩
      | some names => exact ⟨_, by rw [Pattern.solutions_of_some hp]; exact ⟨μ, hμ, rfl⟩⟩
  obtain ⟨μ, hμ⟩ := hpattern
  exact ⟨_, μ, hμ, rfl⟩

/-- What is read has a solution, whatever its names are. -/
theorem Query.exists_solution {q : Query} {k : Nat} {r : ConjunctiveQuery Term}
    (h : (Flattened.ofQuery k q).result = .ok r) :
    ∃ D : Dataset, D.Finite ∧ (q.projectedSolutions D).Nonempty := by
  have hover : r.Over (Flattened.ofQuery k q).terms :=
    Flattened.wellDrawn_ofQuery k q r h r r.self_mem_parts
  have hv : Faithful (start .empty) := faithful_start .empty
  obtain ⟨projection, -, hbody⟩ := Flattened.exists_body_of_ofQuery h
  rw [hbody] at h
  obtain ⟨haccepted, hatoms, -⟩ := Flattened.body_answers h
  -- the atoms are facts of the dataset that is made of them
  have hfacts := (satisfiedBy_iff hatoms _ _).1 (ConjunctiveQuery.satisfiedBy_dataset hover hv)
  have hsolution := Pattern.read_mem_solutions (c := .root) hv haccepted hfacts
  exact ⟨r.dataset (start .empty), r.finite_dataset _, nonempty_projectedSolutions ⟨_, hsolution⟩⟩

namespace Check

variable {solver : Solver} {q q' : Query} {s t : ConjunctiveQuery Symbol}

/-- In some dataset there is a solution that binds other variables than all those of `S'` do. -/
def BindsOthers (S S' : Dataset → Set Mapping) : Prop :=
  ∃ D : Dataset, D.Finite ∧ ∃ μ ∈ S D, ∀ D', ∀ ν ∈ S' D', ν.domain ≠ μ.domain

theorem Reads.bindsOthers (h : Reads q q' s t) (hdiffer : ¬s.sameAnswer t) :
    BindsOthers (q.projectedSolutions ·) (q'.projectedSolutions ·) := by
  obtain ⟨r, hr, -⟩ := name_eq_ok h.sub
  obtain ⟨D, hfinite, μ, hμ⟩ := Query.exists_solution hr
  refine ⟨D, hfinite, μ, hμ, fun D' ν hν heq => hdiffer ?_⟩
  rw [ConjunctiveQuery.sameAnswer_iff]
  intro x
  rw [← Query.mem_domain_iff h.sub hμ, ← Query.mem_domain_iff h.sup hν, heq]

theorem Reads.not_contained (hsolver : solver.Decides) (h : Reads q q' s t)
    (hdiffer : ¬s.sameAnswer t) (asked : List String) : ∃ v,
      (CheckM.outcome (contained solver .set q q') asked).1 = .ok v ∧ v.contained = false := by
  obtain ⟨v, hv, hiff⟩ := h.contained_set_iff hsolver asked
  refine ⟨v, hv, Bool.eq_false_iff.2 fun hc => hdiffer ?_⟩
  -- the last visit is that of the queries themselves
  have hpair := ((forall_visits_iff Visit.not_hasMapping_missing).1 (hiff.1 hc)).2
  exact hpair.1

/--
Every query that a run makes has a formula for its solutions that is read and has a model. Hence the
verdict on two queries whose relevant variables differ, by a solver that tells formulas with a model
from those without one, is negative, whatever it was asked before. And it is right: some finite
dataset gives the sub-query a solution that binds other variables than any solution of the
super-query does. This holds of the solutions cut to the final projections, and of the solutions as
they are for queries of which each is an `ASK` or has a final projection.
-/
theorem different_answers_not_contained :
    (∀ calls : List Call, ∀ part ∈ empty.made calls, ∃ fs,
      Smt.assertions? (Smt.formulaText (Smt.solvability part)) = some fs ∧ Smt.Satisfiable fs) ∧
    ∀ (q q' : Query) (s t : ConjunctiveQuery Symbol), Reads q q' s t → ¬s.sameAnswer t →
      (∀ solver : Solver, solver.Decides → ∀ asked, ∃ v,
        (CheckM.outcome (contained solver .set q q') asked).1 = .ok v ∧ v.contained = false) ∧
      BindsOthers (q.projectedSolutions ·) (q'.projectedSolutions ·) ∧
      (q.ProjectsIfSelect → q'.ProjectsIfSelect →
        BindsOthers (q.solutions ·) (q'.solutions ·)) := by
  refine ⟨fun calls part hpart => ?_, fun q q' s t hreads hdiffer => ⟨?_, ?_, ?_⟩⟩
  · have hn := sound_after sound_empty calls
    have hnamed := namedBy_made sound_empty calls part hpart
    exact ⟨_, Smt.assertions?_formulaText (Smt.plain_solvability hn hnamed),
      Smt.satisfiable_solvability hn hnamed⟩
  · exact fun solver hsolver asked => hreads.not_contained hsolver hdiffer asked
  · exact hreads.bindsOthers hdiffer
  · intro hp hp'
    obtain ⟨D, hfinite, μ, hμ, hnone⟩ := hreads.bindsOthers hdiffer
    refine ⟨D, hfinite, μ, ?_, fun D' ν hν => hnone D' ν ?_⟩
    · show μ ∈ q.solutions D
      rw [← (hreads.solutions_eq hp hp' D).1]
      exact hμ
    · show ν ∈ q'.projectedSolutions D'
      rw [(hreads.solutions_eq hp hp' D').2]
      exact hν

/-- The values of a property beside the subjects, with a variable that nothing binds. -/
def subjectsAndValues : Query :=
  ⟨.select, .project (.bgp [⟨.var "x", .iri "p", .var "y"⟩]) ["x", "y", "z"], false⟩

/-- The subjects, where the values are listed as well, but are hidden by a sub-select. -/
def hiddenValues : Query :=
  ⟨.select, .project (.project (.bgp [⟨.var "x", .iri "p", .var "y"⟩]) ["x"]) ["x", "y"], false⟩

theorem hiddenValues_not_contained :
    (∃ v, (CheckM.outcome (contained .oracle .set hiddenValues subjectsAndValues) []).1 = .ok v ∧
      v.contained = false) ∧
    BindsOthers (hiddenValues.solutions ·) (subjectsAndValues.solutions ·) := by
  obtain ⟨s, hs⟩ : ∃ s, (Naming.empty.readQuery hiddenValues).1 = .ok s := ⟨_, rfl⟩
  obtain ⟨t, ht⟩ : ∃ t, ((Naming.empty.readQuery hiddenValues).2.readQuery subjectsAndValues).1 =
    .ok t := ⟨_, rfl⟩
  have hdiffer : ¬s.sameAnswer t := by
    obtain rfl := Except.ok.inj hs
    obtain rfl := Except.ok.inj ht
    decide
  obtain ⟨hverdict, -, hright⟩ :=
    different_answers_not_contained.2 _ _ s t ⟨hs, ht⟩ hdiffer
  exact ⟨hverdict .oracle Solver.decides_oracle [], hright (fun _ => rfl) fun _ => rfl⟩

/-- The query of one triple with its variable listed. -/
def projected (x : String) : Query := ⟨.select, .project (unprojected x).pattern [x], false⟩

/--
Without a final projection the relevant variables are none, so that the verdict is negative as well
where the solutions are the same.
-/
theorem unprojected_not_contained :
    (∃ s t, Reads (unprojected "x") (projected "x") s t ∧ ¬s.sameAnswer t) ∧
    (∃ v, (CheckM.outcome (contained .oracle .set (unprojected "x") (projected "x")) []).1 =
      .ok v ∧ v.contained = false) ∧
    (∀ D, (unprojected "x").solutions D = (projected "x").solutions D) ∧
    ¬BindsOthers ((unprojected "x").solutions ·) ((projected "x").solutions ·) := by
  obtain ⟨s, hs⟩ : ∃ s, (Naming.empty.readQuery (unprojected "x")).1 = .ok s := ⟨_, rfl⟩
  obtain ⟨t, ht⟩ : ∃ t,
    ((Naming.empty.readQuery (unprojected "x")).2.readQuery (projected "x")).1 = .ok t := ⟨_, rfl⟩
  have hdiffer : ¬s.sameAnswer t := by
    obtain rfl := Except.ok.inj hs
    obtain rfl := Except.ok.inj ht
    decide
  have hrestrict (D : Dataset) (μ : Mapping) (hμ : μ ∈ (unprojected "x").solutions D) :
      μ.restrict ["x"] = μ := by
    rw [solutions_unprojected] at hμ
    obtain ⟨r, -, rfl⟩ := hμ
    funext y
    by_cases hy : y = "x" <;> simp [Mapping.restrict, hy]
  have hsame (D : Dataset) : (unprojected "x").solutions D = (projected "x").solutions D := by
    ext μ
    constructor
    · intro hμ
      exact ⟨μ, hμ, (hrestrict D μ hμ).symm⟩
    · rintro ⟨ν, hν, rfl⟩
      rw [hrestrict D ν hν]
      exact hν
  refine ⟨⟨s, t, ⟨hs, ht⟩, hdiffer⟩,
    Reads.not_contained Solver.decides_oracle ⟨hs, ht⟩ hdiffer [], hsame, ?_⟩
  rintro ⟨D, -, μ, hμ, hnone⟩
  have hμ' : μ ∈ (projected "x").solutions D := by
    rw [← hsame D]
    exact hμ
  exact hnone D μ hμ' rfl

end Check

end QueryContainment
