import QueryContainment.Proofs.Check.Declarations
import QueryContainment.Proofs.Conjunctive.Containment

namespace QueryContainment

open Naming

/--
Of a script that declares what it is about, and asks at its end whether there is a model, the solver
says so rightly.
-/
def Solver.Decides (solver : Solver) : Prop :=
  ∀ asked (script : Smt.Script Smt.Statement), script.Closed → ∀ fs,
    Smt.assertions? (Smt.formulaText script) = some fs →
      (Smt.Satisfiable fs →
        solver asked (Smt.formulaText script) >>= Smt.Answer.ofReply = .ok .sat) ∧
      (¬Smt.Satisfiable fs →
        solver asked (Smt.formulaText script) >>= Smt.Answer.ofReply = .ok .unsat)

namespace Check

variable {solver : Solver} {n : Naming} {q q' : Query} {s t : ConjunctiveQuery Symbol}
  {problem : Smt.Script Smt.Statement} {asked : List String}

theorem reply_of_closed (h : solver.Decides) (hproblem : problem.Closed) (asked : List String) :
    (Smt.Satisfiable problem.formulas →
      reply solver asked (Smt.formulaText problem) = .ok .sat) ∧
    (¬Smt.Satisfiable problem.formulas →
      reply solver asked (Smt.formulaText problem) = .ok .unsat) := by
  obtain ⟨hsat, hunsat⟩ :=
    h asked problem hproblem _ (Smt.assertions?_formulaText hproblem.toPlain)
  exact ⟨fun hs => congrArg (Except.mapError CheckError.solver) (hsat hs),
    fun hs => congrArg (Except.mapError CheckError.solver) (hunsat hs)⟩

theorem reply_eq_unsat_iff (h : solver.Decides) (hproblem : problem.Closed) (asked : List String) :
    reply solver asked (Smt.formulaText problem) = .ok .unsat ↔
      ¬Smt.Satisfiable problem.formulas := by
  obtain ⟨hsat, hunsat⟩ := reply_of_closed h hproblem asked
  refine ⟨fun he hs => ?_, hunsat⟩
  rw [hsat hs] at he
  cases he

theorem exists_reply (h : solver.Decides) (hproblem : problem.Closed) (asked : List String) :
    ∃ answer, reply solver asked (Smt.formulaText problem) = .ok answer := by
  obtain ⟨hsat, hunsat⟩ := reply_of_closed h hproblem asked
  by_cases hs : Smt.Satisfiable problem.formulas
  · exact ⟨.sat, hsat hs⟩
  · exact ⟨.unsat, hunsat hs⟩

/-- Where answers are compared, the variables in them are the same. -/
theorem sameAnswer_of_comparable {mode : Multiplicity} (h : comparable s t mode = .ok true) :
    s.sameAnswer t := by
  cases mode with
  | set => exact Except.ok.inj h
  | bagSet =>
    have hboth : s.sameAnswerAndVariables t = true := Except.ok.inj h
    exact (Bool.and_eq_true _ _ ▸ hboth).1
  | bag => cases h

/-- The formula of two queries has no model exactly if there is a mapping between them. -/
theorem reply_formula_iff (hsolver : solver.Decides) (hn : n.Sound) (hs : s.NamedBy n)
    (ht : t.NamedBy n) {c : Bool} (hc : c = true → s.sameAnswer t) :
    reply solver asked (formula c s t n) = .ok .unsat ↔ c = true ∧ ∃ f, s.Mapped n t f := by
  refine (reply_eq_unsat_iff hsolver (closed_script hn hs ht hc) asked).trans ?_
  cases c with
  | false =>
    -- where answers cannot be compared, the formula asks for a solution, and there is one
    simpa [script] using Smt.satisfiable_solvability hn hs
  | true =>
    rw [script, if_pos rfl, Smt.unsatisfiable_iff_mapped hn hs ht (hc rfl)]
    simp

theorem sound_table (q q' : Query) : (table q q').Sound :=
  sound_after sound_empty [.query q, .query q']

/-- What the first query has named keeps its symbols. -/
theorem mem_entries_table {q : Query} (q' : Query) {e : Term × Symbol}
    (he : e ∈ (Naming.empty.readQuery q).2.entries) : e ∈ (table q q').entries :=
  (mem_entries_after (n := (Naming.empty.readQuery q).2) [.query q']).2 (.inl he)

/-- The table names the symbols of both queries and of the queries of their endpoints. -/
theorem Reads.namedBy_parts (h : Reads q q' s t) :
    (∀ part ∈ s.parts, part.NamedBy (table q q')) ∧
      ∀ part ∈ t.parts, part.NamedBy (table q q') := by
  have hmade := namedBy_made sound_empty [.query q, .query q']
  constructor
  · intro part hpart
    exact hmade part (by simp [made, Call.made, h.sub, Except.toOption, hpart])
  · intro part hpart
    refine hmade part (List.mem_append_right _ ?_)
    simp [made, Call.made, Call.apply, h.sup, Except.toOption, hpart]

theorem Reads.namedBy (h : Reads q q' s t) :
    s.NamedBy (table q q') ∧ t.NamedBy (table q q') :=
  ⟨h.namedBy_parts.1 s s.self_mem_parts, h.namedBy_parts.2 t t.self_mem_parts⟩

/-- The answers of what is read are the solutions of the queries, cut to their final projections. -/
theorem Reads.answers_of_namesApart (h : Reads q q' s t) (hq : ∀ k, q.NamesApart k)
    (hq' : ∀ k, q'.NamesApart k) (D : Dataset) :
    s.answers (table q q') D = q.projectedSolutions D ∧
      t.answers (table q q') D = q'.projectedSolutions D := by
  have hn := (sound_table q q').toWellFormed
  exact ⟨answers_eq_of_namesApart hn h.sub (fun e => mem_entries_table q') (hq _) D,
    answers_eq_of_namesApart hn h.sup (fun e he => he) (hq' _) D⟩

theorem Reads.answers (h : Reads q q' s t) (hq : q.pattern.WellNamed)
    (hq' : q'.pattern.WellNamed) (D : Dataset) :
    s.answers (table q q') D = q.projectedSolutions D ∧
      t.answers (table q q') D = q'.projectedSolutions D :=
  h.answers_of_namesApart hq.namesApart hq'.namesApart D

theorem services_of_serviceDepth {q : Query} (h : (n.readQuery q).1 = .ok s)
    (hd : q.pattern.serviceDepth = 0) : s.services = [] := by
  obtain ⟨⟨atoms, answer, other, services⟩, hr, rfl⟩ := name_eq_ok h
  obtain rfl : services = [] := Flattened.services_ofQuery hr hd
  rfl

theorem exists_mapped_of_contained (hsolver : solver.Decides) {mode : Multiplicity} {v : Verdict}
    (h : (CheckM.outcome (contained solver mode q q') asked).1 = .ok v) (hv : v.contained) :
    ∃ s t, Reads q q' s t ∧ s.sameAnswer t ∧ ∃ f, s.Mapped (table q q') t f := by
  have hrun : CheckM.outcome (contained solver mode q q') asked = (.ok v, _) := Prod.ext h rfl
  obtain ⟨s, t, m, hreads, hqueries⟩ := reads_of_contained hrun
  -- the verdict on the queries as a whole is positive, whatever the endpoints have said
  obtain ⟨c, between, hc, hreply⟩ := reply_of_contained hqueries hv
  have hsame (htrue : c = true) : s.sameAnswer t := sameAnswer_of_comparable (htrue ▸ hc)
  obtain ⟨htrue, hmapped⟩ := (reply_formula_iff hsolver (sound_table q q') hreads.namedBy.1
    hreads.namedBy.2 hsame).1 hreply
  exact ⟨s, t, hreads, hsame htrue, hmapped⟩

theorem contained_of_mapped (hsolver : solver.Decides) (hreads : Reads q q' s t)
    (hd : q.pattern.serviceDepth = 0) (hsame : s.sameAnswer t) {f : Symbol → Symbol}
    (hf : s.Mapped (table q q') t f) : ∃ v,
      (CheckM.outcome (contained solver .set q q') asked).1 = .ok v ∧ v.contained := by
  rw [outcome_contained_set hreads]
  refine contained_of_reply (services_of_serviceDepth hreads.sub hd) (congrArg Except.ok hsame) ?_
  exact (reply_formula_iff hsolver (sound_table q q') hreads.namedBy.1 hreads.namedBy.2
    fun _ => hsame).2 ⟨rfl, f, hf⟩

/--
A positive verdict, however solutions are counted, says that the mappings `S` of the one query are
among the mappings `S'` of the other, in every dataset. If both queries are read and the first one
addresses no endpoint, every such containment gets a positive verdict on the sets of solutions.
-/
structure Correct (solver : Solver) (asked : List String) (q q' : Query)
    (S S' : Dataset → Set Mapping) : Prop where
  sound : ∀ mode v, (CheckM.outcome (contained solver mode q q') asked).1 = .ok v → v.contained →
    ∀ D, S D ⊆ S' D
  complete : ∀ s t, Reads q q' s t → q.pattern.serviceDepth = 0 → (∀ D, S D ⊆ S' D) →
    ∃ v, (CheckM.outcome (contained solver .set q q') asked).1 = .ok v ∧ v.contained

/-- Of all queries that are read, the verdict compares what their final projections leave. -/
theorem projectedSolutions_correct (hsolver : solver.Decides) (asked : List String)
    (hq : q.pattern.WellNamed) (hq' : q'.pattern.WellNamed) :
    Correct solver asked q q' (q.projectedSolutions ·) (q'.projectedSolutions ·) where
  sound := by
    intro mode v h hv D
    obtain ⟨s, t, hreads, hsame, f, hf⟩ := exists_mapped_of_contained hsolver h hv
    obtain ⟨hs, ht⟩ := hreads.answers hq hq' D
    rw [← hs, ← ht]
    exact hf.answers_subset (sound_table q q') hsame D
  complete := by
    intro s t hreads hd hsubset
    have hanswers (D : Dataset) : s.answers (table q q') D ⊆ t.answers (table q q') D := by
      obtain ⟨hs, ht⟩ := hreads.answers hq hq' D
      rw [hs, ht]
      exact hsubset D
    -- the dataset of the frozen atoms is one of those in which `q` is contained in `q'`
    obtain ⟨hsame, f, hf⟩ := (ConjunctiveQuery.answers_subset_iff_mapped (sound_table q q')
      hreads.namedBy.1 hreads.namedBy.2).1 hanswers
    exact contained_of_mapped hsolver hreads hd hsame hf

/-- What is read is a `SELECT` or `ASK` query. -/
theorem Reads.solutions_eq (h : Reads q q' s t) (hp : q.ProjectsIfSelect)
    (hp' : q'.ProjectsIfSelect) (D : Dataset) :
    q.projectedSolutions D = q.solutions D ∧ q'.projectedSolutions D = q'.solutions D :=
  ⟨Query.projectedSolutions_eq hp (form_of_readQuery h.sub) D,
    Query.projectedSolutions_eq hp' (form_of_readQuery h.sup) D⟩

/--
For any two queries, and any solver that tells formulas with a model from those without one,
whatever it was asked before: the verdicts are right about the solutions of the queries, cut to
their final projections. They are right about the solutions as they are for queries of which each is
an `ASK` or has a final projection.
-/
theorem contained_correct (hsolver : solver.Decides) (asked : List String)
    (hq : q.pattern.WellNamed) (hq' : q'.pattern.WellNamed) :
    Correct solver asked q q' (q.projectedSolutions ·) (q'.projectedSolutions ·) ∧
    (q.ProjectsIfSelect → q'.ProjectsIfSelect →
      Correct solver asked q q' (q.solutions ·) (q'.solutions ·)) := by
  have hcut := projectedSolutions_correct hsolver asked hq hq'
  refine ⟨hcut, fun hp hp' => ⟨?_, ?_⟩⟩
  · intro mode v h hv D
    obtain ⟨s, t, hreads, -⟩ := exists_mapped_of_contained hsolver h hv
    obtain ⟨hs, ht⟩ := hreads.solutions_eq hp hp' D
    rw [← hs, ← ht]
    exact hcut.sound mode v h hv D
  · intro s t hreads hd hsubset
    refine hcut.complete s t hreads hd fun D => ?_
    obtain ⟨hs, ht⟩ := hreads.solutions_eq hp hp' D
    rw [hs, ht]
    exact hsubset D

end Check

open Classical in
/-- The solver that knows which formulas have a model. -/
noncomputable def Solver.oracle : Solver := fun _ formula =>
  if ∃ fs, Smt.assertions? formula = some fs ∧ Smt.Satisfiable fs then .ok "sat" else .ok "unsat"

theorem Solver.decides_oracle : Solver.oracle.Decides := by
  intro asked script _ fs hf
  constructor
  · intro hs
    have hexists : ∃ fs, Smt.assertions? (Smt.formulaText script) = some fs ∧
        Smt.Satisfiable fs := ⟨fs, hf, hs⟩
    rw [oracle, if_pos hexists]
    rfl
  · intro hs
    have hnone : ¬∃ fs, Smt.assertions? (Smt.formulaText script) = some fs ∧
        Smt.Satisfiable fs := by
      rintro ⟨fs', hf', hs'⟩
      obtain rfl := Option.some.inj (hf.symm.trans hf')
      exact hs hs'
    rw [oracle, if_neg hnone]
    rfl

namespace Check

/-- The subjects of a property. -/
def subjects : Query := ⟨.select, .project (.bgp [⟨.var "x", .iri "p", .var "y"⟩]) ["x"], false⟩

/-- The subjects of a property, by way of a sub-select. -/
def nestedSubjects : Query :=
  ⟨.select, .distinct (.project (.project (.bgp [⟨.var "x", .iri "p", .var "y"⟩]) ["x"]) ["x"]),
    false⟩

theorem subjects_contained :
    (∃ v, (CheckM.outcome (contained .oracle .set subjects nestedSubjects) []).1 = .ok v ∧
      v.contained) ∧
    ∀ D, subjects.solutions D ⊆ nestedSubjects.solutions D := by
  have hsub : subjects.pattern.WellNamed := by
    constructor
    · unfold Pattern.PlainNames
      decide
    · unfold Pattern.BlanksApart
      decide
  have hsup : nestedSubjects.pattern.WellNamed := ⟨hsub.plain, hsub.apart⟩
  have hform : subjects.ProjectsIfSelect := fun _ => rfl
  have hform' : nestedSubjects.ProjectsIfSelect := fun _ => rfl
  have hcorrect := (contained_correct Solver.decides_oracle [] hsub hsup).2 hform hform'
  obtain ⟨v, hrun, hv⟩ := hcorrect.complete _ _ ⟨rfl, rfl⟩ rfl fun D => by
    rintro μ ⟨ν, hν, rfl⟩
    exact ⟨_, ⟨ν, hν, rfl⟩, (ν.restrict_restrict _).symm⟩
  exact ⟨⟨v, hrun, hv⟩, hcorrect.sound .set v hrun hv⟩

/--
Without final projections the verdict can be positive although a solution of the one query is no
solution of the other, since they bind different variables.
-/
theorem unprojected_contained :
    (unprojected "x").pattern.WellNamed ∧ (unprojected "y").pattern.WellNamed ∧
    (∃ v, (CheckM.outcome (contained .oracle .set (unprojected "x") (unprojected "y")) []).1 =
      .ok v ∧ v.contained) ∧
    ∃ D, ¬(unprojected "x").solutions D ⊆ (unprojected "y").solutions D := by
  have hx : (unprojected "x").pattern.WellNamed := wellNamed_unprojected (by decide)
  have hy : (unprojected "y").pattern.WellNamed := wellNamed_unprojected (by decide)
  refine ⟨hx, hy, ?_, ?_⟩
  · have hcorrect := projectedSolutions_correct Solver.decides_oracle [] hx hy
    refine hcorrect.complete _ _ ⟨rfl, rfl⟩ rfl fun D => ?_
    show (unprojected "x").projectedSolutions D ⊆ (unprojected "y").projectedSolutions D
    rw [projectedSolutions_unprojected, projectedSolutions_unprojected]
  · refine ⟨{⟨.iri "a", .iri "http://e/p", .iri "http://e/o", none⟩}, fun h => ?_⟩
    rw [solutions_unprojected, solutions_unprojected] at h
    obtain ⟨r, -, heq⟩ := h ⟨.iri "a", rfl, rfl⟩
    have hvalue := congrFun heq "x"
    simp at hvalue

end Check

end QueryContainment
