import QueryContainment.Proofs.Check.Modes
import QueryContainment.Proofs.Conjunctive.Variables

namespace QueryContainment

open Naming

namespace Pattern

variable {p inner : Pattern} {names : List String}

theorem dropsVariable_of_some (h : p.splitProjection.1 = some names) :
    p.dropsVariable = p.splitProjection.2.inScope.any (!names.contains ·) :=
  eq_project_of_some (f := dropsVariable) (fun _ => ⟨rfl, rfl, rfl⟩) h

theorem Readable.inScope_eq_bound (h : p.Readable) (hnone : p.subSelectPlaces = []) :
    p.inScope = p.bound := by
  induction h using Readable.induction with
  | bgp triples h => rfl
  | join left right hl hr ihl ihr =>
    obtain ⟨hleft, hright⟩ := List.append_eq_nil_iff.1 hnone
    rw [inScope, bound, ihl (List.map_eq_nil_iff.1 hleft), ihr (List.map_eq_nil_iff.1 hright)]
  | distinct inner h ih => exact ih (List.map_eq_nil_iff.1 hnone)
  | reduced inner h ih => exact ih (List.map_eq_nil_iff.1 hnone)
  | orderBy inner h ih => exact ih (List.map_eq_nil_iff.1 hnone)
  | project inner names h ih => exact absurd hnone (List.cons_ne_nil _ _)
  | service url inner h ih => exact ih (List.map_eq_nil_iff.1 hnone)

end Pattern

namespace ConjunctiveQuery

variable {α : Type} {s t : ConjunctiveQuery α}

theorem sameAnswerAndVariables_of_no_other (h : s.other = []) (t : ConjunctiveQuery α) :
    s.sameAnswerAndVariables t = s.sameAnswer t := by
  rw [sameAnswerAndVariables, Bool.and_eq_left_iff_imp]
  intro hsame
  refine List.all_eq_true.2 fun x hx => List.contains_iff_mem.2 (mem_vars.2 ?_)
  have hanswer : x ∈ s.answer := by simpa [mem_vars, h] using hx
  have hall := List.all_eq_true.1 (Bool.and_eq_true_iff.1 hsame).1 x hanswer
  exact List.mem_append_left _ (List.contains_iff_mem.1 hall)

theorem sameAnswer_iff_of_no_answer (h : s.answer = []) : s.sameAnswer t ↔ t.answer = [] := by
  simp [sameAnswer, h, List.eq_nil_iff_forall_not_mem]

end ConjunctiveQuery

namespace Query

variable {n : Naming} {q : Query} {s : ConjunctiveQuery Symbol} {names : List String} {x : String}

theorem mem_other_iff (hselect : q.form = .select) (hs : (n.readQuery q).1 = .ok s)
    (hnames : q.pattern.splitProjection.1 = some names) :
    x ∈ s.other ↔ x ∈ q.pattern.splitProjection.2.bound ∧ x ∉ names := by
  have ht : Traversal.ofQuery q = ⟨some names, q.pattern.splitProjection.2⟩ := by
    rw [Traversal.ofQuery, hselect, ← hnames]
    rfl
  have hdivides := divides_of_readQuery hs
  have hp := Pattern.readable_splitProjection.2 (readable_of_readQuery hs)
  have hlisted : (∃ listed, some names = some listed ∧ x ∈ listed) ↔ x ∈ names := by simp
  rw [ht] at hdivides
  rw [hdivides.mem_other, hdivides.mem_answer, hdivides.mem_vars, ← Pattern.mem_visibleVars,
    hp.visibleVars_eq_bound, hlisted]
  tauto

theorem dropsVariable_of_other (hselect : q.form = .select) (hs : (n.readQuery q).1 = .ok s)
    (hnames : q.pattern.splitProjection.1 = some names) (hother : s.other ≠ []) :
    q.dropsVariable := by
  obtain ⟨x, hx⟩ := List.exists_mem_of_ne_nil _ hother
  obtain ⟨hbound, hlisted⟩ := (mem_other_iff hselect hs hnames).1 hx
  rw [dropsVariable, Pattern.dropsVariable_of_some hnames]
  exact List.any_eq_true.2 ⟨x, Pattern.mem_inScope_of_mem_bound hbound, by simpa using hlisted⟩

theorem other_of_dropsVariable (hselect : q.form = .select) (hs : (n.readQuery q).1 = .ok s)
    (hnames : q.pattern.splitProjection.1 = some names)
    (hnone : q.pattern.splitProjection.2.subSelectPlaces = []) (hdrops : q.dropsVariable) :
    s.other ≠ [] := by
  have hp := Pattern.readable_splitProjection.2 (readable_of_readQuery hs)
  rw [dropsVariable, Pattern.dropsVariable_of_some hnames, hp.inScope_eq_bound hnone] at hdrops
  obtain ⟨x, hbound, hlisted⟩ := List.any_eq_true.1 hdrops
  have hx := (mem_other_iff hselect hs hnames).2 ⟨hbound, by simpa using hlisted⟩
  exact List.ne_nil_of_mem hx

theorem answer_eq_nil_of_ask (hask : q.form = .ask) (hs : (n.readQuery q).1 = .ok s) :
    s.answer = [] := by
  have ht : (Traversal.ofQuery q).projection = none := by
    rw [Traversal.ofQuery, hask]
  refine List.eq_nil_iff_forall_not_mem.2 fun x hx => ?_
  obtain ⟨-, names, hnames, -⟩ := ((divides_of_readQuery hs).mem_answer x).1 hx
  rw [ht] at hnames
  cases hnames

end Query

namespace Check

open CheckM

variable {n : Naming} {q q' : Query} {s t : ConjunctiveQuery Symbol} {names : List String}

/--
A `SELECT` with a final projection, below modifiers only. If there are other variables, the test
finds that the projection drops one; it also does so only then, if there are no sub-selects. Where
it drops none, both ways to compare answers are the same against any super-query, and a check that
counts the solutions of the super-query asks for the same formulas as one of sets and ends alike.
-/
theorem select_projection (n : Naming) (hselect : q.form = .select)
    (hs : (n.readQuery q).1 = .ok s) (hnames : q.pattern.splitProjection.1 = some names) :
    (s.other ≠ [] → q.dropsVariable) ∧
    (q.pattern.splitProjection.2.subSelectPlaces = [] → q.dropsVariable → s.other ≠ []) ∧
    (q.dropsVariable = false → ∀ t : ConjunctiveQuery Symbol,
      s.sameAnswer t = s.sameAnswerAndVariables t ∧ ∀ m solver asked,
        outcome (queries solver m .bagSet s t) asked =
          outcome (queries solver m .set s t) asked) := by
  refine ⟨Query.dropsVariable_of_other hselect hs hnames,
    Query.other_of_dropsVariable hselect hs hnames, fun hdrops t => ?_⟩
  have hother : s.other = [] := Classical.byContradiction fun hother => by
    simp [Query.dropsVariable_of_other hselect hs hnames hother] at hdrops
  have hsame := ConjunctiveQuery.sameAnswerAndVariables_of_no_other hother t
  exact ⟨hsame.symm, fun m solver asked => outcome_queries_congr (congrArg Except.ok hsame)⟩

/-- A sub-select may list a variable that occurs nowhere, which is in scope but not used. -/
example :
    let q : Query := ⟨.select, .project (.project (.bgp [⟨.var "x", .iri "p", .var "y"⟩])
      ["x", "u"]) ["x"], false⟩
    q.dropsVariable = true ∧ (empty.readQuery q).1.toOption.map (·.other) = some [] := by
  decide

def stepStarts : Query := ⟨.select, .project (.bgp [⟨.var "x", .iri "p", .var "y"⟩]) ["x"], false⟩

def wholeSteps : Query :=
  ⟨.select, .distinct (.project (.bgp [⟨.var "x", .iri "p", .var "y"⟩]) ["y", "x"]), false⟩

theorem select_projection_steps :
    (∃ s, (empty.readQuery stepStarts).1 = .ok s ∧ s.other ≠ [] ∧ stepStarts.dropsVariable) ∧
    ∃ s, (empty.readQuery wholeSteps).1 = .ok s ∧ ∀ solver asked,
      outcome (queries solver .empty .bagSet s remoteStep) asked =
        outcome (queries solver .empty .set s remoteStep) asked := by
  refine ⟨⟨_, rfl, ?_⟩, _, rfl, ?_⟩
  · obtain ⟨hdrops, hother, -⟩ := select_projection empty (q := stepStarts) rfl rfl rfl
    have hne := hother rfl (by decide)
    exact ⟨hne, hdrops hne⟩
  · obtain ⟨-, -, hsame⟩ := select_projection empty (q := wholeSteps) rfl rfl rfl
    exact (hsame (by decide) remoteStep).2 .empty

/--
Two queries that are read, the first one an `ASK`. Counting the solutions of the super-query is the
same check as that on sets, whatever the solver replies, unless all of the pattern is a sub-select
that drops a variable, no endpoint is missing, the answer of the super-query is empty, too, and it
does not use all variables of the sub-query. In that case the two can be told apart.
-/
theorem ask_bagSet_iff (hask : q.form = .ask) (hreads : Reads q q' s t) :
    (∀ solver asked, outcome (contained solver .bagSet q q') asked =
      outcome (contained solver .set q q') asked) ↔
    (q.dropsVariable → planIsCut .set s t = false → t.answer = [] →
      ∀ x ∈ s.vars, x ∈ t.vars) := by
  rw [outcome_contained_bagSet_iff hreads, ConjunctiveQuery.sameAnswer_iff_of_no_answer
    (Query.answer_eq_nil_of_ask hask hreads.sub)]

/-- Whether there is a step, by a sub-select of the starts. -/
def askStepStarts : Query :=
  ⟨.ask, .project (.bgp [⟨.var "x", .iri "p", .var "y"⟩]) ["x"], false⟩

/-- Against itself, the query with the sub-select is checked in one way. -/
theorem ask_bagSet_iff_askStepStarts : askStepStarts.dropsVariable = true ∧
    ∀ solver asked, outcome (contained solver .bagSet askStepStarts askStepStarts) asked =
      outcome (contained solver .set askStepStarts askStepStarts) asked := by
  obtain ⟨s, hs⟩ : ∃ s, (empty.readQuery askStepStarts).1 = .ok s := ⟨_, rfl⟩
  obtain ⟨t, ht⟩ : ∃ t, ((empty.readQuery askStepStarts).2.readQuery askStepStarts).1 = .ok t :=
    ⟨_, rfl⟩
  refine ⟨by decide, (ask_bagSet_iff rfl ⟨hs, ht⟩).2 fun _ _ _ => ?_⟩
  obtain rfl := Except.ok.inj hs
  obtain rfl := Except.ok.inj ht
  decide

def askStep : Query := ⟨.ask, .bgp [⟨.var "z", .iri "p", .var "w"⟩], false⟩

/-- The variables of the two are different, so that they are checked in two ways. -/
theorem ask_checks_differ : ¬∀ (q q' : Query) (s t : ConjunctiveQuery Symbol), q.form = .ask →
    Reads q q' s t → ∀ solver asked, outcome (contained solver .bagSet q q') asked =
      outcome (contained solver .set q q') asked := by
  intro hall
  obtain ⟨s, hs⟩ : ∃ s, (empty.readQuery askStepStarts).1 = .ok s := ⟨_, rfl⟩
  obtain ⟨t, ht⟩ : ∃ t, ((empty.readQuery askStepStarts).2.readQuery askStep).1 = .ok t := ⟨_, rfl⟩
  have hreads : Reads askStepStarts askStep s t := ⟨hs, ht⟩
  have hvars := (outcome_contained_bagSet_iff hreads).1 (hall _ _ s t rfl hreads) (by decide)
  obtain rfl := Except.ok.inj hs
  obtain rfl := Except.ok.inj ht
  exact absurd (hvars rfl rfl "x" (by decide)) (by decide)

end Check

end QueryContainment
