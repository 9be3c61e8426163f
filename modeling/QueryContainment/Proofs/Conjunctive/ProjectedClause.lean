import QueryContainment.Algebra.Walk
import QueryContainment.Proofs.Conjunctive.Alike
import QueryContainment.Proofs.Conjunctive.Throughout

namespace QueryContainment

open Naming ConjunctiveQuery

namespace Pattern

variable {inner p p' : Pattern} {names : List String}

section

variable (inner : Pattern) (names : List String)

/-- Some of the clauses whose body is `inner` have it in a sub-select of `names`. -/
inductive ProjectsClauses : Pattern → Pattern → Prop
  | refl (p : Pattern) : ProjectsClauses p p
  | clause (url : String) :
    ProjectsClauses (service (.iri url) inner) (service (.iri url) (project inner names))
  | join {left left' right right' : Pattern} (hleft : ProjectsClauses left left')
    (hright : ProjectsClauses right right') : ProjectsClauses (join left right) (join left' right')
  | distinct {p p' : Pattern} (h : ProjectsClauses p p') :
    ProjectsClauses (distinct p) (distinct p')
  | reduced {p p' : Pattern} (h : ProjectsClauses p p') : ProjectsClauses (reduced p) (reduced p')
  | orderBy {p p' : Pattern} (h : ProjectsClauses p p') : ProjectsClauses (orderBy p) (orderBy p')
  | project {p p' : Pattern} (vars : List String) (h : ProjectsClauses p p') :
    ProjectsClauses (project p vars) (project p' vars)
  | service {p p' : Pattern} (url : String) (h : ProjectsClauses p p') :
    ProjectsClauses (service (.iri url) p) (service (.iri url) p')

/-- What is joined for an endpoint in two patterns of which the second one projects clauses. -/
inductive ProjectsBodies : Pattern → Pattern → Prop
  | clauses {p p' : Pattern} (h : ProjectsClauses inner names p p') : ProjectsBodies p p'
  | alone : ProjectsBodies inner (project inner names)
  | join {left left' right right' : Pattern} (hleft : ProjectsBodies left left')
    (hright : ProjectsBodies right right') : ProjectsBodies (join left right) (join left' right')

end

theorem ProjectsClauses.alike (h : ProjectsClauses inner names p p')
    (hnames : ∀ x ∈ inner.bound, x ∈ names) (hp : p.Readable) : Alike id p p' := by
  induction h with
  | refl p => exact hp.alike
  | clause url => exact .service url (.nested (readable_service.1 hp).alike hnames)
  | join _ _ ihl ihr =>
    obtain ⟨hl, hr⟩ := readable_join.1 hp
    exact .join (ihl hl) (ihr hr)
  | distinct _ ih => exact .distinct (ih (readable_distinct.1 hp))
  | reduced _ ih => exact .reduced (ih (readable_reduced.1 hp))
  | orderBy _ ih => exact .orderBy (ih (readable_orderBy.1 hp))
  | project vars _ ih =>
    exact .project (ih (readable_project.1 hp)) (fun _ _ hx => ⟨rfl, hx⟩) (fun _ _ hx => hx)
      fun _ _ _ _ => id
  | service url _ ih => exact .service url (ih (readable_service.1 hp))

theorem ProjectsBodies.alike (h : ProjectsBodies inner names p p')
    (hnames : ∀ x ∈ inner.bound, x ∈ names) (hp : p.Readable) : Alike id p p' := by
  induction h with
  | clauses h => exact h.alike hnames hp
  | alone => exact .nested hp.alike hnames
  | join _ _ ihl ihr =>
    obtain ⟨hl, hr⟩ := readable_join.1 hp
    exact .join (ihl hl) (ihr hr)

theorem ProjectsClauses.splitProjection (h : ProjectsClauses inner names p p') :
    p'.splitProjection.1 = p.splitProjection.1 ∧
      ProjectsClauses inner names p.splitProjection.2 p'.splitProjection.2 := by
  induction h with
  | refl p => exact ⟨rfl, .refl _⟩
  | clause url => exact ⟨rfl, .clause url⟩
  | join hleft hright => exact ⟨rfl, .join hleft hright⟩
  | distinct _ ih => exact ih
  | reduced _ ih => exact ih
  | orderBy _ ih => exact ih
  | project vars h => exact ⟨rfl, h⟩
  | service url h => exact ⟨rfl, .service url h⟩

/-- Clause by clause, the bodies are the same but for what is projected in them. -/
theorem ProjectsClauses.forall₂_clauses (h : ProjectsClauses inner names p p') :
    List.Forall₂ (SameEndpoint (ProjectsBodies inner names)) p.clauses p'.clauses := by
  have hsame (p : Pattern) :
      List.Forall₂ (SameEndpoint (ProjectsBodies inner names)) p.clauses p.clauses :=
    List.forall₂_same.2 fun e _ => ⟨rfl, .clauses (.refl e.2)⟩
  induction h with
  | refl p => exact hsame p
  | clause url =>
    rw [clauses_service, clauses_service, clauses_project]
    exact .cons ⟨rfl, .alone⟩ (hsame inner)
  | join _ _ ihl ihr =>
    rw [clauses_join, clauses_join]
    exact List.rel_append ihl ihr
  | distinct _ ih => exact ih
  | reduced _ ih => exact ih
  | orderBy _ ih => exact ih
  | project vars _ ih =>
    rw [clauses_project, clauses_project]
    exact ih
  | service url h ih =>
    rw [clauses_service, clauses_service]
    exact .cons ⟨rfl, .clauses h⟩ ih

theorem ProjectsClauses.mem_inScope (h : ProjectsClauses inner names p p')
    (hnames : ∀ x, x ∈ names ↔ x ∈ inner.inScope) (x : String) :
    x ∈ p'.inScope ↔ x ∈ p.inScope := by
  induction h with
  | refl p => exact Iff.rfl
  | clause url => exact hnames x
  | join _ _ ihl ihr => simp only [inScope, List.mem_append, ihl, ihr]
  | distinct _ ih => exact ih
  | reduced _ ih => exact ih
  | orderBy _ ih => exact ih
  | project vars _ _ => exact Iff.rfl
  | service url _ ih => exact ih

theorem ProjectsClauses.dropsVariable (h : ProjectsClauses inner names p p')
    (hnames : ∀ x, x ∈ names ↔ x ∈ inner.inScope) : p'.dropsVariable = p.dropsVariable := by
  induction h with
  | refl p => rfl
  | clause url => rfl
  | join _ _ _ _ => rfl
  | distinct _ ih => exact ih
  | reduced _ ih => exact ih
  | orderBy _ ih => exact ih
  | project vars h _ =>
    rw [Bool.eq_iff_iff]
    simp only [Pattern.dropsVariable, List.any_eq_true, h.mem_inScope hnames]
  | service url _ _ => rfl

theorem ProjectsBodies.forall₂_clauses (h : ProjectsBodies inner names p p') :
    List.Forall₂ (SameEndpoint (ProjectsBodies inner names)) p.clauses p'.clauses := by
  induction h with
  | clauses h => exact h.forall₂_clauses
  | alone =>
    rw [clauses_project]
    exact List.forall₂_same.2 fun e _ => ⟨rfl, .clauses (.refl e.2)⟩
  | join _ _ ihl ihr =>
    rw [clauses_join, clauses_join]
    exact List.rel_append ihl ihr

theorem holdsOfEndpoints_projectsBodies : HoldsOfEndpoints (ProjectsBodies inner names) :=
  fun _ _ h => forall₂_endpoints (fun _ _ _ _ => .join) h.forall₂_clauses

end Pattern

namespace Flattened

variable {inner p p' : Pattern} {names : List String} {k k' : Nat} {r r' : ConjunctiveQuery Term}
  {plain : Prop}

/--
Two queries for an endpoint, the one read from the body of its only clause, the other one from the
sub-select that the body is put into. The body has no final projection, so that there were no
variables in the answer. With the sub-select, all of its variables are in the answer, and there are
some.
-/
structure Exposed (inner : Pattern) (names : List String) (r r' : ConjunctiveQuery Term) :
    Prop where
  unprojected : inner.splitProjection.1 = none
  binds : inner.bound ≠ []
  body : ∃ k, (ofPattern k inner).result = .ok r
  subSelect : ∃ k, (ofPattern k (.project inner names)).result = .ok r'
  answer : r.answer = []
  answerOfSubSelect : ∀ x, x ∈ r'.answer ↔ x ∈ inner.bound

theorem pairedIf_of_some {listed : List String} (hn : plain → inner.PlainNames)
    (hnames : ∀ x ∈ inner.bound, x ∈ names) (hlisted : inner.splitProjection.1 = some listed)
    (hr : (ofPattern k inner).result = .ok r)
    (hr' : (ofPattern k' (.project inner names)).result = .ok r') : PairedIf plain r r' := by
  replace hr' : (body ofPattern k' (some names) inner).result = .ok r' := by
    rw [ofPattern_eq] at hr'
    exact hr'
  rw [ofPattern_eq, hlisted] at hr
  obtain ⟨-, hatoms, hanswer⟩ := body_answers hr
  obtain ⟨-, hatoms', hanswer'⟩ := body_answers hr'
  have hbound (x : String) : x ∈ inner.bound ↔
      x ∈ inner.splitProjection.2.bound ∧ x ∈ listed := Pattern.mem_bound_of_some hlisted
  have hsame (x : String) : x ∈ r.answer ↔ x ∈ r'.answer := by
    rw [hanswer, hanswer', Option.getD_some, Option.getD_some, ← hbound]
    exact (and_iff_left_of_imp (hnames x)).symm
  refine ⟨hsame, fun hplain => ?_⟩
  obtain ⟨R, hR, hfixed, hpaired⟩ :=
    (readable_of_body hr).exists_pairing_project (hn hplain).splitProjection k k' listed
  rw [← Pattern.steps_of_some hlisted] at hpaired
  refine ⟨R, hR, hatoms ▸ hatoms' ▸ hpaired, hsame, fun x hx => ?_⟩
  obtain ⟨hx, hmem⟩ := (hanswer x).1 hx
  exact hfixed x hx hmem

/-- What an endpoint is sent has the same answers, unless its variables are exposed. -/
theorem pairedIf_or_exposed (h : Pattern.ProjectsBodies inner names p p')
    (hn : plain → p.PlainNames) (hnames : ∀ x ∈ inner.bound, x ∈ names)
    (hr : (ofPattern k p).result = .ok r) (hr' : (ofPattern k' p').result = .ok r') :
    PairedIf plain r r' ∨ Exposed inner names r r' := by
  cases h with
  | clauses h =>
    obtain ⟨hlisted, hinner⟩ := h.splitProjection
    rw [ofPattern_eq] at hr hr'
    exact .inl (pairedIf_of_body (hinner.alike hnames (readable_of_body hr))
      (fun hplain => (hn hplain).splitProjection) hr hr' fun x _ => by rw [hlisted])
  | join hleft hright =>
    rw [ofPattern_eq] at hr hr'
    exact .inl (pairedIf_of_body
      ((Pattern.ProjectsBodies.join hleft hright).alike hnames (readable_of_body hr)) hn
      hr hr' fun _ _ => Iff.rfl)
  | alone =>
    cases hlisted : inner.splitProjection.1 with
    | some listed => exact .inl (pairedIf_of_some hn hnames hlisted hr hr')
    | none =>
      have hbody : (body ofPattern k none inner).result = .ok r := ofPattern_of_none hlisted k ▸ hr
      have hbody' : (body ofPattern k' (some names) inner).result = .ok r' := by
        rw [ofPattern_eq] at hr'
        exact hr'
      by_cases hbound : inner.bound = []
      · exact .inl (pairedIf_of_body (readable_of_body hbody).alike hn hbody hbody'
          fun x hx => absurd hx (by simp [hbound]))
      · obtain ⟨-, -, hanswer⟩ := body_answers hbody
        obtain ⟨-, -, hanswer'⟩ := body_answers hbody'
        refine .inr ⟨hlisted, hbound, ⟨k, hr⟩, ⟨k', hr'⟩, ?_, fun x => ?_⟩
        · exact List.eq_nil_iff_forall_not_mem.2 fun x hx => by simpa using (hanswer x).1 hx
        · rw [hanswer', Option.getD_some]
          exact and_iff_left_of_imp (hnames x)

end Flattened

namespace Query

open Flattened

variable {inner : Pattern} {names : List String} {q q' : Query} {k k' : Nat}
  {r r' : ConjunctiveQuery Term} {plain : Prop}

/-- Two queries that differ in clauses whose body is put into a sub-select. -/
structure ProjectsClauses (inner : Pattern) (names : List String) (q q' : Query) : Prop where
  form : q'.form = q.form
  hasDataset : q'.hasDataset = q.hasDataset
  pattern : Pattern.ProjectsClauses inner names q.pattern q'.pattern

theorem ProjectsClauses.refl (q : Query) : q.ProjectsClauses inner names q := ⟨rfl, rfl, .refl _⟩

theorem ProjectsClauses.exists_ofQuery (h : q.ProjectsClauses inner names q')
    (hnames : ∀ x ∈ inner.bound, x ∈ names) (hr : (ofQuery k q).result = .ok r) :
    ∃ r', (ofQuery k q').result = .ok r' := by
  obtain ⟨hform, hdataset, hp⟩ := ofQuery_eq_ok_iff.1 ⟨r, hr⟩
  refine ofQuery_eq_ok_iff.2 ⟨h.form ▸ hform, h.hasDataset ▸ hdataset, ?_⟩
  exact (h.pattern.alike hnames hp).readable hp

/-- The queries as a whole have the same variables and, if these have plain names, are paired. -/
theorem ProjectsClauses.pairedIf (h : q.ProjectsClauses inner names q')
    (hnames : ∀ x ∈ inner.bound, x ∈ names) (hn : plain → q.pattern.PlainNames)
    (hr : (ofQuery k q).result = .ok r) (hr' : (ofQuery k' q').result = .ok r') :
    PairedIf plain r r' ∧ r'.answer = r.answer ∧ r'.other = r.other := by
  obtain ⟨hlisted, hinner⟩ : q'.listed = q.listed ∧
      Pattern.ProjectsClauses inner names q.inner q'.inner := by
    simp only [listed, Query.inner, h.form]
    cases q.form with
    | ask => exact ⟨rfl, h.pattern⟩
    | _ =>
      obtain ⟨hlisted, hinner⟩ := h.pattern.splitProjection
      exact ⟨congrArg (·.getD []) hlisted, hinner⟩
  have hplain (hplain : plain) : q.inner.PlainNames := by
    rw [Pattern.PlainNames, q.basics_inner]
    exact hn hplain
  obtain ⟨projection, hprojection, hbody⟩ := exists_body_of_ofQuery hr
  obtain ⟨projection', hprojection', hbody'⟩ := exists_body_of_ofQuery hr'
  rw [hbody] at hr
  rw [hbody'] at hr'
  have halike := hinner.alike hnames (readable_of_body hr)
  have hsame : projection'.getD [] = projection.getD [] := by
    rw [hprojection, hprojection', hlisted]
  have hbound : q'.inner.bound = q.inner.bound := by
    rw [halike.bound, List.map_id]
  obtain ⟨hanswer, hother⟩ := body_vars hr
  obtain ⟨hanswer', hother'⟩ := body_vars hr'
  refine ⟨pairedIf_of_body halike hplain hr hr' fun x _ => by rw [hsame], ?_, ?_⟩
  · rw [hanswer, hanswer', hbound, hsame]
  · rw [hother, hother', hbound, hsame]

/-- The same is true of what the endpoints are sent, unless its variables are exposed. -/
theorem ProjectsClauses.throughoutServices (h : q.ProjectsClauses inner names q')
    (hnames : ∀ x ∈ inner.bound, x ∈ names) (hn : plain → q.pattern.PlainNames)
    (hr : (ofQuery k q).result = .ok r) (hr' : (ofQuery k' q').result = .ok r') :
    ThroughoutServices (fun r r' => PairedIf plain r r' ∨ Exposed inner names r r')
      r.services r'.services := by
  have hread := throughoutServices_ofQuery
    (Pattern.holdsOfEndpoints_projectsBodies.plainNames plain) ⟨hn, .clauses h.pattern⟩ hr hr'
  refine ThroughoutServices.imp_mem (fun a _ a' _ hpair => ?_) hread
  obtain ⟨p, p', j, j', ⟨hp, hb⟩, hs, hs'⟩ := hpair
  exact pairedIf_or_exposed hb hp hnames hs hs'

/-- Read after different queries, a query is read alike. -/
theorem throughoutServices_pairedIf (hn : plain → q.pattern.PlainNames)
    (hr : (ofQuery k q).result = .ok r) (hr' : (ofQuery k' q).result = .ok r') :
    ThroughoutServices (PairedIf plain) r.services r'.services := by
  have hsame : Pattern.HoldsOfEndpoints Eq := by
    rintro p _ rfl
    exact List.forall₂_same.2 fun e _ => ⟨rfl, rfl⟩
  have hread := throughoutServices_ofQuery (hsame.plainNames plain) ⟨hn, rfl⟩ hr hr'
  refine ThroughoutServices.imp_mem (fun a _ a' _ hpair => ?_) hread
  obtain ⟨p, _, j, j', ⟨hp, rfl⟩, hs, hs'⟩ := hpair
  rw [ofPattern_eq] at hs hs'
  exact pairedIf_of_body (readable_of_body hs).alike (fun hplain => (hp hplain).splitProjection)
    hs hs' fun _ _ => Iff.rfl

/-- So it is as a whole. -/
theorem throughout_pairedIf (hn : plain → q.pattern.PlainNames)
    (hr : (ofQuery k q).result = .ok r) (hr' : (ofQuery k' q).result = .ok r') :
    Throughout (PairedIf plain) r r' := by
  have hclauses : q.ProjectsClauses (.bgp []) [] q := .refl q
  have hbound : ∀ x ∈ (Pattern.bgp []).bound, x ∈ ([] : List String) := by simp [Pattern.bound]
  obtain ⟨hroot, -⟩ := hclauses.pairedIf hbound hn hr hr'
  exact throughout_iff.2
    ⟨hroot, throughoutServices_iff.1 (throughoutServices_pairedIf hn hr hr')⟩

end Query

end QueryContainment
