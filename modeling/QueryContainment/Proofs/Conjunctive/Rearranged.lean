import Mathlib.Logic.Relation
import QueryContainment.Proofs.Conjunctive.Throughout

namespace QueryContainment

namespace Pattern

/-- One rewrite that changes no conjunctive query, somewhere in a pattern. -/
inductive Rewrite : Pattern → Pattern → Prop
  | distinct_elim (p : Pattern) : Rewrite (distinct p) p
  | reduced_elim (p : Pattern) : Rewrite (reduced p) p
  | orderBy_elim (p : Pattern) : Rewrite (orderBy p) p
  | join_assoc (p q r : Pattern) : Rewrite (join (join p q) r) (join p (join q r))
  | bgp_append (triples more : List TriplePattern) :
    Rewrite (join (bgp triples) (bgp more)) (bgp (triples ++ more))
  | join_left {p p' : Pattern} (h : Rewrite p p') (r : Pattern) : Rewrite (join p r) (join p' r)
  | join_right (p : Pattern) {r r' : Pattern} (h : Rewrite r r') : Rewrite (join p r) (join p r')
  | leftJoin_left {p p' : Pattern} (h : Rewrite p p') (r : Pattern) :
    Rewrite (leftJoin p r) (leftJoin p' r)
  | leftJoin_right (p : Pattern) {r r' : Pattern} (h : Rewrite r r') :
    Rewrite (leftJoin p r) (leftJoin p r')
  | union_left {p p' : Pattern} (h : Rewrite p p') (r : Pattern) : Rewrite (union p r) (union p' r)
  | union_right (p : Pattern) {r r' : Pattern} (h : Rewrite r r') : Rewrite (union p r) (union p r')
  | minus_left {p p' : Pattern} (h : Rewrite p p') (r : Pattern) : Rewrite (minus p r) (minus p' r)
  | minus_right (p : Pattern) {r r' : Pattern} (h : Rewrite r r') : Rewrite (minus p r) (minus p r')
  | filter {p p' : Pattern} (h : Rewrite p p') : Rewrite (filter p) (filter p')
  | graph (name : IriOrVar) {p p' : Pattern} (h : Rewrite p p') :
    Rewrite (graph name p) (graph name p')
  | extend {p p' : Pattern} (h : Rewrite p p') (name : String) :
    Rewrite (extend p name) (extend p' name)
  | orderBy {p p' : Pattern} (h : Rewrite p p') : Rewrite (orderBy p) (orderBy p')
  | distinct {p p' : Pattern} (h : Rewrite p p') : Rewrite (distinct p) (distinct p')
  | reduced {p p' : Pattern} (h : Rewrite p p') : Rewrite (reduced p) (reduced p')
  | slice {p p' : Pattern} (h : Rewrite p p') : Rewrite (slice p) (slice p')
  | project {p p' : Pattern} (h : Rewrite p p') (names : List String) :
    Rewrite (project p names) (project p' names)
  | group {p p' : Pattern} (h : Rewrite p p') (names aggregates : List String) :
    Rewrite (group p names aggregates) (group p' names aggregates)
  | service (name : IriOrVar) {p p' : Pattern} (h : Rewrite p p') :
    Rewrite (service name p) (service name p')

/-- Any number of rewrites lead from one pattern to the other, each of them in either direction. -/
def Rearranged : Pattern → Pattern → Prop := Relation.EqvGen Rewrite

variable {p p' q q' r r' : Pattern} {c : Context} {k : Nat}

namespace Rearranged

theorem refl (p : Pattern) : Rearranged p p := Relation.EqvGen.refl p

theorem symm (h : Rearranged p q) : Rearranged q p := Relation.EqvGen.symm p q h

theorem trans (h : Rearranged p q) (h' : Rearranged q r) : Rearranged p r :=
  Relation.EqvGen.trans p q r h h'

theorem of_rewrite (h : Rewrite p q) : Rearranged p q := Relation.EqvGen.rel p q h

theorem lift {f : Pattern → Pattern} (hf : ∀ p q, Rewrite p q → Rewrite (f p) (f q))
    (h : Rearranged p q) : Rearranged (f p) (f q) := by
  induction h with
  | rel p q h => exact of_rewrite (hf p q h)
  | refl p => exact refl _
  | symm p q h ih => exact ih.symm
  | trans p q r h h' ih ih' => exact ih.trans ih'

theorem join (hp : Rearranged p p') (hq : Rearranged q q') :
    Rearranged (.join p q) (.join p' q') :=
  (hp.lift fun _ _ h => Rewrite.join_left h q).trans (hq.lift fun _ _ h => Rewrite.join_right p' h)

end Rearranged

end Pattern

namespace Step

def withoutBody : Step → Step
  | endpoint url _ => endpoint url (.bgp [])
  | s => s

variable (s : Step)

@[simp] theorem rejection?_withoutBody : s.withoutBody.rejection? = s.rejection? := by
  cases s <;> rfl

@[simp] theorem terms_withoutBody : s.withoutBody.terms = s.terms := by
  cases s <;> rfl

@[simp] theorem atom?_withoutBody : s.withoutBody.atom? = s.atom? := by
  cases s <;> rfl

@[simp] theorem visible_withoutBody : s.withoutBody.visible = s.visible := by
  cases s <;> rfl

@[simp] theorem isNewScope_withoutBody : s.withoutBody.isNewScope = s.isNewScope := by
  cases s <;> rfl

def SameOutline (l l' : List Step) : Prop := l.map withoutBody = l'.map withoutBody

variable {l l' m m' : List Step}

theorem SameOutline.append (h : SameOutline l l') (h' : SameOutline m m') :
    SameOutline (l ++ m) (l' ++ m') := by
  rw [SameOutline, List.map_append, List.map_append, h, h']

theorem SameOutline.cons {s s' : Step} (hs : s.withoutBody = s'.withoutBody)
    (h : SameOutline l l') : SameOutline (s :: l) (s' :: l') := by
  rw [SameOutline, List.map_cons, List.map_cons, hs, h]

theorem SameOutline.scopes_eq (h : SameOutline l l') : scopes l = scopes l' := by
  have hcount := congrArg (List.countP isNewScope) h
  simpa only [List.countP_map, Function.comp_def, isNewScope_withoutBody] using! hcount

theorem SameOutline.findSome?_eq (h : SameOutline l l') :
    l.findSome? rejection? = l'.findSome? rejection? := by
  have hfind := congrArg (List.findSome? rejection?) h
  simpa only [List.findSome?_map, Function.comp_def, rejection?_withoutBody] using hfind

theorem SameOutline.atoms_eq (h : SameOutline l l') :
    l.filterMap atom? = l'.filterMap atom? := by
  have hatoms := congrArg (List.filterMap atom?) h
  simpa only [List.filterMap_map, Function.comp_def, atom?_withoutBody] using hatoms

theorem SameOutline.visible_eq (h : SameOutline l l') : l.flatMap visible = l'.flatMap visible := by
  have hvisible := congrArg (List.flatMap visible) h
  simpa only [List.flatMap_map, visible_withoutBody] using hvisible

theorem SameOutline.terms_eq (h : SameOutline l l') : l.flatMap terms = l'.flatMap terms := by
  have hterms := congrArg (List.flatMap terms) h
  simpa only [List.flatMap_map, terms_withoutBody] using hterms

/-- What comes before the first rejection has the same outline. -/
theorem SameOutline.takeWhile (h : SameOutline l l') :
    SameOutline (l.takeWhile (·.rejection?.isNone)) (l'.takeWhile (·.rejection?.isNone)) := by
  have htake := congrArg (List.takeWhile (·.rejection?.isNone)) h
  simpa only [List.takeWhile_map, Function.comp_def, rejection?_withoutBody] using! htake

end Step

namespace Pattern

open Step (SameOutline)

variable {p p' q q' r r' : Pattern} {c : Context} {k : Nat}

theorem Rewrite.sameOutline (h : Rewrite p q) (c : Context) (k : Nat) :
    SameOutline (p.steps c k) (q.steps c k) := by
  induction h generalizing c k with
  | distinct_elim | reduced_elim | orderBy_elim => rfl
  | join_assoc p q r =>
    simp only [SameOutline, steps, Step.scopes, List.countP_append, List.append_assoc,
      Nat.add_assoc]
  | bgp_append triples more =>
    rw [steps, steps, steps, steps, List.map_append]
    rfl
  | join_left _ r ih =>
    simp only [steps]
    rw [(ih c k).scopes_eq]
    exact (ih c k).append rfl
  | join_right p _ ih => exact SameOutline.append rfl (ih c _)
  | distinct _ ih | reduced _ ih | orderBy _ ih => exact ih c k
  | project _ names ih => exact (ih _ _).cons rfl
  | service name _ ih =>
    cases name with
    | var name => rfl
    | iri url => exact (ih _ _).cons rfl
  | _ => rfl

theorem Rearranged.sameOutline (h : Rearranged p q) (c : Context) (k : Nat) :
    SameOutline (p.steps c k) (q.steps c k) := by
  induction h with
  | rel p q h => exact h.sameOutline c k
  | refl p => rfl
  | symm p q h ih => exact ih.symm
  | trans p q r h h' ih ih' => exact Eq.trans ih ih'

abbrev SameClauses : List (String × Pattern) → List (String × Pattern) → Prop :=
  List.Forall₂ (ConjunctiveQuery.SameEndpoint Rearranged)

namespace SameClauses

variable {l l' m m' : List (String × Pattern)}

theorem refl (l : List (String × Pattern)) : SameClauses l l :=
  List.forall₂_same.2 fun e _ => ⟨rfl, .refl e.2⟩

theorem symm (h : SameClauses l l') : SameClauses l' l :=
  (h.imp fun _ _ he => ⟨he.1.symm, he.2.symm⟩).flip

theorem trans (h : SameClauses l l') (h' : SameClauses l' m) : SameClauses l m := by
  induction h generalizing m with
  | nil => exact h'
  | cons he _ ih =>
    cases h' with
    | cons he' hrest => exact .cons ⟨he.1.trans he'.1, he.2.trans he'.2⟩ (ih hrest)

end SameClauses

theorem Rewrite.sameClauses (h : Rewrite p q) : SameClauses p.clauses q.clauses := by
  induction h with
  | distinct_elim p | reduced_elim p | orderBy_elim p => exact .refl _
  | join_assoc p q r =>
    simp only [clauses_join, List.append_assoc]
    exact .refl _
  | bgp_append triples more =>
    rw [clauses_join, clauses_bgp, clauses_bgp, clauses_bgp]
    exact .nil
  | join_left _ r ih =>
    rw [clauses_join, clauses_join]
    exact List.rel_append ih (SameClauses.refl _)
  | join_right p _ ih =>
    rw [clauses_join, clauses_join]
    exact List.rel_append (SameClauses.refl _) ih
  | distinct _ ih | reduced _ ih | orderBy _ ih => exact ih
  | project _ names ih =>
    rw [clauses_project, clauses_project]
    exact ih
  | service name h ih =>
    cases name with
    | var name => exact .nil
    | iri url =>
      rw [clauses_service, clauses_service]
      exact .cons ⟨rfl, .of_rewrite h⟩ ih
  | _ => exact .nil

theorem Rearranged.sameClauses (h : Rearranged p q) : SameClauses p.clauses q.clauses := by
  induction h with
  | rel p q h => exact h.sameClauses
  | refl p => exact .refl _
  | symm p q h ih => exact ih.symm
  | trans p q r h h' ih ih' => exact ih.trans ih'

theorem Rearranged.sameEndpoints : HoldsOfEndpoints Rearranged :=
  fun _ _ h => forall₂_endpoints (fun _ _ _ _ => Rearranged.join) h.sameClauses

/-- The final projection is the same, and is one of rearranged patterns. -/
theorem Rewrite.splitProjection (h : Rewrite p q) :
    p.splitProjection.1 = q.splitProjection.1 ∧
      Rearranged p.splitProjection.2 q.splitProjection.2 := by
  induction h with
  | distinct_elim p | reduced_elim p | orderBy_elim p => exact ⟨rfl, .refl _⟩
  | distinct _ ih | reduced _ ih | orderBy _ ih => exact ih
  | project h names => exact ⟨rfl, .of_rewrite h⟩
  | join_assoc p q r => exact ⟨rfl, .of_rewrite (.join_assoc p q r)⟩
  | bgp_append triples more => exact ⟨rfl, .of_rewrite (.bgp_append triples more)⟩
  -- in all other cases, neither of the two is a projection
  | _ => exact ⟨rfl, .of_rewrite (by constructor; assumption)⟩

theorem Rearranged.splitProjection (h : Rearranged p q) :
    p.splitProjection.1 = q.splitProjection.1 ∧
      Rearranged p.splitProjection.2 q.splitProjection.2 := by
  induction h with
  | rel p q h => exact h.splitProjection
  | refl p => exact ⟨rfl, .refl _⟩
  | symm p q h ih => exact ⟨ih.1.symm, ih.2.symm⟩
  | trans p q r h h' ih ih' => exact ⟨ih.1.trans ih'.1, ih.2.trans ih'.2⟩

end Pattern

namespace Flattened

open Pattern

variable {p p' : Pattern}

theorem services_of_sameEndpoint {α : Type} {read : Nat → Pattern → Flattened α}
    {l l' : List (String × Pattern)}
    (h : List.Forall₂ (ConjunctiveQuery.SameEndpoint fun p p' => ∀ k, read k p = read k p') l l')
    (k : Nat) : services read k l = services read k l' := by
  induction h generalizing k with
  | nil => rfl
  | @cons e e' l l' he _ ih =>
    obtain ⟨url, body⟩ := e
    obtain ⟨url', body'⟩ := e'
    obtain ⟨hurl, hbody⟩ : url = url' ∧ ∀ k, read k body = read k body' := he
    simp only [services, hurl, hbody, ih]

theorem body_of_sameOutline {read : Nat → Pattern → Flattened (ConjunctiveQuery Term)} {k : Nat}
    (hsteps : Step.SameOutline (p.steps .root k) (p'.steps .root k))
    (hservices : ∀ j, services read j p.endpoints = services read j p'.endpoints)
    (projection : Option (List String)) : body read k projection p = body read k projection p' := by
  simp only [body, endpoints_steps, hservices, hsteps.atoms_eq, hsteps.visible_eq,
    hsteps.findSome?_eq, hsteps.takeWhile.terms_eq, hsteps.takeWhile.scopes_eq]

theorem body_of_rearranged (h : Rearranged p p')
    (hread : ∀ e ∈ p.endpoints, ∀ b', Rearranged e.2 b' → ∀ k, ofPattern k e.2 = ofPattern k b')
    (k : Nat) (projection : Option (List String)) :
    body ofPattern k projection p = body ofPattern k projection p' := by
  refine body_of_sameOutline (h.sameOutline .root k) (services_of_sameEndpoint ?_) projection
  have hboth := (List.forall₂_and_left _ _).2 ⟨hread, Rearranged.sameEndpoints p p' h⟩
  exact hboth.imp fun e e' ⟨hread, hurl, hb⟩ => ⟨hurl, hread e'.2 hb⟩

theorem ofPattern_of_rearranged (k : Nat) (h : Rearranged p p') :
    ofPattern k p = ofPattern k p' := by
  induction p using endpoint_induction generalizing p' k with
  | pattern p ih =>
    obtain ⟨hprojection, hinner⟩ := h.splitProjection
    rw [ofPattern_eq, ofPattern_eq, ← hprojection]
    refine body_of_rearranged hinner (fun e he b' hb j => ?_) k _
    rw [← endpoints_steps _ .root k] at he
    exact ih k e he j hb

theorem ofQuery_of_rearranged (k : Nat) (form : QueryForm) (dataset : Bool)
    (h : Rearranged p p') : ofQuery k ⟨form, p, dataset⟩ = ofQuery k ⟨form, p', dataset⟩ := by
  have hask : ofAsk k p = ofAsk k p' := by
    rw [ofAsk_eq, ofAsk_eq]
    exact body_of_rearranged h (fun e _ b' hb j => ofPattern_of_rearranged j hb) k none
  cases form <;> cases dataset <;>
    simp only [ofQuery, ofPattern_of_rearranged k h, hask]

end Flattened

namespace Naming

open Pattern

/--
Whatever was read before, rearranged patterns are read alike, and so are queries for them: the
outcome is the same, a query with all that is sent to endpoints or a rejection, and so is the table
that is left.
-/
theorem read_rearranged (n : Naming) {p p' : Pattern} (h : Rearranged p p') :
    n.readPattern p = n.readPattern p' ∧
    ∀ form dataset, n.readQuery ⟨form, p, dataset⟩ = n.readQuery ⟨form, p', dataset⟩ := by
  refine ⟨?_, fun form dataset => ?_⟩
  · rw [readPattern, readPattern, Flattened.ofPattern_of_rearranged n.scopes h]
  · rw [readQuery, readQuery, Flattened.ofQuery_of_rearranged n.scopes form dataset h]

/-- A sub-select for a clause, in which two basic patterns are joined. -/
def dividedClause : Pattern :=
  .join (.bgp [⟨.var "x", .iri "p", .var "y"⟩])
    (.project (.service (.iri "e") (.distinct (.join (.bgp [⟨.var "x", .iri "q", .var "z"⟩])
      (.bgp [⟨.var "z", .iri "r", .blank "b"⟩])))) ["x"])

/-- The same sub-select with one basic pattern, the solutions of which are sorted. -/
def undividedClause : Pattern :=
  .join (.bgp [⟨.var "x", .iri "p", .var "y"⟩])
    (.project (.service (.iri "e") (.orderBy (.bgp
      [⟨.var "x", .iri "q", .var "z"⟩, ⟨.var "z", .iri "r", .blank "b"⟩]))) ["x"])

theorem read_rearranged_clause : ∃ s, (empty.readPattern dividedClause).1 = .ok s ∧
    empty.readPattern dividedClause = empty.readPattern undividedClause := by
  have hbody (triples more : List TriplePattern) : Rearranged
      (.distinct (.join (.bgp triples) (.bgp more))) (.orderBy (.bgp (triples ++ more))) :=
    (Rearranged.of_rewrite (.distinct_elim _)).trans
      ((Rearranged.of_rewrite (.bgp_append _ _)).trans
        (Rearranged.of_rewrite (.orderBy_elim _)).symm)
  have hclause := (hbody [⟨.var "x", .iri "q", .var "z"⟩] [⟨.var "z", .iri "r", .blank "b"⟩]).lift
    fun _ _ h => Rewrite.service (.iri "e") h
  have hproject := hclause.lift fun _ _ h => Rewrite.project h ["x"]
  have h : Rearranged dividedClause undividedClause := (Rearranged.refl _).join hproject
  exact ⟨_, rfl, (read_rearranged empty h).1⟩

end Naming

end QueryContainment
