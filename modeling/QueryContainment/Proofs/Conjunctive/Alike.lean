import QueryContainment.Proofs.Algebra.Rename
import QueryContainment.Proofs.Conjunctive.Paired
import QueryContainment.Proofs.Conjunctive.Readable

namespace QueryContainment

open Naming

variable {R R' : String → String → Prop} {σ : String → String} {c c' : Context} {k k' : Nat}

/--
A one-to-one relation between variables. The scopes in which they are hidden come before the scopes
`k` and `k'`.
-/
structure Pairing (R : String → String → Prop) (k k' : Nat) : Prop where
  biUnique : Relator.BiUnique R
  left : ∀ x y, R x y → ∀ u j, x = scopedName u (scopeName j) → j < k
  right : ∀ x y, R x y → ∀ u j, y = scopedName u (scopeName j) → j < k'

theorem Pairing.mono (h : Pairing R k k') {j j' : Nat} (hk : k ≤ j) (hk' : k' ≤ j') :
    Pairing R j j' :=
  ⟨h.biUnique, fun x y hxy u i hx => Nat.lt_of_lt_of_le (h.left x y hxy u i hx) hk,
    fun x y hxy u i hy => Nat.lt_of_lt_of_le (h.right x y hxy u i hy) hk'⟩

def hidePairs (R : String → String → Prop) (k k' : Nat) (τ : String → String)
    (hidden : String → Prop) (x y : String) : Prop :=
  R x y ∨ ∃ u, hidden u ∧ x = scopedName u (scopeName k) ∧ y = scopedName (τ u) (scopeName k')

theorem Pairing.hide (h : Pairing R k k') {τ : String → String} {hidden : String → Prop}
    (hτ : ∀ u v, hidden u → hidden v → τ u = τ v → u = v) :
    Pairing (hidePairs R k k' τ hidden) (k + 1) (k' + 1) := by
  refine ⟨⟨fun x x' y hxy hxy' => ?_, fun x y y' hxy hxy' => ?_⟩, fun x y hxy u j hx => ?_,
    fun x y hxy u j hy => ?_⟩
  -- the new pairs are those of new scopes, which no pair of `R` has
  · rcases hxy with hxy | ⟨u, hu, rfl, rfl⟩
    · rcases hxy' with hxy' | ⟨v, -, -, rfl⟩
      · exact h.biUnique.1 hxy hxy'
      · exact absurd (h.right _ _ hxy _ _ rfl) (by omega)
    · rcases hxy' with hxy' | ⟨v, hv, rfl, heq⟩
      · exact absurd (h.right _ _ hxy' _ _ rfl) (by omega)
      · rw [hτ u v hu hv (scopedName_inj heq).1]
  · rcases hxy with hxy | ⟨u, hu, rfl, rfl⟩
    · rcases hxy' with hxy' | ⟨v, -, rfl, -⟩
      · exact h.biUnique.2 hxy hxy'
      · exact absurd (h.left _ _ hxy _ _ rfl) (by omega)
    · rcases hxy' with hxy' | ⟨v, -, heq, rfl⟩
      · exact absurd (h.left _ _ hxy' _ _ rfl) (by omega)
      · rw [(scopedName_inj heq).1]
  · rcases hxy with hxy | ⟨v, -, rfl, -⟩
    · exact Nat.lt_succ_of_lt (h.left x y hxy u j hx)
    · have hscope := (scopedName_inj hx).2
      omega
  · rcases hxy with hxy | ⟨v, -, -, rfl⟩
    · exact Nat.lt_succ_of_lt (h.right x y hxy u j hy)
    · have hscope := (scopedName_inj hy).2
      omega

namespace Pattern

/--
The second pattern is the first one with its variables renamed by `σ`, as far as they are seen from
outside. In a sub-select the hidden variables may be renamed in another way.
-/
inductive Alike : (String → String) → Pattern → Pattern → Prop
  | bgp {σ : String → String} (triples : List TriplePattern) :
    Alike σ (bgp triples) (bgp (triples.map (·.rename σ)))
  | join {σ : String → String} {left left' right right' : Pattern} (hleft : Alike σ left left')
    (hright : Alike σ right right') : Alike σ (join left right) (join left' right')
  | distinct {σ : String → String} {inner inner' : Pattern} (hinner : Alike σ inner inner') :
    Alike σ (distinct inner) (distinct inner')
  | reduced {σ : String → String} {inner inner' : Pattern} (hinner : Alike σ inner inner') :
    Alike σ (reduced inner) (reduced inner')
  | orderBy {σ : String → String} {inner inner' : Pattern} (hinner : Alike σ inner inner') :
    Alike σ (orderBy inner) (orderBy inner')
  | service {σ : String → String} {inner inner' : Pattern} (url : String)
    (hinner : Alike σ inner inner') :
    Alike σ (service (.iri url) inner) (service (.iri url) inner')
  | project {σ τ : String → String} {inner inner' : Pattern} {names names' : List String}
    (hinner : Alike τ inner inner')
    (hlisted : ∀ x ∈ inner.bound, x ∈ names → τ x = σ x ∧ τ x ∈ names')
    (hhidden : ∀ x ∈ inner.bound, x ∉ names → τ x ∉ names')
    (hinjective : ∀ x ∈ inner.bound, ∀ y ∈ inner.bound, τ x = τ y → x = y) :
    Alike σ (project inner names) (project inner' names')
  | nested {σ : String → String} {inner inner' : Pattern} {names' : List String}
    (hinner : Alike σ inner inner') (hlisted : ∀ x ∈ inner.bound, σ x ∈ names') :
    Alike σ inner (project inner' names')

end Pattern

theorem Term.ofPattern_rename {p : PatternTerm} {t : Term} (h : ofPattern p = .ok t) :
    ofPattern (p.rename σ) = .ok (t.rename σ) := by
  rcases ofPattern_eq_ok h with ⟨_, rfl, rfl⟩ | ⟨_, rfl, rfl⟩ | ⟨_, rfl, rfl⟩ | ⟨_, rfl, rfl⟩ <;>
    rfl

theorem Term.ofIriOrVar_rename (p : IriOrVar) :
    ofIriOrVar (p.rename σ) = (ofIriOrVar p).rename σ := by
  cases p <;> rfl

theorem TriplePattern.terms_rename {t : TriplePattern} {terms : Triple Term}
    (h : t.terms = .ok terms) : (t.rename σ).terms = .ok (terms.map (Term.rename σ)) := by
  obtain ⟨hs, hp, ho⟩ := terms_eq_ok h
  simp only [TriplePattern.terms, TriplePattern.rename, Term.ofPattern_rename hs,
    Term.ofPattern_rename ho, Term.ofIriOrVar_rename, bind, Except.bind, pure, Except.pure,
    Triple.map, hp]

theorem Context.paired_rename {t : Term}
    (h : ∀ x, t = .var x → (c.rename (.var x)).Paired R (c'.rename (.var (σ x)))) :
    (c.rename t).Paired R (c'.rename (t.rename σ)) := by
  cases t with
  | iri value => exact .iri value
  | literal value => exact .literal value
  | var x => exact h x rfl
  | blank label => exact .blank label

theorem Step.paired_ofTriple {t : TriplePattern} (h : (ofTriple c t).rejection? = none)
    (hgraph : c'.graph = c.graph)
    (hc : ∀ x ∈ t.vars, (c.rename (.var x)).Paired R (c'.rename (.var (σ x)))) :
    ∃ a a', (ofTriple c t).atom? = some a ∧ (ofTriple c' (t.rename σ)).atom? = some a' ∧
      a.Paired R a' := by
  unfold ofTriple at h ⊢
  cases hterms : t.terms with
  | error reason => simp [hterms, rejection?] at h
  | ok terms =>
    have hplace (u : Term) (hu : u ∈ terms.toList) :
        (c.rename u).Paired R (c'.rename (u.rename σ)) :=
      Context.paired_rename fun x hx => hc x ((TriplePattern.mem_of_terms hterms hu).1 x hx)
    rw [TriplePattern.terms_rename hterms]
    refine ⟨_, _, rfl, rfl, ?_, ?_, ?_, ?_⟩
    · exact hplace _ (by simp [Triple.toList])
    · exact hplace _ (by simp [Triple.toList])
    · exact hplace _ (by simp [Triple.toList])
    · show Option.Rel _ (c.graph.map Term.iri) (c'.graph.map Term.iri)
      rw [hgraph]
      cases c.graph with
      | none => exact .none
      | some url => exact .some (.iri url)

theorem Step.rejection?_rename {t : TriplePattern} (h : (ofTriple c t).rejection? = none) :
    (ofTriple c' (t.rename σ)).rejection? = none := by
  unfold ofTriple at h ⊢
  cases hterms : t.terms with
  | error reason => simp [hterms, rejection?] at h
  | ok terms =>
    rw [TriplePattern.terms_rename hterms]
    rfl

namespace Pattern

variable {p p' : Pattern}

theorem Alike.readable (h : Alike σ p p') (hp : p.Readable) : p'.Readable := by
  induction h with
  | bgp triples =>
    have hnone := hp.accepted .root 0
    refine accepted_steps_iff (c := .root) (k := 0).1 fun s hs => ?_
    simp only [steps, List.map_map] at hs
    obtain ⟨t, ht, rfl⟩ := List.mem_map.1 hs
    exact Step.rejection?_rename (hnone _ (List.mem_map_of_mem ht))
  | join _ _ ihl ihr =>
    obtain ⟨hl, hr⟩ := readable_join.1 hp
    exact readable_join.2 ⟨ihl hl, ihr hr⟩
  | distinct _ ih => exact readable_distinct.2 (ih (readable_distinct.1 hp))
  | reduced _ ih => exact readable_reduced.2 (ih (readable_reduced.1 hp))
  | orderBy _ ih => exact readable_orderBy.2 (ih (readable_orderBy.1 hp))
  | service url _ ih => exact readable_service.2 (ih (readable_service.1 hp))
  | project _ _ _ _ ih => exact readable_project.2 (ih (readable_project.1 hp))
  | nested _ _ ih => exact readable_project.2 (ih hp)

theorem Alike.bound (h : Alike σ p p') : p'.bound = p.bound.map σ := by
  induction h with
  | bgp triples =>
    simp only [Pattern.bound, List.flatMap_map, List.map_flatMap, TriplePattern.vars_rename]
  | join _ _ ihl ihr => simp only [Pattern.bound, ihl, ihr, List.map_append]
  | distinct _ ih => exact ih
  | reduced _ ih => exact ih
  | orderBy _ ih => exact ih
  | service url _ ih => exact ih
  | @project σ τ inner inner' names names' _ hlisted hhidden _ ih =>
    simp only [Pattern.bound, ih, List.filter_map]
    have hfilter : inner.bound.filter ((names'.contains ·) ∘ τ) =
        inner.bound.filter (names.contains ·) := by
      refine List.filter_congr fun x hx => ?_
      by_cases hmem : x ∈ names
      · simp [hmem, (hlisted x hx hmem).2]
      · simp [hmem, hhidden x hx hmem]
    rw [hfilter]
    refine List.map_congr_left fun x hx => ?_
    obtain ⟨hx, hmem⟩ := List.mem_filter.1 hx
    exact (hlisted x hx (List.contains_iff_mem.1 hmem)).1
  | @nested σ inner inner' names' _ hlisted ih =>
    simp only [Pattern.bound, ih, List.filter_map]
    congr 1
    exact List.filter_eq_self.2 fun x hx => List.contains_iff_mem.2 (hlisted x hx)

/-- Which names the variables would get elsewhere does not matter. -/
theorem Alike.congr {τ : String → String} (h : Alike σ p p') (hστ : ∀ x ∈ p.bound, σ x = τ x) :
    Alike τ p p' := by
  induction h generalizing τ with
  | @bgp σ triples =>
    have htriples : triples.map (·.rename σ) = triples.map (·.rename τ) :=
      List.map_congr_left fun t ht => TriplePattern.rename_congr fun x hx =>
        hστ x (List.mem_flatMap.2 ⟨t, ht, hx⟩)
    rw [htriples]
    exact .bgp triples
  | join _ _ ihl ihr =>
    exact .join (ihl fun x hx => hστ x (List.mem_append_left _ hx))
      (ihr fun x hx => hστ x (List.mem_append_right _ hx))
  | distinct _ ih => exact .distinct (ih hστ)
  | reduced _ ih => exact .reduced (ih hστ)
  | orderBy _ ih => exact .orderBy (ih hστ)
  | service url _ ih => exact .service url (ih hστ)
  | project hinner hlisted hhidden hinjective _ =>
    refine .project hinner (fun x hx hmem => ?_) hhidden hinjective
    obtain ⟨heq, hmem'⟩ := hlisted x hx hmem
    exact ⟨heq.trans (hστ x (List.mem_filter.2 ⟨hx, List.contains_iff_mem.2 hmem⟩)), hmem'⟩
  | nested _ hlisted ih => exact .nested (ih hστ) fun x hx => hστ x hx ▸ hlisted x hx

theorem Alike.exists_pairing (h : Alike σ p p') (hp : p.Readable) (hR : Pairing R k k')
    (hgraph : c'.graph = c.graph)
    (hc : ∀ x ∈ p.bound, (c.rename (.var x)).Paired R (c'.rename (.var (σ x)))) :
    ∃ R', (∀ x y, R x y → R' x y) ∧
      Pairing R' (k + Step.scopes (p.steps c k)) (k' + Step.scopes (p'.steps c' k')) ∧
      List.Forall₂ (Atom.Paired R') ((p.steps c k).filterMap Step.atom?)
        ((p'.steps c' k').filterMap Step.atom?) := by
  induction h generalizing R c c' k k' with
  | @bgp σ triples =>
    refine ⟨R, fun _ _ => id, hR.mono (Nat.le_add_right ..) (Nat.le_add_right ..), ?_⟩
    have haccepted := hp.accepted c k
    have hvars (t : TriplePattern) (ht : t ∈ triples) (x : String) (hx : x ∈ t.vars) :=
      hc x (List.mem_flatMap.2 ⟨t, ht, hx⟩)
    simp only [steps, List.map_map, List.filterMap_map] at haccepted ⊢
    clear hp hc
    induction triples with
    | nil => exact .nil
    | cons t triples ih =>
      obtain ⟨a, a', ha, ha', hpaired⟩ := Step.paired_ofTriple (σ := σ)
        (haccepted _ List.mem_cons_self) hgraph (hvars t List.mem_cons_self)
      have hrest := ih (fun s hs => haccepted s (List.mem_cons_of_mem _ hs))
        fun u hu => hvars u (List.mem_cons_of_mem _ hu)
      simp only [List.filterMap_cons, Function.comp_apply, ha, ha']
      exact .cons hpaired hrest
  | @join σ left left' right right' _ _ ihl ihr =>
    obtain ⟨hl, hr⟩ := readable_join.1 hp
    obtain ⟨R₁, hsub₁, hR₁, hatoms₁⟩ := ihl hl hR hgraph fun x hx =>
      hc x (List.mem_append_left _ hx)
    obtain ⟨R₂, hsub₂, hR₂, hatoms₂⟩ := ihr hr hR₁ hgraph fun x hx =>
      (hc x (List.mem_append_right _ hx)).mono hsub₁
    refine ⟨R₂, fun x y hxy => hsub₂ x y (hsub₁ x y hxy), ?_, ?_⟩
    · rw [scopes_steps_join, scopes_steps_join, ← Nat.add_assoc, ← Nat.add_assoc]
      exact hR₂
    · simp only [steps, List.filterMap_append]
      exact List.rel_append (hatoms₁.imp fun _ _ ha => ha.mono hsub₂) hatoms₂
  | distinct _ ih => exact ih (readable_distinct.1 hp) hR hgraph hc
  | reduced _ ih => exact ih (readable_reduced.1 hp) hR hgraph hc
  | orderBy _ ih => exact ih (readable_orderBy.1 hp) hR hgraph hc
  | service url _ ih =>
    obtain ⟨R', hsub, hR', hatoms⟩ := @ih R { c with graph := some url }
      { c' with graph := some url } k k' (readable_service.1 hp) hR rfl hc
    refine ⟨R', hsub, ?_, hatoms⟩
    rw [scopes_steps_service, scopes_steps_service]
    exact hR'
  | @project σ τ inner inner' names names' _ hlisted hhidden hinjective ih =>
    let hidden (x : String) := x ∈ inner.bound ∧ x ∉ names
    have hhide : Pairing (hidePairs R k k' τ hidden) (k + 1) (k' + 1) :=
      hR.hide fun u v hu hv => hinjective u hu.1 v hv.1
    have hplace (x : String) (hx : x ∈ inner.bound) :
        (({ c with subSelects := ⟨k, names⟩ :: c.subSelects } : Context).rename (.var x)).Paired
          (hidePairs R k k' τ hidden)
          (({ c' with subSelects := ⟨k', names'⟩ :: c'.subSelects } : Context).rename
            (.var (τ x))) := by
      by_cases hmem : x ∈ names
      · obtain ⟨heq, hmem'⟩ := hlisted x hx hmem
        rw [Context.rename_cons_of_listed (s := ⟨k, names⟩) hmem,
          Context.rename_cons_of_listed (s := ⟨k', names'⟩) hmem', heq]
        have hbound : x ∈ (Pattern.project inner names).bound :=
          List.mem_filter.2 ⟨hx, List.contains_iff_mem.2 hmem⟩
        exact (hc x hbound).mono fun _ _ => .inl
      · rw [Context.rename_cons_of_not_listed (s := ⟨k, names⟩) hmem,
          Context.rename_cons_of_not_listed (s := ⟨k', names'⟩) (hhidden x hx hmem)]
        exact .var (.inr ⟨x, ⟨hx, hmem⟩, rfl, rfl⟩)
    obtain ⟨R', hsub, hR', hatoms⟩ := @ih _ { c with subSelects := ⟨k, names⟩ :: c.subSelects }
      { c' with subSelects := ⟨k', names'⟩ :: c'.subSelects } (k + 1) (k' + 1)
      (readable_project.1 hp) hhide hgraph hplace
    refine ⟨R', fun x y hxy => hsub x y (.inl hxy), ?_, hatoms⟩
    rw [scopes_steps_project, scopes_steps_project]
    exact hR'.mono (by omega) (by omega)
  | @nested σ inner inner' names' _ hlisted ih =>
    have hplace (x : String) (hx : x ∈ inner.bound) : (c.rename (.var x)).Paired R
        (({ c' with subSelects := ⟨k', names'⟩ :: c'.subSelects } : Context).rename
          (.var (σ x))) := by
      rw [Context.rename_cons_of_listed (s := ⟨k', names'⟩) (hlisted x hx)]
      exact hc x hx
    obtain ⟨R', hsub, hR', hatoms⟩ := @ih R c
      { c' with subSelects := ⟨k', names'⟩ :: c'.subSelects } k (k' + 1) hp
      (hR.mono le_rfl (Nat.le_succ _)) hgraph hplace
    refine ⟨R', hsub, ?_, hatoms⟩
    rw [scopes_steps_project]
    exact hR'.mono le_rfl (by omega)

/-- A renaming under which different variables of a pattern stay different. -/
theorem alike_rename (hp : p.Readable) (hσ : ∀ x ∈ p.names, ∀ y ∈ p.names, σ x = σ y → x = y) :
    Alike σ p (p.rename σ) := by
  induction hp using Readable.induction with
  | bgp triples h => exact .bgp triples
  | join left right hl hr ihl ihr =>
    have hleft := ihl fun x hx y hy =>
      hσ x (List.mem_append_left _ hx) y (List.mem_append_left _ hy)
    have hright := ihr fun x hx y hy =>
      hσ x (List.mem_append_right _ hx) y (List.mem_append_right _ hy)
    exact .join hleft hright
  | distinct inner h ih => exact .distinct (ih hσ)
  | reduced inner h ih => exact .reduced (ih hσ)
  | orderBy inner h ih => exact .orderBy (ih hσ)
  | project inner vars h ih =>
    have hbound (x : String) (hx : x ∈ inner.bound) : x ∈ (project inner vars).names :=
      List.mem_append_right _ (mem_names_of_mem_bound hx)
    have hinner := ih fun x hx y hy =>
      hσ x (List.mem_append_right _ hx) y (List.mem_append_right _ hy)
    refine .project hinner (fun x _ hx => ⟨rfl, List.mem_map_of_mem hx⟩) (fun x hx hmem hx' => ?_)
      fun x hx y hy => hσ x (hbound x hx) y (hbound y hy)
    obtain ⟨y, hy, heq⟩ := List.mem_map.1 hx'
    obtain rfl := hσ y (List.mem_append_left _ hy) x (hbound x hx) heq
    exact hmem hy
  | service url inner h ih => exact .service url (ih hσ)

theorem Readable.alike (hp : p.Readable) : Alike id p p := by
  have h := alike_rename (σ := id) hp fun _ _ _ _ => id
  rwa [rename_id] at h

end Pattern

namespace Pattern

variable {p p' : Pattern}

/-- A final projection is read as any sub-select is, where it is none. -/
theorem steps_of_some {listed : List String} (h : p.splitProjection.1 = some listed) (c : Context)
    (k : Nat) : p.steps c k = (project p.splitProjection.2 listed).steps c k :=
  eq_project_of_some (f := fun p => p.steps c k) (fun _ => ⟨rfl, rfl, rfl⟩) h

theorem steps_of_none (h : p.splitProjection.1 = none) (c : Context) (k : Nat) :
    p.steps c k = p.splitProjection.2.steps c k :=
  eq_of_none (f := fun p => p.steps c k) (fun _ => ⟨rfl, rfl, rfl⟩) h

theorem pairing_root (hn : p.PlainNames) (hn' : ∀ x ∈ p.bound, '#' ∉ (σ x).toList)
    (hσ : ∀ x ∈ p.bound, ∀ y ∈ p.bound, σ x = σ y → x = y) (k k' : Nat) :
    Pairing (fun x y => x ∈ p.bound ∧ y = σ x) k k' := by
  refine ⟨⟨fun x x' y hx hx' => hσ x hx.1 x' hx'.1 (hx.2.symm.trans hx'.2),
    fun x y y' hy hy' => hy.2.trans hy'.2.symm⟩, fun x y hxy u j heq => ?_,
    fun x y hxy u j heq => ?_⟩
  · exact absurd heq (ne_scopedName (hn.of_mem_bound hxy.1) u _)
  · exact absurd (hxy.2.symm.trans heq) (ne_scopedName (hn' x hxy.1) u _)

/-- The atoms of two patterns that are read alike, each of them alone. -/
theorem Alike.exists_pairing_root (h : Alike σ p p') (hp : p.Readable) (hn : p.PlainNames)
    (hn' : ∀ x ∈ p.bound, '#' ∉ (σ x).toList)
    (hσ : ∀ x ∈ p.bound, ∀ y ∈ p.bound, σ x = σ y → x = y) (k k' : Nat) :
    ∃ R, Relator.BiUnique R ∧ (∀ x ∈ p.bound, R x (σ x)) ∧
      List.Forall₂ (Atom.Paired R) ((p.steps .root k).filterMap Step.atom?)
        ((p'.steps .root k').filterMap Step.atom?) := by
  obtain ⟨R, hsub, hR, hatoms⟩ := h.exists_pairing (c := .root) hp (pairing_root hn hn' hσ k k')
    rfl fun x hx => .var ⟨hx, rfl⟩
  exact ⟨R, hR.biUnique, fun x hx => hsub _ _ ⟨hx, rfl⟩, hatoms⟩

/-- What a sub-select does not list is hidden there and the same otherwise. -/
theorem Readable.exists_pairing_project (hp : p.Readable) (hn : p.PlainNames) (k k' : Nat)
    (listed : List String) : ∃ R, Relator.BiUnique R ∧ (∀ x ∈ p.bound, x ∈ listed → R x x) ∧
      List.Forall₂ (Atom.Paired R) ((p.steps .root k).filterMap Step.atom?)
        (((project p listed).steps .root k').filterMap Step.atom?) := by
  let c : Context := { Context.root with subSelects := [⟨k', listed⟩] }
  have hcases (x : String) : c.rename (.var x) =
      .var (if x ∈ listed then x else scopedName x (scopeName k')) := by
    by_cases hx : x ∈ listed
    · rw [if_pos hx]
      exact Context.rename_cons_of_listed (c := .root) (s := ⟨k', listed⟩) hx
    · rw [if_neg hx]
      exact Context.rename_cons_of_not_listed (c := .root) (s := ⟨k', listed⟩) hx
  have hpairing : Pairing (fun x y => x ∈ p.bound ∧ c.rename (.var x) = .var y) k (k' + 1) := by
    simp only [hcases, Term.var.injEq]
    refine ⟨⟨fun x x' y hx hx' => ?_, fun x y y' hy hy' => hy.2.symm.trans hy'.2⟩,
      fun x y hxy u j heq => ?_, fun x y hxy u j heq => ?_⟩
    · obtain ⟨hbound, rfl⟩ := hx
      obtain ⟨hbound', heq⟩ := hx'
      split at heq <;> split at heq
      · exact heq.symm
      · exact absurd heq (ne_scopedName (hn.of_mem_bound hbound') x _)
      · exact absurd heq.symm (ne_scopedName (hn.of_mem_bound hbound) x' _)
      · exact (scopedName_inj heq).1.symm
    · exact absurd heq (ne_scopedName (hn.of_mem_bound hxy.1) u _)
    · obtain ⟨hbound, rfl⟩ := hxy
      split at heq
      · exact absurd heq (ne_scopedName (hn.of_mem_bound hbound) u _)
      · have hscope := (scopedName_inj heq).2
        omega
  obtain ⟨R, hsub, hR, hatoms⟩ := hp.alike.exists_pairing (c := .root) hp hpairing
    (rfl : c.graph = none) fun x hx => by
      show (Term.var x).Paired _ (c.rename (.var x))
      rw [hcases]
      exact .var ⟨hx, hcases x⟩
  refine ⟨R, hR.biUnique, fun x hx hmem => hsub x x ⟨hx, ?_⟩, hatoms⟩
  rw [hcases, if_pos hmem]

end Pattern

namespace Flattened

variable {read read' : Nat → Pattern → Flattened (ConjunctiveQuery Term)} {p p' : Pattern}
  {projection projection' : Option (List String)} {r r' : ConjunctiveQuery Term}

/-- The variables of what is read, in the order in which they occur. -/
theorem body_vars (h : (body read k projection p).result = .ok r) :
    r.answer = (Distinct.ofList p.bound).filter ((projection.getD []).contains ·) ∧
      r.other = (Distinct.ofList p.bound).filter (!(projection.getD []).contains ·) := by
  have haccepted := (body_answers h).1
  obtain ⟨-, services, -, rfl⟩ := body_result h
  rw [Pattern.visible_root haccepted]
  exact ⟨rfl, rfl⟩

theorem body_congr_steps (h : p.steps .root k = p'.steps .root k) :
    body read k projection p = body read k projection p' := by
  simp only [body, h]

/-- Without a final projection, a pattern is read as it stands. -/
theorem ofPattern_of_none (h : p.splitProjection.1 = none) (k : Nat) :
    ofPattern k p = body ofPattern k none p := by
  rw [ofPattern_eq, h]
  exact body_congr_steps (Pattern.steps_of_none h .root k).symm

theorem mem_answer_of_body (halike : Pattern.Alike id p p')
    (hr : (body read k projection p).result = .ok r)
    (hr' : (body read' k' projection' p').result = .ok r')
    (hlisted : ∀ x ∈ p.bound, x ∈ projection.getD [] ↔ x ∈ projection'.getD []) (x : String) :
    x ∈ r.answer ↔ x ∈ r'.answer := by
  have hbound : p'.bound = p.bound := by
    rw [halike.bound, List.map_id]
  rw [(body_answers hr).2.2, (body_answers hr').2.2, hbound]
  exact and_congr_right (hlisted x)

theorem exists_paired_of_body (halike : Pattern.Alike id p p') (hn : p.PlainNames)
    (hr : (body read k projection p).result = .ok r)
    (hr' : (body read' k' projection' p').result = .ok r')
    (hlisted : ∀ x ∈ p.bound, x ∈ projection.getD [] ↔ x ∈ projection'.getD []) :
    ∃ R, r.Paired R r' := by
  obtain ⟨-, hatoms, hanswer⟩ := body_answers hr
  obtain ⟨-, hatoms', -⟩ := body_answers hr'
  obtain ⟨R, hR, hfixed, hpaired⟩ := halike.exists_pairing_root (readable_of_body hr) hn
    (fun x hx => hn.of_mem_bound hx) (fun _ _ _ _ => id) k k'
  exact ⟨R, hR, hatoms ▸ hatoms' ▸ hpaired, mem_answer_of_body halike hr hr' hlisted,
    fun x hx => hfixed x ((hanswer x).1 hx).1⟩

/-- The same variables are in the answers, and queries with plain names are paired. -/
structure PairedIf (plain : Prop) (r r' : ConjunctiveQuery Term) : Prop where
  answer : ∀ x, x ∈ r.answer ↔ x ∈ r'.answer
  paired : plain → ∃ R, r.Paired R r'

theorem pairedIf_of_body {plain : Prop} (halike : Pattern.Alike id p p')
    (hn : plain → p.PlainNames) (hr : (body read k projection p).result = .ok r)
    (hr' : (body read' k' projection' p').result = .ok r')
    (hlisted : ∀ x ∈ p.bound, x ∈ projection.getD [] ↔ x ∈ projection'.getD []) :
    PairedIf plain r r' :=
  ⟨mem_answer_of_body halike hr hr' hlisted,
    fun hplain => exists_paired_of_body halike (hn hplain) hr hr' hlisted⟩

end Flattened

end QueryContainment
