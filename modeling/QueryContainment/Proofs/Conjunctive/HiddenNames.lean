import QueryContainment.Proofs.Conjunctive.Alike
import QueryContainment.Proofs.Conjunctive.Throughout

namespace QueryContainment

open Naming ConjunctiveQuery

variable {x z : String}

def renameVar (x z name : String) : String := if name = x then z else name

theorem renameVar_of_ne {name : String} (h : name ≠ x) : renameVar x z name = name := if_neg h

theorem renameVar_self : renameVar x z x = z := if_pos rfl

theorem renameVar_inj {l : List String} (hz : z ∉ l) {a b : String} (ha : a ∈ l) (hb : b ∈ l)
    (h : renameVar x z a = renameVar x z b) : a = b := by
  by_cases hax : a = x <;> by_cases hbx : b = x
  · rw [hax, hbx]
  · rw [hax, renameVar_self, renameVar_of_ne hbx] at h
    exact absurd (h ▸ hb) hz
  · rw [hbx, renameVar_self, renameVar_of_ne hax] at h
    exact absurd (h ▸ ha) hz
  · rwa [renameVar_of_ne hax, renameVar_of_ne hbx] at h

theorem renameVar_mem_iff {l : List String} (hz : z ∉ l) {name : String} (hx : x ∉ l) :
    renameVar x z name ∈ l ↔ name ∈ l := by
  by_cases hname : name = x
  · rw [hname, renameVar_self]
    exact iff_of_false hz hx
  · rw [renameVar_of_ne hname]

namespace Pattern

variable {p p' : Pattern}

section

variable (x z : String)

/-- Some sub-selects that do not list `x` have it renamed to `z`. -/
inductive RenamesHidden : Pattern → Pattern → Prop
  | refl (p : Pattern) : RenamesHidden p p
  | subSelect (inner : Pattern) {names : List String} (hx : x ∉ names) :
    RenamesHidden (project inner names) (project (inner.rename (renameVar x z)) names)
  | join {left left' right right' : Pattern} (hleft : RenamesHidden left left')
    (hright : RenamesHidden right right') : RenamesHidden (join left right) (join left' right')
  | distinct {p p' : Pattern} (h : RenamesHidden p p') : RenamesHidden (distinct p) (distinct p')
  | reduced {p p' : Pattern} (h : RenamesHidden p p') : RenamesHidden (reduced p) (reduced p')
  | orderBy {p p' : Pattern} (h : RenamesHidden p p') : RenamesHidden (orderBy p) (orderBy p')
  | project {p p' : Pattern} (vars : List String) (h : RenamesHidden p p') :
    RenamesHidden (project p vars) (project p' vars)
  | service {p p' : Pattern} (url : String) (h : RenamesHidden p p') :
    RenamesHidden (service (.iri url) p) (service (.iri url) p')

/-- What is joined for an endpoint: clauses in which all is renamed, or hidden names are. -/
inductive RenamesBodies : Pattern → Pattern → Prop
  | all (p : Pattern) : RenamesBodies p (p.rename (renameVar x z))
  | hidden {p p' : Pattern} (h : RenamesHidden x z p p') : RenamesBodies p p'
  | join {left left' right right' : Pattern} (hleft : RenamesBodies left left')
    (hright : RenamesBodies right right') : RenamesBodies (join left right) (join left' right')

end

theorem clauses_rename (σ : String → String) (p : Pattern) :
    (p.rename σ).clauses = p.clauses.map fun e => (e.1, e.2.rename σ) := by
  induction p with
  | bgp triples => rw [rename, clauses_bgp, clauses_bgp, List.map_nil]
  | join left right ihl ihr =>
    rw [rename, clauses_join, clauses_join, ihl, ihr, List.map_append]
  | distinct inner ih => exact ih
  | reduced inner ih => exact ih
  | orderBy inner ih => exact ih
  | project inner names ih =>
    rw [rename, clauses_project, clauses_project, ih]
  | service name inner ih =>
    cases name with
    | var name => rfl
    | iri url =>
      rw [rename, IriOrVar.rename, clauses_service, clauses_service, ih, List.map_cons]
  | _ => rfl

theorem mem_names_of_mem_clauses {e : String × Pattern} (he : e ∈ p.clauses) {y : String}
    (hy : y ∈ e.2.names) : y ∈ p.names := by
  induction p with
  | bgp triples => simp [clauses_bgp] at he
  | join left right ihl ihr =>
    rw [clauses_join] at he
    rcases List.mem_append.1 he with he | he
    · exact List.mem_append_left _ (ihl he)
    · exact List.mem_append_right _ (ihr he)
  | distinct inner ih => exact ih he
  | reduced inner ih => exact ih he
  | orderBy inner ih => exact ih he
  | project inner names ih =>
    rw [clauses_project] at he
    exact List.mem_append_right _ (ih he)
  | service name inner ih =>
    cases name with
    | var name => simp [clauses, steps, Step.clause?] at he
    | iri url =>
      rw [clauses_service] at he
      rcases List.mem_cons.1 he with rfl | he
      · exact List.mem_append_right _ hy
      · exact List.mem_append_right _ (ih he)
  | _ => simp [clauses, steps, Step.clause?] at he

theorem mem_names_of_mem_endpoints {e : String × Pattern} (he : e ∈ p.endpoints) {y : String}
    (hy : y ∈ e.2.names) : y ∈ p.names := by
  refine Flattened.forall_endpoints (P := fun b => ∀ y ∈ b.names, y ∈ p.names)
    (fun left right hl hr y hy => ?_) (fun url b hb y => ?_) e he y hy
  · exact (List.mem_append.1 hy).elim (hl y) (hr y)
  · exact mem_names_of_mem_clauses (mem_clauses.2 hb)

theorem mem_names_of_mem_splitProjection {y : String}
    (h : y ∈ p.splitProjection.1.getD [] ∨ y ∈ p.splitProjection.2.names) : y ∈ p.names := by
  fun_induction Pattern.splitProjection p with
  | case1 inner ih => exact ih h
  | case2 inner ih => exact ih h
  | case3 inner ih => exact ih h
  | case4 inner names => exact List.mem_append.2 h
  | case5 p => simpa using h

theorem RenamesHidden.forall₂_clauses (h : RenamesHidden x z p p') :
    List.Forall₂ (SameEndpoint (RenamesBodies x z)) p.clauses p'.clauses := by
  induction h with
  | refl p => exact List.forall₂_same.2 fun e _ => ⟨rfl, .hidden (.refl e.2)⟩
  | subSelect inner hx =>
    rw [clauses_project, clauses_project, clauses_rename, List.forall₂_map_right_iff]
    exact List.forall₂_same.2 fun e _ => ⟨rfl, .all e.2⟩
  | join _ _ ihl ihr =>
    rw [clauses_join, clauses_join]
    exact List.rel_append ihl ihr
  | distinct _ ih => exact ih
  | reduced _ ih => exact ih
  | orderBy _ ih => exact ih
  | project vars _ ih =>
    rw [clauses_project, clauses_project]
    exact ih
  | service url h ih =>
    rw [clauses_service, clauses_service]
    exact .cons ⟨rfl, .hidden h⟩ ih

theorem RenamesBodies.forall₂_clauses (h : RenamesBodies x z p p') :
    List.Forall₂ (SameEndpoint (RenamesBodies x z)) p.clauses p'.clauses := by
  induction h with
  | all p =>
    rw [clauses_rename, List.forall₂_map_right_iff]
    exact List.forall₂_same.2 fun e _ => ⟨rfl, .all e.2⟩
  | hidden h => exact h.forall₂_clauses
  | join _ _ ihl ihr =>
    rw [clauses_join, clauses_join]
    exact List.rel_append ihl ihr

theorem holdsOfEndpoints_renamesBodies : HoldsOfEndpoints (RenamesBodies x z) :=
  fun _ _ h => forall₂_endpoints (fun _ _ _ _ => .join) h.forall₂_clauses

theorem alike_renameVar (hp : p.Readable) (hz : z ∉ p.names) :
    Alike (renameVar x z) p (p.rename (renameVar x z)) :=
  alike_rename hp fun _ ha _ hb => renameVar_inj hz ha hb

/-- Outside the sub-selects, the variables keep their names. -/
theorem RenamesHidden.alike (h : RenamesHidden x z p p') (hp : p.Readable) (hz : z ∉ p.names) :
    Alike id p p' := by
  induction h with
  | refl p => exact hp.alike
  | @subSelect inner names hx =>
    obtain ⟨hnames, hinner⟩ := not_or.1 (fun h => hz (List.mem_append.2 h))
    refine .project (alike_renameVar (readable_project.1 hp) hinner) (fun y _ hy => ?_)
      (fun y _ hy => ?_) fun a ha b hb => ?_
    · have hne : y ≠ x := fun heq => hx (heq ▸ hy)
      rw [renameVar_of_ne hne]
      exact ⟨rfl, hy⟩
    · rwa [renameVar_mem_iff hnames hx]
    · exact renameVar_inj hinner (mem_names_of_mem_bound ha) (mem_names_of_mem_bound hb)
  | join _ _ ihl ihr =>
    obtain ⟨hl, hr⟩ := readable_join.1 hp
    obtain ⟨hzl, hzr⟩ := not_or.1 (fun h => hz (List.mem_append.2 h))
    exact .join (ihl hl hzl) (ihr hr hzr)
  | distinct _ ih => exact .distinct (ih (readable_distinct.1 hp) hz)
  | reduced _ ih => exact .reduced (ih (readable_reduced.1 hp) hz)
  | orderBy _ ih => exact .orderBy (ih (readable_orderBy.1 hp) hz)
  | project vars _ ih =>
    have hinner := ih (readable_project.1 hp) fun h => hz (List.mem_append_right _ h)
    exact .project hinner (fun _ _ hy => ⟨rfl, hy⟩) (fun _ _ hy => hy) fun _ _ _ _ => id
  | service url _ ih =>
    exact .service url (ih (readable_service.1 hp) fun h => hz (List.mem_append_right _ h))

theorem alike_id_iff (hx : x ∉ p.bound) : Alike (renameVar x z) p p' ↔ Alike id p p' := by
  have hsame : ∀ y ∈ p.bound, renameVar x z y = id y :=
    fun y hy => renameVar_of_ne fun heq => hx (heq ▸ hy)
  exact ⟨fun h => h.congr hsame, fun h => h.congr fun y hy => (hsame y hy).symm⟩

/-- A join is renamed one to one, unless both names are visible in it. -/
theorem RenamesBodies.alike (h : RenamesBodies x z p p') (hp : p.Readable) (hz : z ∉ p.names) :
    Alike (renameVar x z) p p' ∨ Alike id p p' ∨ (x ∈ p'.bound ∧ z ∈ p'.bound) := by
  induction h with
  | all p => exact .inl (alike_renameVar hp hz)
  | hidden h => exact .inr (.inl (h.alike hp hz))
  | @join left left' right right' _ _ ihl ihr =>
    obtain ⟨hl, hr⟩ := readable_join.1 hp
    obtain ⟨hzl, hzr⟩ := not_or.1 (fun h => hz (List.mem_append.2 h))
    -- where one side has `x` renamed and the other has not, only one of them may bind `x`
    have hclash {a a' b b' : Pattern} (ha : Alike (renameVar x z) a a') (hb : Alike id b b')
        (hxa : x ∈ a.bound) (hxb : x ∈ b.bound) : z ∈ a'.bound ∧ x ∈ b'.bound := by
      rw [ha.bound, hb.bound, List.map_id]
      exact ⟨List.mem_map.2 ⟨x, hxa, renameVar_self⟩, hxb⟩
    rcases ihl hl hzl with hleft | hleft | ⟨hxl, hzl⟩
    · rcases ihr hr hzr with hright | hright | ⟨hxr, hzr⟩
      · exact .inl (.join hleft hright)
      · by_cases hxl : x ∈ left.bound
        · by_cases hxr : x ∈ right.bound
          · obtain ⟨hz', hx'⟩ := hclash hleft hright hxl hxr
            exact .inr (.inr ⟨List.mem_append_right _ hx', List.mem_append_left _ hz'⟩)
          · exact .inl (.join hleft ((alike_id_iff hxr).2 hright))
        · exact .inr (.inl (.join ((alike_id_iff hxl).1 hleft) hright))
      · exact .inr (.inr ⟨List.mem_append_right _ hxr, List.mem_append_right _ hzr⟩)
    · rcases ihr hr hzr with hright | hright | ⟨hxr, hzr⟩
      · by_cases hxr : x ∈ right.bound
        · by_cases hxl : x ∈ left.bound
          · obtain ⟨hz', hx'⟩ := hclash hright hleft hxr hxl
            exact .inr (.inr ⟨List.mem_append_left _ hx', List.mem_append_right _ hz'⟩)
          · exact .inl (.join ((alike_id_iff hxl).2 hleft) hright)
        · exact .inr (.inl (.join hleft ((alike_id_iff hxr).1 hright)))
      · exact .inr (.inl (.join hleft hright))
      · exact .inr (.inr ⟨List.mem_append_right _ hxr, List.mem_append_right _ hzr⟩)
    · exact .inr (.inr ⟨List.mem_append_left _ hxl, List.mem_append_left _ hzl⟩)

/-- Below the final projections the patterns are alike, and the same variables are listed. -/
structure ReadAlike (σ : String → String) (p p' : Pattern) : Prop where
  alike : Alike σ p.splitProjection.2 p'.splitProjection.2
  listed : ∀ y ∈ p.splitProjection.2.bound,
    y ∈ p.splitProjection.1.getD [] ↔ σ y ∈ p'.splitProjection.1.getD []

theorem ReadAlike.of_inner {σ : String → String} {inner inner' : Pattern}
    (h : ReadAlike σ inner inner') (hp : p.splitProjection = inner.splitProjection)
    (hp' : p'.splitProjection = inner'.splitProjection) : ReadAlike σ p p' := by
  obtain ⟨halike, hlisted⟩ := h
  rw [← hp, ← hp'] at halike hlisted
  exact ⟨halike, hlisted⟩

theorem RenamesHidden.readAlike (h : RenamesHidden x z p p') (hp : p.Readable) (hz : z ∉ p.names) :
    ReadAlike (renameVar x z) p p' ∨ ReadAlike id p p' := by
  induction h with
  | refl p => exact .inr ⟨(readable_splitProjection.2 hp).alike, fun _ _ => Iff.rfl⟩
  | @subSelect inner names hx =>
    obtain ⟨hnames, hinner⟩ := not_or.1 (fun h => hz (List.mem_append.2 h))
    exact .inl ⟨alike_renameVar (readable_project.1 hp) hinner,
      fun y _ => (renameVar_mem_iff hnames hx).symm⟩
  | join hleft hright =>
    exact .inr ⟨(RenamesHidden.join hleft hright).alike hp hz, fun _ _ => Iff.rfl⟩
  | distinct _ ih =>
    exact (ih (readable_distinct.1 hp) hz).imp (·.of_inner rfl rfl) (·.of_inner rfl rfl)
  | reduced _ ih =>
    exact (ih (readable_reduced.1 hp) hz).imp (·.of_inner rfl rfl) (·.of_inner rfl rfl)
  | orderBy _ ih =>
    exact (ih (readable_orderBy.1 hp) hz).imp (·.of_inner rfl rfl) (·.of_inner rfl rfl)
  | project vars h =>
    exact .inr ⟨h.alike (readable_project.1 hp) fun h => hz (List.mem_append_right _ h),
      fun _ _ => Iff.rfl⟩
  | service url h => exact .inr ⟨(RenamesHidden.service url h).alike hp hz, fun _ _ => Iff.rfl⟩

theorem RenamesBodies.readAlike (h : RenamesBodies x z p p') (hp : p.Readable)
    (hz : z ∉ p.names) : (ReadAlike (renameVar x z) p p' ∨ ReadAlike id p p') ∨
      (p'.splitProjection = (none, p') ∧ x ∈ p'.bound ∧ z ∈ p'.bound) := by
  cases h with
  | all =>
    have hnames : z ∉ p.splitProjection.1.getD [] ++ p.splitProjection.2.names :=
      fun h => hz (mem_names_of_mem_splitProjection (List.mem_append.1 h))
    refine .inl (.inl ⟨?_, fun y hy => ?_⟩)
    · rw [splitProjection_rename]
      exact alike_renameVar (readable_splitProjection.2 hp)
        fun h => hnames (List.mem_append_right _ h)
    · have hlisted : (p.rename (renameVar x z)).splitProjection.1.getD [] =
          (p.splitProjection.1.getD []).map (renameVar x z) := by
        rw [splitProjection_rename]
        cases p.splitProjection.1 <;> rfl
      rw [hlisted]
      refine ⟨List.mem_map_of_mem, fun h => ?_⟩
      obtain ⟨a, ha, heq⟩ := List.mem_map.1 h
      obtain rfl := renameVar_inj hnames (List.mem_append_left _ ha)
        (List.mem_append_right _ (mem_names_of_mem_bound hy)) heq
      exact ha
  | hidden h => exact .inl (h.readAlike hp hz)
  | join hleft hright =>
    rcases (RenamesBodies.join hleft hright).alike hp hz with h | h | h
    · exact .inl (.inl ⟨h, fun _ _ => by simp [splitProjection]⟩)
    · exact .inl (.inr ⟨h, fun _ _ => Iff.rfl⟩)
    · exact .inr ⟨rfl, h⟩

end Pattern

theorem Distinct.ofList_map {α β : Type} [DecidableEq α] [DecidableEq β] {f : α → β} {l : List α}
    (hf : ∀ a ∈ l, ∀ b ∈ l, f a = f b → a = b) : ofList (l.map f) = (ofList l).map f := by
  have hadd (done new : List α) (hf : ∀ a ∈ done ++ new, ∀ b ∈ done ++ new, f a = f b → a = b) :
      addAll (done.map f) (new.map f) = (addAll done new).map f := by
    induction new generalizing done with
    | nil => rfl
    | cons a new ih =>
      have hmem : f a ∈ done.map f ↔ a ∈ done := by
        refine ⟨fun h => ?_, List.mem_map_of_mem⟩
        obtain ⟨b, hb, heq⟩ := List.mem_map.1 h
        obtain rfl := hf b (List.mem_append_left _ hb) a (by simp) heq
        exact hb
      have hfirst : add (done.map f) (f a) = (add done a).map f := by
        simp only [add, hmem]
        split <;> simp
      show addAll (add (done.map f) (f a)) (new.map f) = (addAll (add done a) new).map f
      rw [hfirst]
      refine ih _ fun b hb c hc => hf b ?_ c ?_
      · simpa [mem_add, or_assoc] using hb
      · simpa [mem_add, or_assoc] using hc
  exact hadd [] l hf

namespace ConjunctiveQuery

/-- The variables of the one query are those of the other, renamed by `σ` where they are seen. -/
structure Renamed (σ : String → String) (r r' : ConjunctiveQuery Term) : Prop where
  answer : r'.answer = r.answer.map σ
  other : r'.other = r.other.map σ
  exists_paired : ∃ R, Relator.BiUnique R ∧ (∀ y ∈ r.answer ++ r.other, R y (σ y)) ∧
    List.Forall₂ (Atom.Paired R) r.atoms r'.atoms

/-- Both names are used in the second query, and only one of them in the first one. -/
structure Divided (x z : String) {α β : Type} (r : ConjunctiveQuery α) (r' : ConjunctiveQuery β) :
    Prop where
  unused : z ∉ r.answer ++ r.other
  left : x ∈ r'.other
  right : z ∈ r'.other

end ConjunctiveQuery

namespace Flattened

variable {read read' : Nat → Pattern → Flattened (ConjunctiveQuery Term)} {p p' : Pattern}
  {projection projection' : Option (List String)} {k k' : Nat} {r r' : ConjunctiveQuery Term}
  {σ : String → String}

theorem renamed_of_body (halike : Pattern.Alike σ p p') (hn : p.PlainNames)
    (hn' : ∀ y ∈ p.bound, '#' ∉ (σ y).toList)
    (hσ : ∀ a ∈ p.bound, ∀ b ∈ p.bound, σ a = σ b → a = b)
    (hr : (body read k projection p).result = .ok r)
    (hr' : (body read' k' projection' p').result = .ok r')
    (hlisted : ∀ y ∈ p.bound, y ∈ projection.getD [] ↔ σ y ∈ projection'.getD []) :
    Renamed σ r r' := by
  obtain ⟨hanswer, hother⟩ := body_vars hr
  obtain ⟨hanswer', hother'⟩ := body_vars hr'
  obtain ⟨-, hatoms, -⟩ := body_answers hr
  obtain ⟨-, hatoms', -⟩ := body_answers hr'
  have hcontains (y : String) (hy : y ∈ Distinct.ofList p.bound) :
      (projection'.getD []).contains (σ y) = (projection.getD []).contains y := by
    rw [Bool.eq_iff_iff, List.contains_iff_mem, List.contains_iff_mem]
    exact (hlisted y (Distinct.mem_ofList.1 hy)).symm
  obtain ⟨R, hR, hpairs, hpaired⟩ := halike.exists_pairing_root (readable_of_body hr) hn hn' hσ k k'
  refine ⟨?_, ?_, R, hR, fun y hy => hpairs y ?_, hatoms ▸ hatoms' ▸ hpaired⟩
  · rw [hanswer, hanswer', halike.bound, Distinct.ofList_map hσ, List.filter_map]
    exact congrArg (List.map σ) (List.filter_congr hcontains)
  · rw [hother, hother', halike.bound, Distinct.ofList_map hσ, List.filter_map]
    exact congrArg (List.map σ) (List.filter_congr fun y hy => congrArg not (hcontains y hy))
  · rw [hanswer, hother, List.mem_append, List.mem_filter, List.mem_filter] at hy
    exact Distinct.mem_ofList.1 (hy.elim And.left And.left)

theorem renamed_of_readAlike (h : Pattern.ReadAlike σ p p') (hn : p.PlainNames)
    (hn' : ∀ y ∈ p.splitProjection.2.bound, '#' ∉ (σ y).toList)
    (hσ : ∀ a ∈ p.splitProjection.2.bound, ∀ b ∈ p.splitProjection.2.bound, σ a = σ b → a = b)
    (hr : (ofPattern k p).result = .ok r) (hr' : (ofPattern k' p').result = .ok r') :
    Renamed σ r r' := by
  rw [ofPattern_eq] at hr hr'
  exact renamed_of_body h.alike hn.splitProjection hn' hσ hr hr' h.listed

/-- A pattern whose names have no `#` and leave `z` for a new one. -/
structure Leaves (z : String) (p : Pattern) : Prop where
  plain : p.PlainNames
  fresh : z ∉ p.names

theorem Leaves.of_mem_endpoints {z : String} (h : Leaves z p) {e : String × Pattern}
    (he : e ∈ p.endpoints) : Leaves z e.2 :=
  ⟨h.plain.of_mem_endpoints he, fun hz => h.fresh (Pattern.mem_names_of_mem_endpoints he hz)⟩

theorem Leaves.not_mem_bound {z : String} (h : Leaves z p) : z ∉ p.splitProjection.2.bound :=
  fun hz => h.fresh (Pattern.mem_names_of_mem_splitProjection
    (.inr (Pattern.mem_names_of_mem_bound hz)))

/-- Whether `x` is renamed to `z` or not, different names stay different. -/
theorem Leaves.renamed (h : Leaves z p) (hz : '#' ∉ z.toList)
    (hread : Pattern.ReadAlike (renameVar x z) p p' ∨ Pattern.ReadAlike id p p')
    (hr : (ofPattern k p).result = .ok r) (hr' : (ofPattern k' p').result = .ok r') :
    ∃ σ, Renamed σ r r' := by
  have hplain := h.plain.splitProjection
  rcases hread with hread | hread
  · refine ⟨_, renamed_of_readAlike hread h.plain (fun y hy => ?_)
      (fun a ha b hb => renameVar_inj h.not_mem_bound ha hb) hr hr'⟩
    unfold renameVar
    split
    · exact hz
    · exact hplain.of_mem_bound hy
  · exact ⟨_, renamed_of_readAlike hread h.plain (fun y hy => hplain.of_mem_bound hy)
      (fun _ _ _ _ => id) hr hr'⟩

/-- What an endpoint is sent is renamed one to one, or one variable of it becomes two. -/
theorem renamed_or_divided (h : Pattern.RenamesBodies x z p p') (hp : Leaves z p)
    (hz : '#' ∉ z.toList) (hr : (ofPattern k p).result = .ok r)
    (hr' : (ofPattern k' p').result = .ok r') : (∃ σ, Renamed σ r r') ∨ Divided x z r r' := by
  have hreadable : p.Readable := ofPattern_eq_ok_iff.1 ⟨r, hr⟩
  rcases h.readAlike hreadable hp.fresh with hread | ⟨hnone, hx, hz'⟩
  · exact .inl (hp.renamed hz hread hr hr')
  -- the join has no final projection, so that all that is bound is used
  · rw [ofPattern_eq] at hr hr'
    rw [hnone] at hr'
    obtain ⟨hanswer, hother⟩ := body_vars hr
    obtain ⟨-, hother'⟩ := body_vars hr'
    have hused {y : String} (hy : y ∈ p'.bound) : y ∈ r'.other := by
      rw [hother', List.mem_filter, Distinct.mem_ofList]
      exact ⟨hy, rfl⟩
    refine .inr ⟨fun hmem => hp.not_mem_bound ?_, hused hx, hused hz'⟩
    rw [hanswer, hother, List.mem_append, List.mem_filter, List.mem_filter] at hmem
    exact Distinct.mem_ofList.1 (hmem.elim And.left And.left)

/--
A pattern in which hidden names are renamed is read as well. It is read the same, but for a renaming
of the variables, and so is what its endpoints are sent, at every depth, unless one variable becomes
two.
-/
theorem exists_renamed (h : Pattern.RenamesHidden x z p p') (hp : Leaves z p) (hz : '#' ∉ z.toList)
    (hr : (ofPattern k p).result = .ok r) (k' : Nat) : ∃ r', (ofPattern k' p').result = .ok r' ∧
      (∃ σ, Renamed σ r r') ∧ ThroughoutServices
        (fun r r' => (∃ σ, Renamed σ r r') ∨ Divided x z r r') r.services r'.services := by
  have hreadable : p.Readable := ofPattern_eq_ok_iff.1 ⟨r, hr⟩
  obtain ⟨r', hr'⟩ := exists_ofPattern ((h.alike hreadable hp.fresh).readable hreadable) k'
  have hroot : ∃ σ, Renamed σ r r' :=
    hp.renamed hz (h.readAlike hreadable hp.fresh) hr hr'
  have hbodies := (Pattern.holdsOfEndpoints_renamesBodies (x := x) (z := z)).and
    (Q := Leaves z) fun _ hp _ he => hp.of_mem_endpoints he
  have hread := throughout_ofPattern hbodies ⟨hp, .hidden h⟩ hr hr'
  have hservices := throughoutServices_iff.2 (throughout_iff.1 hread).2
  refine ⟨r', hr', hroot, ThroughoutServices.imp_mem (fun a _ a' _ hpair => ?_) hservices⟩
  obtain ⟨b, b', j, j', ⟨hb, hrenames⟩, hs, hs'⟩ := hpair
  exact renamed_or_divided hrenames hb hz hs hs'

end Flattened

end QueryContainment
