import QueryContainment.Proofs.Conjunctive.Endpoints

namespace QueryContainment

open Naming

variable {d k : Nat}

namespace Term

open Classical in
/-- Hides a variable in a scope that is opened `d` scopes later, if it is hidden in some scope. -/
noncomputable def later (d : Nat) : Term → Term
  | .var name =>
    if h : ∃ hidden : String × Nat, name = scopedName hidden.1 (scopeName hidden.2) then
      .var (scopedName h.choose.1 (scopeName (h.choose.2 + d)))
    else .var name
  | t => t

theorem later_scoped (d : Nat) (x : String) (j : Nat) :
    later d (.var (scopedName x (scopeName j))) = .var (scopedName x (scopeName (j + d))) := by
  have hex : ∃ hidden : String × Nat,
      scopedName x (scopeName j) = scopedName hidden.1 (scopeName hidden.2) := ⟨(x, j), rfl⟩
  obtain ⟨hname, hscope⟩ := scopedName_inj hex.choose_spec
  rw [later, dif_pos hex, ← hname, ← hscope]

theorem later_of_not_scoped {name : String} (h : ∀ x j, name ≠ scopedName x (scopeName j)) :
    later d (.var name) = .var name := by
  rw [later, dif_neg]
  rintro ⟨hidden, he⟩
  exact h _ _ he

theorem later_of_plain {x : String} (h : '#' ∉ x.toList) : later d (.var x) = .var x :=
  later_of_not_scoped fun y _ => ne_scopedName h y _

theorem later_of_ne_var {t : Term} (h : ∀ x, t ≠ .var x) : later d t = t := by
  cases t with
  | var name => exact absurd rfl (h name)
  | _ => rfl

theorem exists_later_var (d : Nat) (name : String) : ∃ name', later d (.var name) = .var name' := by
  by_cases h : ∃ x j, name = scopedName x (scopeName j)
  · obtain ⟨x, j, rfl⟩ := h
    exact ⟨_, later_scoped d x j⟩
  · exact ⟨name, later_of_not_scoped fun x j he => h ⟨x, j, he⟩⟩

theorem kindOf_later (d : Nat) (t : Term) : kindOf (later d t) = kindOf t := by
  cases t with
  | var name =>
    obtain ⟨name', h⟩ := exists_later_var d name
    rw [h]
    rfl
  | _ => rfl

/-- The scopes of different variables that are hidden stay different. -/
theorem later_injective (d : Nat) : Function.Injective (later d) := by
  intro t u h
  have hvar (name : String) : (∃ x j, name = scopedName x (scopeName j)) ∨
      ∀ x j, name ≠ scopedName x (scopeName j) := by
    by_cases hex : ∃ x j, name = scopedName x (scopeName j)
    · exact .inl hex
    · exact .inr fun x j he => hex ⟨x, j, he⟩
  cases t with
  | var name =>
    cases u with
    | var name' =>
      rcases hvar name with ⟨x, j, rfl⟩ | hname
      · rw [later_scoped] at h
        rcases hvar name' with ⟨y, k, rfl⟩ | hname'
        · rw [later_scoped, var.injEq] at h
          obtain ⟨rfl, hscope⟩ := scopedName_inj h
          obtain rfl : j = k := Nat.add_right_cancel hscope
          rfl
        · rw [later_of_not_scoped hname', var.injEq] at h
          exact absurd h.symm (hname' _ _)
      · rw [later_of_not_scoped hname] at h
        rcases hvar name' with ⟨y, k, rfl⟩ | hname'
        · rw [later_scoped, var.injEq] at h
          exact absurd h (hname _ _)
        · rwa [later_of_not_scoped hname'] at h
    | _ =>
      obtain ⟨name', he⟩ := exists_later_var d name
      rw [he] at h
      cases h
  | _ =>
    cases u with
    | var name' =>
      obtain ⟨name, he⟩ := exists_later_var d name'
      rw [he] at h
      cases h
    | _ => exact h

end Term

/-- The same place, where the scopes of the sub-selects are opened later. -/
def Context.later (d : Nat) (c : Context) : Context :=
  { c with subSelects := c.subSelects.map fun s => { s with scope := s.scope + d } }

theorem Context.hiddenIn_later (d : Nat) (c : Context) (x : String) :
    (c.later d).hiddenIn x = (c.hiddenIn x).map (· + d) := by
  simp only [hiddenIn, later, List.find?_map, Option.map_map, Function.comp_def]

theorem Context.rename_later (d : Nat) (c : Context) {t : Term}
    (ht : ∀ x, t = .var x → '#' ∉ x.toList) : (c.later d).rename t = (c.rename t).later d := by
  cases t with
  | var x =>
    simp only [rename, hiddenIn_later]
    cases c.hiddenIn x with
    | none => exact (Term.later_of_plain (ht x rfl)).symm
    | some j => exact (Term.later_scoped d x j).symm
  | _ => rfl

namespace Step

/-- The same step, where the scopes are opened later. -/
noncomputable def later (d : Nat) : Step → Step
  | atom a visible => .atom (a.map (Term.later d)) visible
  | s => s

theorem terms_later (d : Nat) (s : Step) : (s.later d).terms = s.terms.map (Term.later d) := by
  cases s with
  | atom a visible => exact Atom.toList_map _ a
  | _ => rfl

theorem rejection?_later (d : Nat) (s : Step) : (s.later d).rejection? = s.rejection? := by
  cases s <;> rfl

theorem visible_later (d : Nat) (s : Step) : (s.later d).visible = s.visible := by
  cases s <;> rfl

theorem clause?_later (d : Nat) (s : Step) : (s.later d).clause? = s.clause? := by
  cases s <;> rfl

theorem atom?_later (d : Nat) (s : Step) :
    (s.later d).atom? = s.atom?.map (·.map (Term.later d)) := by
  cases s <;> rfl

theorem scopes_later (d : Nat) (steps : List Step) :
    scopes (steps.map (later d)) = scopes steps := by
  have hscope : isNewScope ∘ later d = isNewScope := by
    funext s
    cases s <;> rfl
  rw [scopes, List.countP_map, hscope, scopes]

theorem ofTriple_later (d : Nat) (c : Context) {t : TriplePattern}
    (ht : ∀ x ∈ t.vars, '#' ∉ x.toList) : ofTriple (c.later d) t = (ofTriple c t).later d := by
  have hnone : (fun x => ((c.later d).hiddenIn x).isNone) = fun x => (c.hiddenIn x).isNone := by
    funext x
    rw [Context.hiddenIn_later, Option.isNone_map]
  unfold ofTriple
  cases hterms : t.terms with
  | error reason => rfl
  | ok terms =>
    have hplace (u : Term) (hu : u ∈ terms.toList) :
        (c.later d).rename u = (c.rename u).later d :=
      c.rename_later d fun x hx => ht x ((TriplePattern.mem_of_terms hterms hu).1 x hx)
    have hgraph : (c.graph.map Term.iri).map (Term.later d) = c.graph.map Term.iri := by
      cases c.graph <;> rfl
    simp only [later, hnone, Triple.map, Atom.map, hgraph,
      hplace terms.subject (by simp [Triple.toList]),
      hplace terms.predicate (by simp [Triple.toList]),
      hplace terms.object (by simp [Triple.toList])]
    rfl

end Step

theorem Pattern.steps_later (d : Nat) {p : Pattern} (hn : p.PlainNames) (c : Context) (k : Nat) :
    p.steps (c.later d) (k + d) = (p.steps c k).map (Step.later d) := by
  induction p generalizing c k with
  | bgp triples =>
    simp only [steps, List.map_map]
    refine List.map_congr_left fun t ht => ?_
    exact Step.ofTriple_later d c fun x hx =>
      hn triples (by simp) x (List.mem_flatMap.2 ⟨t, ht, hx⟩)
  | join left right ihl ihr =>
    have hscopes : k + d + Step.scopes (left.steps c k) = k + Step.scopes (left.steps c k) + d := by
      omega
    simp only [steps, List.map_append]
    rw [ihl hn.of_join.1, Step.scopes_later, hscopes, ihr hn.of_join.2]
  | distinct inner ih => exact ih hn c k
  | reduced inner ih => exact ih hn c k
  | orderBy inner ih => exact ih hn c k
  | project inner names ih =>
    have hscope : k + d + 1 = k + 1 + d := by omega
    simp only [steps, List.map_cons, hscope]
    exact congrArg _ (ih hn { c with subSelects := ⟨k, names⟩ :: c.subSelects } (k + 1))
  | service name inner ih =>
    cases name with
    | var name => rfl
    | iri url =>
      simp only [steps, List.map_cons]
      exact congrArg _ (ih hn { c with graph := some url } k)
  | _ => rfl

namespace Flattened

/-- The same outcome, where the scopes are opened later. -/
noncomputable def later (d : Nat) (f : Flattened (ConjunctiveQuery Term)) :
    Flattened (ConjunctiveQuery Term) :=
  ⟨f.terms.map (Term.later d), f.scopes, f.result.map (·.map (Term.later d))⟩

theorem endpoints_later (d : Nat) (steps : List Step) :
    endpoints (steps.map (Step.later d)) = endpoints steps := by
  have hclause : Step.clause? ∘ Step.later d = Step.clause? := funext (Step.clause?_later d)
  rw [endpoints, List.filterMap_map, hclause, endpoints]

theorem services_later {read : Nat → Pattern → Flattened (ConjunctiveQuery Term)}
    {l : List (String × Pattern)} (h : ∀ e ∈ l, ∀ k, read (k + d) e.2 = (read k e.2).later d)
    (k : Nat) : services read (k + d) l = ⟨(services read k l).terms.map (Term.later d),
      (services read k l).scopes,
      (services read k l).result.map (ConjunctiveQuery.mapServices (Term.later d))⟩ := by
  induction l generalizing k with
  | nil => rfl
  | cons e l ih =>
    obtain ⟨url, body⟩ := e
    have hfirst : read (k + d) body = (read k body).later d := h _ List.mem_cons_self k
    simp only [services, hfirst, later]
    cases hr : (read k body).result with
    | error reason => rfl
    | ok q =>
      have hscopes : k + d + (read k body).scopes = k + (read k body).scopes + d := by omega
      simp only [Except.map, hscopes, List.map_append,
        ih (fun e he => h e (List.mem_cons_of_mem _ he)) (k + (read k body).scopes)]
      cases (services read (k + (read k body).scopes) l).result <;> rfl

theorem body_later {read : Nat → Pattern → Flattened (ConjunctiveQuery Term)} {p : Pattern}
    (hn : p.PlainNames)
    (h : ∀ e ∈ endpoints (p.steps .root k), ∀ j, read (j + d) e.2 = (read j e.2).later d)
    (projection : Option (List String)) :
    body read (k + d) projection p = (body read k projection p).later d := by
  have hsteps : p.steps .root (k + d) = (p.steps .root k).map (Step.later d) :=
    p.steps_later d hn .root k
  have hrejected : Step.rejection? ∘ Step.later d = Step.rejection? :=
    funext (Step.rejection?_later d)
  have hdone : ((p.steps .root k).map (Step.later d)).takeWhile (·.rejection?.isNone) =
      ((p.steps .root k).takeWhile (·.rejection?.isNone)).map (Step.later d) := by
    simp only [List.takeWhile_map, Function.comp_def, Step.rejection?_later]
  have hterms (steps : List Step) : (steps.map (Step.later d)).flatMap Step.terms =
      (steps.flatMap Step.terms).map (Term.later d) := by
    simp only [List.flatMap_map, List.map_flatMap, Step.terms_later]
  have hvisible (steps : List Step) : (steps.map (Step.later d)).flatMap Step.visible =
      steps.flatMap Step.visible := by
    simp only [List.flatMap_map, Step.visible_later]
  have hatoms (steps : List Step) : (steps.map (Step.later d)).filterMap Step.atom? =
      (steps.filterMap Step.atom?).map (·.map (Term.later d)) := by
    simp only [List.filterMap_map, List.map_filterMap, Function.comp_def, Step.atom?_later]
  have hscopes (j : Nat) : k + d + j = k + j + d := by omega
  simp only [body, hsteps, hdone, List.findSome?_map, hrejected]
  cases (p.steps .root k).findSome? Step.rejection? with
  | some reason => simp only [later, hterms, Step.scopes_later, Except.map]
  | none =>
    simp only [endpoints_later, Step.scopes_later, hscopes, services_later h, later, hterms,
      hvisible, hatoms, List.map_append]
    cases (services read (k + Step.scopes ((p.steps .root k).takeWhile (·.rejection?.isNone)))
        (endpoints (p.steps .root k))).result <;> rfl

theorem ofPattern_later (d k : Nat) {p : Pattern} (hn : p.PlainNames) :
    ofPattern (k + d) p = (ofPattern k p).later d := by
  induction p using endpoint_induction generalizing k with
  | pattern p ih =>
    have hinner : p.splitProjection.2.PlainNames := hn.splitProjection
    rw [ofPattern_eq, ofPattern_eq]
    exact body_later hinner (fun e he j => ih k e he j (hinner.of_mem_endpoints he)) _

/-- A query that is read in later scopes is the same, but for its hidden variables. -/
theorem ofQuery_later (d k : Nat) {q : Query} (hn : q.pattern.PlainNames) :
    ofQuery (k + d) q = (ofQuery k q).later d := by
  unfold ofQuery
  split
  · exact ofPattern_later d k hn
  · rw [ofAsk_eq, ofAsk_eq]
    exact body_later hn (fun e he j => ofPattern_later d j (hn.of_mem_endpoints he)) none
  all_goals rfl

end Flattened

end QueryContainment
