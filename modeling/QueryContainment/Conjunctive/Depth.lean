import QueryContainment.Conjunctive.Flatten

namespace QueryContainment

open Pattern

theorem serviceDepth_of_mem_steps {url : String} {b : Pattern} {p : Pattern} {c : Context} {k : Nat}
    (h : .endpoint url b ∈ p.steps c k) : b.serviceDepth < p.serviceDepth := by
  induction p generalizing c k with
  | bgp triples =>
    obtain ⟨t, -, ht⟩ := List.mem_map.1 h
    unfold Step.ofTriple at ht
    split at ht <;> simp at ht
  | join left right ihl ihr =>
    rcases List.mem_append.1 h with h | h
    · exact Nat.lt_of_lt_of_le (ihl h) (Nat.le_max_left ..)
    · exact Nat.lt_of_lt_of_le (ihr h) (Nat.le_max_right ..)
  | distinct inner ih => exact ih h
  | reduced inner ih => exact ih h
  | orderBy inner ih => exact ih h
  | project inner names ih =>
    simp only [steps, List.mem_cons, reduceCtorEq, false_or] at h
    exact ih h
  | service name inner ih =>
    cases name with
    | var name => simp [steps] at h
    | iri url' =>
      simp only [steps, List.mem_cons, Step.endpoint.injEq] at h
      rcases h with ⟨-, rfl⟩ | h
      · exact Nat.lt_succ_self _
      · exact Nat.lt_succ_of_lt (ih h)
  | _ => simp [steps] at h

namespace Flattened

theorem forall_addClause {P : Pattern → Prop} (hj : ∀ p q, P p → P q → P (.join p q))
    {clause : String × Pattern} {l : List (String × Pattern)} (hc : P clause.2)
    (hl : ∀ e ∈ l, P e.2) : ∀ e ∈ addClause clause l, P e.2 := by
  induction l with
  | nil => simpa [addClause] using hc
  | cons e l ih =>
    obtain ⟨url, joined⟩ := e
    have hfirst : P joined := hl _ List.mem_cons_self
    have hrest := fun e' he' => hl e' (List.mem_cons_of_mem _ he')
    unfold addClause
    split
    · exact List.forall_mem_cons.2 ⟨hj _ _ hfirst hc, hrest⟩
    · exact List.forall_mem_cons.2 ⟨hfirst, ih hrest⟩

/-- What holds of the bodies of all clauses, and of joins, holds of the bodies of the endpoints. -/
theorem forall_endpoints {P : Pattern → Prop} (hj : ∀ p q, P p → P q → P (.join p q))
    {steps : List Step} (hs : ∀ url b, .endpoint url b ∈ steps → P b) :
    ∀ e ∈ endpoints steps, P e.2 := by
  have hc : ∀ c ∈ steps.filterMap Step.clause?, P c.2 := by
    intro c hc
    obtain ⟨s, hmem, hs'⟩ := List.mem_filterMap.1 hc
    cases s with
    | endpoint url b => exact Option.some.inj hs' ▸ hs url b hmem
    | _ => simp [Step.clause?] at hs'
  have hfold (clauses : List (String × Pattern)) (l : List (String × Pattern))
      (hc : ∀ c ∈ clauses, P c.2) (hl : ∀ e ∈ l, P e.2) :
      ∀ e ∈ clauses.foldl (fun l c => addClause c l) l, P e.2 := by
    induction clauses generalizing l with
    | nil => exact hl
    | cons c clauses ih =>
      exact ih _ (fun c' hc' => hc c' (List.mem_cons_of_mem _ hc'))
        (forall_addClause hj (hc c List.mem_cons_self) hl)
  exact hfold _ _ hc (by simp)

/-- The body of an endpoint is nested less deeply than the pattern. -/
theorem serviceDepth_of_mem_endpoints {p : Pattern} {c : Context} {k : Nat}
    {e : String × Pattern} (h : e ∈ endpoints (p.steps c k)) :
    e.2.serviceDepth < p.serviceDepth :=
  forall_endpoints (P := fun b => b.serviceDepth < p.serviceDepth)
    (fun _ _ hp hq => Nat.max_lt.2 ⟨hp, hq⟩) (fun _ _ => serviceDepth_of_mem_steps) e h

theorem services_congr {α : Type} {read read' : Nat → Pattern → Flattened α}
    {l : List (String × Pattern)} (h : ∀ e ∈ l, ∀ k, read k e.2 = read' k e.2) (k : Nat) :
    services read k l = services read' k l := by
  induction l generalizing k with
  | nil => rfl
  | cons e l ih =>
    have hrest := fun k => ih (fun e' he' => h e' (List.mem_cons_of_mem _ he')) k
    simp only [services, h e List.mem_cons_self k, hrest]

theorem body_congr {read read' : Nat → Pattern → Flattened (ConjunctiveQuery Term)} {p : Pattern}
    (h : ∀ b : Pattern, b.serviceDepth < p.serviceDepth → ∀ k, read k b = read' k b) (k : Nat)
    (projection : Option (List String)) : body read k projection p = body read' k projection p := by
  have hs (j : Nat) := services_congr (l := endpoints (p.steps .root k))
    (fun e he => h e.2 (serviceDepth_of_mem_endpoints he)) j
  simp only [body, hs]

theorem serviceDepth_splitProjection (p : Pattern) :
    p.splitProjection.2.serviceDepth = p.serviceDepth := by
  fun_induction splitProjection p <;> simp_all [serviceDepth]

theorem ofDepth_eq (d d' k : Nat) (p : Pattern) (h : p.serviceDepth ≤ d)
    (h' : p.serviceDepth ≤ d') : ofDepth d k p = ofDepth d' k p := by
  induction d generalizing d' k p with
  | zero =>
    cases d' with
    | zero => rfl
    | succ d' =>
      refine body_congr (fun b hb => absurd hb ?_) k _
      rw [serviceDepth_splitProjection]
      omega
  | succ d ih =>
    refine (?_ : body (ofDepth d) k p.splitProjection.1 p.splitProjection.2 = _)
    cases d' with
    | zero =>
      refine body_congr (fun b hb => absurd hb ?_) k _
      rw [serviceDepth_splitProjection]
      omega
    | succ d' =>
      refine body_congr (fun b hb j => ih d' j b ?_ ?_) k _ <;>
        · rw [serviceDepth_splitProjection] at hb
          omega

/-- What holds of a pattern if it holds of the bodies of its endpoints holds of all patterns. -/
@[elab_as_elim]
theorem endpoint_induction {P : Pattern → Prop}
    (pattern : ∀ p, (∀ k, ∀ e ∈ endpoints (p.splitProjection.2.steps .root k), P e.2) → P p)
    (p : Pattern) : P p := by
  induction hd : p.serviceDepth using Nat.strongRecOn generalizing p with
  | ind depth ih =>
    refine pattern p fun k e he => ih _ ?_ e.2 rfl
    rw [← hd, ← serviceDepth_splitProjection p]
    exact serviceDepth_of_mem_endpoints he

/-- The bodies of the endpoints are read as any pattern is. -/
theorem ofPattern_eq (k : Nat) (p : Pattern) :
    ofPattern k p = body ofPattern k p.splitProjection.1 p.splitProjection.2 := by
  rw [ofPattern, ofDepth_eq _ (p.serviceDepth + 1) k p (Nat.le_refl _) (Nat.le_succ _)]
  refine body_congr (fun b hb j => ofDepth_eq _ _ j b ?_ (Nat.le_refl _)) k _
  rw [serviceDepth_splitProjection] at hb
  omega

theorem ofAsk_eq (k : Nat) (p : Pattern) : ofAsk k p = body ofPattern k none p :=
  body_congr (fun b hb j => ofDepth_eq _ _ j b (Nat.le_of_lt hb) (Nat.le_refl _)) k _

end Flattened

end QueryContainment
