import QueryContainment.Proofs.Conjunctive.Endpoints

namespace QueryContainment

open Naming

namespace Term

/-- If it is a variable, there is no `#` in its name. -/
def Plain (t : Term) : Prop := ∀ x, t = .var x → '#' ∉ x.toList

def HiddenIn (lo hi : Nat) (t : Term) : Prop :=
  ∃ x j, t = .var (scopedName x (scopeName j)) ∧ '#' ∉ x.toList ∧ lo ≤ j ∧ j < hi

def Within (lo hi : Nat) (t : Term) : Prop := t.Plain ∨ t.HiddenIn lo hi

variable {t : Term} {lo hi lo' hi' : Nat}

theorem plain_iri (value : String) : (Term.iri value).Plain := by
  intro x hx
  cases hx

theorem HiddenIn.mono (h : t.HiddenIn lo hi) (hlo : lo' ≤ lo) (hhi : hi ≤ hi') :
    t.HiddenIn lo' hi' := by
  obtain ⟨x, j, rfl, hx, hj, hj'⟩ := h
  exact ⟨x, j, rfl, hx, hlo.trans hj, Nat.lt_of_lt_of_le hj' hhi⟩

theorem Within.mono (h : t.Within lo hi) (hlo : lo' ≤ lo) (hhi : hi ≤ hi') : t.Within lo' hi' :=
  h.imp_right fun h => h.mono hlo hhi

theorem HiddenIn.not_plain (h : t.HiddenIn lo hi) : ¬t.Plain := by
  obtain ⟨x, j, rfl, -⟩ := h
  exact fun hplain => hplain _ rfl (hash_mem_scopedName x (scopeName j))

/-- No variable is hidden in two scopes. -/
theorem HiddenIn.lt_of_hiddenIn (h : t.HiddenIn lo hi) (h' : t.HiddenIn lo' hi') : lo < hi' := by
  obtain ⟨x, j, rfl, -, hj, -⟩ := h
  obtain ⟨y, k, heq, -, -, hk⟩ := h'
  obtain ⟨rfl, rfl⟩ := scopedName_inj (Term.var.inj heq)
  exact Nat.lt_of_le_of_lt hj hk

theorem Plain.within_rename (h : t.Plain) {c : Context}
    (hc : ∀ s ∈ c.subSelects, lo ≤ s.scope ∧ s.scope < hi) : (c.rename t).Within lo hi := by
  cases t with
  | var x =>
    cases hx : c.hiddenIn x with
    | none =>
      rw [Context.rename, hx]
      exact .inl h
    | some j =>
      obtain ⟨s, hs, rfl⟩ := Option.map_eq_some_iff.1 hx
      obtain ⟨hlo, hhi⟩ := hc s (List.mem_of_find?_eq_some hs)
      rw [Context.rename, hx]
      exact .inr ⟨x, s.scope, rfl, h x rfl, hlo, hhi⟩
  | _ => exact .inl h

end Term

namespace Step

variable {lo k : Nat} {l l' : List Step} {c : Context}

def InTurn (lo : Nat) : Nat → List Step → Prop
  | _, [] => True
  | k, s :: rest => (∀ t ∈ s.terms, t.Within lo k) ∧ InTurn lo (k + scopes [s]) rest

theorem scopes_cons (s : Step) (l : List Step) : scopes (s :: l) = scopes [s] + scopes l := by
  rw [scopes, scopes, scopes, ← List.countP_append, List.singleton_append]

theorem InTurn.append (h : InTurn lo k l) (h' : InTurn lo (k + scopes l) l') :
    InTurn lo k (l ++ l') := by
  induction l generalizing k with
  | nil => exact h'
  | cons s l ih =>
    rw [scopes_cons, ← Nat.add_assoc] at h'
    exact ⟨h.1, ih h.2 h'⟩

theorem InTurn.of_append (h : InTurn lo k (l ++ l')) : InTurn lo k l := by
  induction l generalizing k with
  | nil => trivial
  | cons s l ih => exact ⟨h.1, ih h.2⟩

/-- The terms of all steps are hidden in scopes that are open in the end, if they are hidden. -/
theorem InTurn.within (h : InTurn lo k l) : ∀ t ∈ l.flatMap terms, t.Within lo (k + scopes l) := by
  induction l generalizing k with
  | nil => simp
  | cons s l ih =>
    intro t ht
    rw [scopes_cons, ← Nat.add_assoc]
    rcases List.mem_append.1 ht with ht | ht
    · exact (h.1 t ht).mono (Nat.le_refl _) (by omega)
    · exact ih h.2 t ht

theorem within_ofTriple {t : TriplePattern} (ht : ∀ x ∈ t.vars, '#' ∉ x.toList)
    (hc : ∀ s ∈ c.subSelects, lo ≤ s.scope ∧ s.scope < k) :
    ∀ u ∈ (ofTriple c t).terms, u.Within lo k := by
  intro u hu
  unfold ofTriple at hu
  cases hterms : t.terms with
  | error reason => simp [hterms, terms] at hu
  | ok terms =>
    have hplace (v : Term) (hv : v ∈ terms.toList) : (c.rename v).Within lo k :=
      Term.Plain.within_rename
        (fun x hx => ht x ((TriplePattern.mem_of_terms hterms hv).1 x hx)) hc
    simp only [hterms, Step.terms, Atom.mem_toList, Atom.places, List.mem_cons, List.not_mem_nil,
      or_false, Triple.map] at hu
    rcases hu with (rfl | rfl | rfl) | hu
    · exact hplace _ (by simp [Triple.toList])
    · exact hplace _ (by simp [Triple.toList])
    · exact hplace _ (by simp [Triple.toList])
    · obtain ⟨url, -, rfl⟩ := Option.map_eq_some_iff.1 hu
      exact .inl (Term.plain_iri url)

end Step

/-- What a pattern with plain names meets is hidden in scopes that are open by then. -/
theorem Pattern.inTurn_steps {p : Pattern} (hn : p.PlainNames) {c : Context} {lo k : Nat}
    (hc : ∀ s ∈ c.subSelects, lo ≤ s.scope ∧ s.scope < k) (hlo : lo ≤ k) :
    Step.InTurn lo k (p.steps c k) := by
  induction p generalizing c k with
  | bgp triples =>
    have hplain : ∀ t ∈ triples, ∀ x ∈ t.vars, '#' ∉ x.toList := fun t ht x hx =>
      hn triples (by simp) x (List.mem_flatMap.2 ⟨t, ht, hx⟩)
    rw [steps]
    clear hn
    induction triples with
    | nil => trivial
    | cons t triples ih =>
      obtain ⟨hfirst, hrest⟩ := List.forall_mem_cons.1 hplain
      have hscopes : Step.scopes [Step.ofTriple c t] = 0 := by
        unfold Step.ofTriple
        cases t.terms <;> rfl
      refine ⟨Step.within_ofTriple hfirst hc, ?_⟩
      rw [hscopes]
      exact ih hrest
  | join left right ihl ihr =>
    have hleft := ihl hn.of_join.1 hc hlo
    refine hleft.append (ihr hn.of_join.2 (fun s hs => ?_) (by omega))
    obtain ⟨hs, hs'⟩ := hc s hs
    exact ⟨hs, by omega⟩
  | distinct inner ih => exact ih hn hc hlo
  | reduced inner ih => exact ih hn hc hlo
  | orderBy inner ih => exact ih hn hc hlo
  | project inner names ih =>
    refine ⟨by simp [Step.terms], ih hn (List.forall_mem_cons.2 ⟨⟨hlo, ?_⟩, fun s hs => ?_⟩) ?_⟩
    · exact Nat.lt_succ_self k
    · obtain ⟨hs, hs'⟩ := hc s hs
      exact ⟨hs, Nat.lt_succ_of_lt hs'⟩
    · exact Nat.le_succ_of_le hlo
  | service name inner ih =>
    cases name with
    | var name => exact ⟨by simp [Step.terms], trivial⟩
    | iri url =>
      refine ⟨?_, ih (c := { c with graph := some url }) hn hc hlo⟩
      intro t ht
      obtain rfl := List.mem_singleton.1 ht
      exact .inl (Term.plain_iri url)
  | _ => exact ⟨by simp [Step.terms], trivial⟩

namespace Flattened

variable {α : Type} {read : Nat → Pattern → Flattened (ConjunctiveQuery Term)} {p : Pattern}

def Within (k : Nat) (f : Flattened α) : Prop := ∀ t ∈ f.terms, t.Within k (k + f.scopes)

theorem within_services {l : List (String × Pattern)}
    (h : ∀ e ∈ l, ∀ j, (read j e.2).Within j) (k : Nat) : (services read k l).Within k := by
  induction l generalizing k with
  | nil => simp [Within, services]
  | cons e l ih =>
    obtain ⟨url, body⟩ := e
    have hfirst : (read k body).Within k := h _ List.mem_cons_self k
    have hothers := ih (fun e he => h e (List.mem_cons_of_mem _ he)) (k + (read k body).scopes)
    simp only [services]
    cases hr : (read k body).result with
    | error reason => exact hfirst
    | ok q =>
      intro t ht
      rcases List.mem_append.1 ht with ht | ht
      · exact (hfirst t ht).mono (Nat.le_refl _) (by dsimp only; omega)
      · exact (hothers t ht).mono (Nat.le_add_right _ _) (by dsimp only; omega)

theorem within_body (hn : p.PlainNames) {k : Nat}
    (h : ∀ e ∈ endpoints (p.steps .root k), ∀ j, (read j e.2).Within j)
    (projection : Option (List String)) : (body read k projection p).Within k := by
  have hsteps : Step.InTurn k k (p.steps .root k) :=
    Pattern.inTurn_steps hn (by simp [Context.root]) (Nat.le_refl k)
  cases hr : (p.steps .root k).findSome? Step.rejection? with
  | some reason =>
    have hdone : Step.InTurn k k ((p.steps .root k).takeWhile (·.rejection?.isNone)) := by
      rw [← List.takeWhile_append_dropWhile (p := (·.rejection?.isNone))
        (l := p.steps .root k)] at hsteps
      exact hsteps.of_append
    simp only [body, hr]
    exact hdone.within
  | none =>
    have hremote := within_services h (k + Step.scopes (p.steps .root k))
    rw [body_eq read k projection hr]
    intro t ht
    rcases List.mem_append.1 ht with ht | ht
    · exact (hsteps.within t ht).mono (Nat.le_refl _) (by dsimp only; omega)
    · exact (hremote t ht).mono (Nat.le_add_right _ _) (by dsimp only; omega)

theorem within_ofPattern (hn : p.PlainNames) (k : Nat) : (ofPattern k p).Within k := by
  induction p using endpoint_induction generalizing k with
  | pattern p ih =>
    have hinner : p.splitProjection.2.PlainNames := hn.splitProjection
    rw [ofPattern_eq]
    exact within_body hinner (fun e he j => ih k e he (hinner.of_mem_endpoints he) j) _

theorem within_ofQuery {q : Query} (hn : q.pattern.PlainNames) (k : Nat) :
    (ofQuery k q).Within k := by
  unfold ofQuery
  split
  · exact within_ofPattern hn k
  · rw [ofAsk_eq]
    exact within_body hn (fun e he j => within_ofPattern (hn.of_mem_endpoints he) j) none
  all_goals
    intro t ht
    simp at ht

end Flattened

end QueryContainment
