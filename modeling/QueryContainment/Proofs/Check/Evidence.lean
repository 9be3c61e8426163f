import QueryContainment.Proofs.Check.Plan
import QueryContainment.Proofs.Conjunctive.Endpoints

namespace QueryContainment

theorem Sorted.bind_perm {β : Type} {a : String} (v : β) {l : List (String × β)}
    (ha : a ∉ l.map Prod.fst) :
    (bind (fun a b => decide (a < b)) a v l).Perm ((a, v) :: l) := by
  induction l with
  | nil => exact .refl _
  | cons e l ih =>
    obtain ⟨b, w⟩ := e
    obtain ⟨hne, hrest⟩ := not_or.1 (List.mem_cons.not.1 ha)
    simp only [bind, decide_eq_true_eq]
    split
    · exact .refl _
    · split
      · exact ((ih hrest).cons _).trans (.swap ..)
      · next hab hba => exact absurd (String.le_antisymm (String.not_lt.1 hba) (String.not_lt.1 hab)) hne

namespace Verdict

theorem byEndpoint_perm {results : List (String × Verdict)} (h : (results.map Prod.fst).Nodup) :
    (byEndpoint results).Perm results := by
  induction results using List.reverseRecOn with
  | nil => exact .refl _
  | append_singleton results r ih =>
    rw [List.map_append, List.nodup_append] at h
    obtain ⟨hnodup, -, hdisjoint⟩ := h
    have hkept := ih hnodup
    have hnew : r.1 ∉ (byEndpoint results).map Prod.fst := fun hmem =>
      hdisjoint r.1 ((hkept.map Prod.fst).mem_iff.1 hmem) r.1 (by simp) rfl
    have hlast : byEndpoint (results ++ [r]) =
        Sorted.bind (fun a b => decide (a < b)) r.1 r.2 (byEndpoint results) := by
      rw [byEndpoint, List.foldl_append]
      rfl
    rw [hlast]
    exact (Sorted.bind_perm r.2 hnew).trans
      ((hkept.cons r).trans (List.perm_append_singleton r results).symm)

mutual

/-- The verdict itself and the verdicts for its endpoints, at every depth. -/
def nodes : Verdict → List Verdict
  | ⟨contained, formula, justification, endpoints⟩ =>
    ⟨contained, formula, justification, endpoints⟩ :: nodesOf endpoints

def nodesOf : List (String × Verdict) → List Verdict
  | [] => []
  | (_, v) :: rest => v.nodes ++ nodesOf rest

end

theorem nodes_eq (v : Verdict) : v.nodes = v :: nodesOf v.endpoints := by
  cases v
  rfl

theorem nodesOf_eq (l : List (String × Verdict)) : nodesOf l = l.flatMap (·.2.nodes) := by
  induction l with
  | nil => rfl
  | cons e l ih => rw [nodesOf, ih, List.flatMap_cons]

theorem nodesOf_perm {l l' : List (String × Verdict)} (h : l.Perm l') :
    (nodesOf l).Perm (nodesOf l') := by
  rw [nodesOf_eq, nodesOf_eq]
  exact h.flatMap_right _

mutual

/-- What holds of a verdict if it holds of those for its endpoints holds of all verdicts. -/
theorem endpoint_induction {P : Verdict → Prop} (h : ∀ v, (∀ e ∈ v.endpoints, P e.2) → P v) :
    ∀ v, P v
  | ⟨_, _, _, endpoints⟩ => h _ (forall_endpoints h endpoints)

theorem forall_endpoints {P : Verdict → Prop} (h : ∀ v, (∀ e ∈ v.endpoints, P e.2) → P v) :
    ∀ l : List (String × Verdict), ∀ e ∈ l, P e.2
  | (_, v) :: rest, e, he => by
    rcases List.mem_cons.1 he with rfl | he
    · exact endpoint_induction h v
    · exact forall_endpoints h rest e he

end

mutual

/--
`E` holds of a verdict and the two queries that it is about, and of the verdicts for its endpoints
and the queries for these, at every depth.
-/
def Throughout (E : Verdict → ConjunctiveQuery Symbol → ConjunctiveQuery Symbol → Prop) :
    Verdict → ConjunctiveQuery Symbol → ConjunctiveQuery Symbol → Prop
  | ⟨contained, formula, justification, endpoints⟩, sub, sup =>
    E ⟨contained, formula, justification, endpoints⟩ sub sup ∧
      ThroughoutEndpoints E sub.services sup.services endpoints

def ThroughoutEndpoints (E : Verdict → ConjunctiveQuery Symbol → ConjunctiveQuery Symbol → Prop)
    (l l' : List (String × ConjunctiveQuery Symbol)) : List (String × Verdict) → Prop
  | [] => True
  | (url, v) :: rest =>
    (∃ sub sup, (url, sub) ∈ l ∧ lookupLast url l' = some sup ∧ Throughout E v sub sup) ∧
      ThroughoutEndpoints E l l' rest

end

variable {E E' : Verdict → ConjunctiveQuery Symbol → ConjunctiveQuery Symbol → Prop}
  {v : Verdict} {sub sup : ConjunctiveQuery Symbol}

theorem throughoutEndpoints_iff {l l' : List (String × ConjunctiveQuery Symbol)}
    {results : List (String × Verdict)} : ThroughoutEndpoints E l l' results ↔
      ∀ e ∈ results, ∃ sub sup, (e.1, sub) ∈ l ∧ lookupLast e.1 l' = some sup ∧
        Throughout E e.2 sub sup := by
  induction results with
  | nil => simp [ThroughoutEndpoints]
  | cons e results ih => rw [ThroughoutEndpoints, ih, List.forall_mem_cons]

theorem throughout_iff : Throughout E v sub sup ↔ E v sub sup ∧
    ∀ e ∈ v.endpoints, ∃ s t, (e.1, s) ∈ sub.services ∧ lookupLast e.1 sup.services = some t ∧
      Throughout E e.2 s t := by
  rw [← throughoutEndpoints_iff]
  cases v
  rfl

theorem Throughout.imp (hE : ∀ v s t, E v s t → E' v s t) (h : Throughout E v sub sup) :
    Throughout E' v sub sup := by
  induction v using endpoint_induction generalizing sub sup with
  | h v ih =>
    obtain ⟨hv, hendpoints⟩ := throughout_iff.1 h
    refine throughout_iff.2 ⟨hE _ _ _ hv, fun e he => ?_⟩
    obtain ⟨s, t, hs, ht, hst⟩ := hendpoints e he
    exact ⟨s, t, hs, ht, ih e he hst⟩

/-- Each node is about a pair of queries. -/
theorem Throughout.exists_of_mem_nodes (h : Throughout E v sub sup) :
    ∀ node ∈ v.nodes, ∃ s t, E node s t := by
  induction v using endpoint_induction generalizing sub sup with
  | h v ih =>
    obtain ⟨hv, hendpoints⟩ := throughout_iff.1 h
    rw [nodes_eq, nodesOf_eq]
    refine List.forall_mem_cons.2 ⟨⟨sub, sup, hv⟩, fun node hnode => ?_⟩
    obtain ⟨e, he, hnode⟩ := List.mem_flatMap.1 hnode
    obtain ⟨s, t, -, -, hst⟩ := hendpoints e he
    exact ih e he hst node hnode

end Verdict

namespace Check

open CheckM

variable {solver : Solver} {n : Naming} {mode : Multiplicity}
  {sub sup : ConjunctiveQuery Symbol} {asked asked' : List String} {v : Verdict}

/-- Checks of services against those of `l`, with the endpoint at which they stop, if they do. -/
inductive ChecksEndpoints (solver : Solver) (n : Naming)
    (l : List (String × ConjunctiveQuery Symbol)) :
    List (String × ConjunctiveQuery Symbol) → List String → Option String →
      List (String × Verdict) → List String → Prop
  | done (asked : List String) : ChecksEndpoints solver n l [] asked none [] asked
  | stop {url : String} {sub sup : ConjunctiveQuery Symbol}
      {rest : List (String × ConjunctiveQuery Symbol)} {asked asked' : List String} {v : Verdict}
      (partner : lookupLast url l = some sup)
      (check : outcome (queries solver n .set sub sup) asked = (.ok v, asked'))
      (negative : v.contained = false) :
      ChecksEndpoints solver n l ((url, sub) :: rest) asked (some url) [(url, v)] asked'
  | next {url : String} {sub sup : ConjunctiveQuery Symbol} {failed : Option String}
      {rest : List (String × ConjunctiveQuery Symbol)} {asked between asked' : List String}
      {v : Verdict} {results : List (String × Verdict)}
      (partner : lookupLast url l = some sup)
      (check : outcome (queries solver n .set sub sup) asked = (.ok v, between))
      (positive : v.contained = true)
      (others : ChecksEndpoints solver n l rest between failed results asked') :
      ChecksEndpoints solver n l ((url, sub) :: rest) asked failed ((url, v) :: results) asked'

variable {services l : List (String × ConjunctiveQuery Symbol)} {failed : Option String}
  {results : List (String × Verdict)}

theorem checksEndpoints_of_outcome {found : List (ConjunctiveQuery Symbol)}
    (hfound : partners services l = .ok found)
    (h : outcome (endpoints solver n services found) asked = (.ok (failed, results), asked')) :
    ChecksEndpoints solver n l services asked failed results asked' := by
  induction services generalizing found asked failed results with
  | nil =>
    obtain rfl := Except.ok.inj hfound
    rw [endpoints, outcome_pure] at h
    · simp only [Prod.mk.injEq, Except.ok.injEq] at h
      obtain ⟨⟨rfl, rfl⟩, rfl⟩ := h
      exact .done asked
    · simp
  | cons e services ih =>
    obtain ⟨sup, rest, hl, hrest, rfl⟩ := of_partners_cons hfound
    obtain ⟨url, sub⟩ := e
    unfold endpoints at h
    obtain ⟨v, between, hv, h⟩ := outcome_bind_eq_ok h
    cases hcontained : v.contained with
    | false =>
      simp only [hcontained, outcome_pure, Prod.mk.injEq, Except.ok.injEq, if_false,
        Bool.false_eq_true] at h
      obtain ⟨⟨rfl, rfl⟩, rfl⟩ := h
      exact .stop hl hv hcontained
    | true =>
      simp only [hcontained, if_true] at h
      obtain ⟨⟨failed', results'⟩, between', hothers, h⟩ := outcome_bind_eq_ok h
      simp only [outcome_pure, Prod.mk.injEq, Except.ok.injEq] at h
      obtain ⟨⟨rfl, rfl⟩, rfl⟩ := h
      exact .next hl hv hcontained (ih hrest hothers)

theorem ChecksEndpoints.keys_prefix
    (h : ChecksEndpoints solver n l services asked failed results asked') :
    results.map Prod.fst <+: services.map Prod.fst := by
  induction h with
  | done => exact List.prefix_refl _
  | stop => exact ⟨_, rfl⟩
  | next _ _ _ _ ih => exact (List.prefix_cons_inj _).2 ih

theorem ChecksEndpoints.all_contained
    (h : ChecksEndpoints solver n l services asked none results asked') :
    results.map Prod.fst = services.map Prod.fst ∧ ∀ e ∈ results, e.2.contained := by
  generalize hfailed : none = failed at h
  induction h with
  | done => exact ⟨rfl, by simp⟩
  | stop => cases hfailed
  | next _ _ positive _ ih =>
    obtain ⟨hkeys, hall⟩ := ih hfailed
    exact ⟨congrArg (_ :: ·) hkeys, List.forall_mem_cons.2 ⟨positive, hall⟩⟩

theorem ChecksEndpoints.stopped {url : String}
    (h : ChecksEndpoints solver n l services asked (some url) results asked') :
    ∃ before q after checked w, services = before ++ (url, q) :: after ∧
      results = checked ++ [(url, w)] ∧ checked.map Prod.fst = before.map Prod.fst ∧
      (∀ e ∈ checked, e.2.contained) ∧ w.contained = false := by
  generalize hfailed : some url = failed at h
  induction h with
  | done => cases hfailed
  | @stop _ q _ rest _ _ w _ _ negative =>
    obtain rfl := Option.some.inj hfailed
    exact ⟨[], q, rest, [], w, rfl, rfl, rfl, by simp, negative⟩
  | next _ _ positive _ ih =>
    obtain ⟨before, q, after, checked, w, rfl, rfl, hkeys, hall, negative⟩ := ih hfailed
    exact ⟨_ :: before, q, after, _ :: checked, w, rfl, rfl, congrArg (_ :: ·) hkeys,
      List.forall_mem_cons.2 ⟨positive, hall⟩, negative⟩

theorem missing_of_partners {url : String} (h : partners services l = .error url) :
    url ∈ services.map Prod.fst ∧ url ∉ l.map Prod.fst := by
  induction services with
  | nil => cases h
  | cons e services ih =>
    obtain ⟨url', q⟩ := e
    unfold partners at h
    cases hl : lookupLast url' l with
    | none =>
      rw [hl, Except.error.injEq] at h
      subst h
      refine ⟨List.mem_cons_self, fun hmem => ?_⟩
      obtain ⟨e, he, rfl⟩ := List.mem_map.1 hmem
      simpa using List.lookup_eq_none_iff.1 hl e (List.mem_reverse.2 he)
    | some partner =>
      cases hrest : partners services l with
      | error first =>
        obtain rfl : first = url := by simpa [hl, hrest, Except.map] using h
        obtain ⟨hmem, hnot⟩ := ih hrest
        exact ⟨List.mem_cons_of_mem _ hmem, hnot⟩
      | ok rest => simp [hl, hrest, Except.map] at h

/-- The replies to some formulas that are asked for one after the other. -/
def replies (solver : Solver) : List String → List String →
    List (String × Except CheckError Smt.Answer)
  | _, [] => []
  | asked, f :: rest => (f, reply solver asked f) :: replies solver (asked ++ [f]) rest

theorem replies_append (solver : Solver) (asked new new' : List String) :
    replies solver asked (new ++ new') =
      replies solver asked new ++ replies solver (asked ++ new) new' := by
  induction new generalizing asked with
  | nil => rw [List.nil_append, replies, List.nil_append, List.append_nil]
  | cons f new ih =>
    rw [List.cons_append, replies, ih, replies, List.append_assoc, List.singleton_append,
      List.cons_append]

theorem map_fst_replies (solver : Solver) (asked new : List String) :
    (replies solver asked new).map Prod.fst = new := by
  induction new generalizing asked with
  | nil => rfl
  | cons f new ih => rw [replies, List.map_cons, ih]

theorem exists_of_mem_replies {new : List String} {r : String × Except CheckError Smt.Answer}
    (h : r ∈ replies solver asked new) : ∃ before after, new = before ++ r.1 :: after ∧
      r.2 = reply solver (asked ++ before) r.1 := by
  induction new generalizing asked with
  | nil => simp [replies] at h
  | cons f new ih =>
    rcases List.mem_cons.1 h with rfl | h
    · exact ⟨[], new, rfl, by rw [List.append_nil]⟩
    · obtain ⟨before, after, hnew, hr⟩ := ih h
      exact ⟨f :: before, after, by rw [hnew, List.cons_append],
        by rw [hr, List.append_assoc, List.singleton_append]⟩

/-- The formula that decided a verdict, with the answer that the verdict stands for. -/
def decision? (v : Verdict) : Option (String × Except CheckError Smt.Answer) :=
  v.formula.map fun f => (f, .ok (if v.contained then .unsat else .sat))

theorem map_fst_decision? (l : List Verdict) :
    (l.filterMap decision?).map Prod.fst = l.filterMap Verdict.formula := by
  rw [List.map_filterMap]
  refine List.filterMap_congr fun v _ => ?_
  cases hf : v.formula <;> simp [decision?, hf]

theorem decision?_wholeVerdict (c : Bool) (f : String) (answer : Smt.Answer) :
    decision? (wholeVerdict c f answer) = some (f, .ok answer) := by
  cases c <;> cases answer <;> rfl

/--
What a verdict on two queries tells of the verdicts for the endpoints, and the part of the run that
these come from.
-/
structure Consistent (solver : Solver) (n : Naming) (asked asked' : List String) (v : Verdict)
    (sub sup : ConjunctiveQuery Symbol) : Prop where
  /-- No endpoint has two verdicts. -/
  nodup : (v.endpoints.map Prod.fst).Nodup
  /-- A verdict with a formula has a positive verdict for each service of the sub-query. -/
  decided : ∀ formula, v.formula = some formula →
    (v.endpoints.map Prod.fst).Perm (sub.services.map Prod.fst) ∧
      ∀ e ∈ v.endpoints, e.2.contained
  /-- A verdict without a formula is negative and justified. -/
  refused : v.formula = none → v.contained = false ∧ v.justification.isSome
  /--
  It says that an endpoint is missing, or has the verdicts for the services up to one that is not
  contained.
  -/
  stopped : v.formula = none →
    (v.endpoints = [] ∧ ∃ url ∈ sub.services.map Prod.fst, url ∉ sup.services.map Prod.fst) ∨
    ∃ before url q after checked w, sub.services = before ++ (url, q) :: after ∧
      v.endpoints.Perm (checked ++ [(url, w)]) ∧ checked.map Prod.fst = before.map Prod.fst ∧
      (∀ e ∈ checked, e.2.contained) ∧ w.contained = false
  /-- All verdicts from the checks of the endpoints are there. -/
  kept : ∀ found, partners sub.services sup.services = .ok found →
    ∃ before failed results after, asked <+: before ∧ after <+: asked' ∧
      outcome (endpoints solver n sub.services found) before = (.ok (failed, results), after) ∧
      v.endpoints.Perm results

theorem Consistent.mono {first last : List String} (h : Consistent solver n asked asked' v sub sup)
    (hfirst : first <+: asked) (hlast : asked' <+: last) :
    Consistent solver n first last v sub sup := by
  refine { h with kept := fun found hfound => ?_ }
  obtain ⟨before, failed, results, after, hbefore, hafter, hkept⟩ := h.kept found hfound
  exact ⟨before, failed, results, after, hfirst.trans hbefore, hafter.trans hlast, hkept⟩

theorem Consistent.all_contained (h : Consistent solver n asked asked' v sub sup)
    (hv : v.contained) : (v.endpoints.map Prod.fst).Perm (sub.services.map Prod.fst) ∧
      ∀ e ∈ v.endpoints, e.2.contained := by
  cases hf : v.formula with
  | none =>
    rw [(h.refused hf).1] at hv
    cases hv
  | some formula => exact h.decided formula hf

theorem ChecksEndpoints.kept (h : ChecksEndpoints solver n l services asked failed results asked')
    (hnodup : (services.map Prod.fst).Nodup) : (Verdict.byEndpoint results).Perm results :=
  Verdict.byEndpoint_perm (h.keys_prefix.sublist.nodup hnodup)

theorem consistent_of_outcome (hnodup : (sub.services.map Prod.fst).Nodup)
    (h : outcome (queries solver n mode sub sup) asked = (.ok v, asked')) :
    Consistent solver n asked asked' v sub sup := by
  cases concludes_of_outcome h with
  | @missing url hp =>
    refine ⟨.nil, nofun, fun _ => ⟨rfl, rfl⟩,
      fun _ => .inl ⟨rfl, url, missing_of_partners hp⟩, fun found hfound => ?_⟩
    rw [hp] at hfound
    cases hfound
  | @stopped found url results _ hp hrun =>
    have hchecks := checksEndpoints_of_outcome hp hrun
    have hkept := hchecks.kept hnodup
    obtain ⟨before, q, after, checked, w, hservices, rfl, hbefore, hcontained, hw⟩ :=
      hchecks.stopped
    refine ⟨(hkept.map Prod.fst).nodup_iff.2 (hchecks.keys_prefix.sublist.nodup hnodup),
      nofun, fun _ => ⟨rfl, rfl⟩, fun _ => .inr
        ⟨before, url, q, after, checked, w, hservices, hkept, hbefore, hcontained, hw⟩,
      fun found' hfound' => ?_⟩
    obtain rfl := Except.ok.inj (hp.symm.trans hfound')
    exact ⟨asked, _, _, _, List.prefix_refl _, List.prefix_refl _, hrun, hkept⟩
  | @decided found results between c answer hp hrun _ _ =>
    have hchecks := checksEndpoints_of_outcome hp hrun
    have hkept := hchecks.kept hnodup
    obtain ⟨hservices, hcontained⟩ := hchecks.all_contained
    have hsome : ((wholeVerdict c (formula c sub sup n) answer).withEndpoints results).formula ≠
        none := by
      cases c <;> exact Option.some_ne_none _
    refine ⟨(hkept.map Prod.fst).nodup_iff.2 (hservices ▸ hnodup),
      fun _ _ => ⟨hservices ▸ hkept.map Prod.fst, fun e he => hcontained e (hkept.mem_iff.1 he)⟩,
      fun hnone => absurd hnone hsome, fun hnone => absurd hnone hsome, fun found' hfound' => ?_⟩
    obtain rfl := Except.ok.inj (hp.symm.trans hfound')
    exact ⟨asked, _, _, _, List.prefix_refl _, List.prefix_append _ _, hrun, hkept⟩

def Accounted (solver : Solver) (n : Naming) (asked asked' : List String) (v : Verdict)
    (sub sup : ConjunctiveQuery Symbol) : Prop :=
  ∃ new, asked' = asked ++ new ∧
    (v.nodes.filterMap decision?).Perm (replies solver asked new) ∧
    v.Throughout (Consistent solver n asked asked') sub sup

theorem ChecksEndpoints.accounted
    (h : ChecksEndpoints solver n l services asked failed results asked')
    (hchecks : ∀ e ∈ services, ∀ {sup asked v asked'},
      outcome (queries solver n .set e.2 sup) asked = (.ok v, asked') →
        Accounted solver n asked asked' v e.2 sup) :
    ∃ new, asked' = asked ++ new ∧
      ((Verdict.nodesOf results).filterMap decision?).Perm (replies solver asked new) ∧
      ∀ e ∈ results, ∃ s t, (e.1, s) ∈ services ∧ lookupLast e.1 l = some t ∧
        e.2.Throughout (Consistent solver n asked asked') s t := by
  induction h with
  | done => exact ⟨[], (List.append_nil _).symm, .refl _, by simp⟩
  | @stop url sub sup rest _ _ v partner check _ =>
    obtain ⟨new, rfl, hdecisions, hthroughout⟩ := hchecks _ List.mem_cons_self check
    refine ⟨new, rfl, ?_, fun e he => ?_⟩
    · rwa [Verdict.nodesOf, Verdict.nodesOf, List.append_nil]
    · obtain rfl := List.mem_singleton.1 he
      exact ⟨sub, sup, List.mem_cons_self, partner, hthroughout⟩
  | @next url sub sup _ rest _ _ _ v results partner check _ _ ih =>
    obtain ⟨new, rfl, hdecisions, hthroughout⟩ := hchecks _ List.mem_cons_self check
    obtain ⟨new', rfl, hdecisions', hothers⟩ := ih fun e he => hchecks e (List.mem_cons_of_mem _ he)
    refine ⟨new ++ new', List.append_assoc .., ?_, List.forall_mem_cons.2 ⟨?_, fun e he => ?_⟩⟩
    · rw [Verdict.nodesOf, List.filterMap_append, replies_append]
      exact hdecisions.append hdecisions'
    · exact ⟨sub, sup, List.mem_cons_self, partner, hthroughout.imp fun _ _ _ hnode =>
        hnode.mono (List.prefix_refl _) (List.prefix_append _ _)⟩
    · obtain ⟨s, t, hs, ht, hst⟩ := hothers e he
      exact ⟨s, t, List.mem_cons_of_mem _ hs, ht, hst.imp fun _ _ _ hnode =>
        hnode.mono (List.prefix_append _ _) (List.prefix_refl _)⟩

/-- A check is accounted for, if no two services of a query are at the same endpoint. -/
theorem accounted_of_outcome (hsub : ∀ part ∈ sub.parts, (part.services.map Prod.fst).Nodup)
    (h : outcome (queries solver n mode sub sup) asked = (.ok v, asked')) :
    Accounted solver n asked asked' v sub sup := by
  induction sub using ConjunctiveQuery.services_induction generalizing mode sup asked v asked' with
  | h sub ih =>
    have hnodup := hsub sub sub.self_mem_parts
    have hnode := consistent_of_outcome hnodup h
    have hparts (e : String × ConjunctiveQuery Symbol) (he : e ∈ sub.services) :
        ∀ part ∈ e.2.parts, (part.services.map Prod.fst).Nodup :=
      fun part hpart => hsub part (ConjunctiveQuery.mem_parts_of_service he hpart)
    cases concludes_of_outcome h with
    | missing =>
      exact ⟨[], (List.append_nil _).symm, .refl _, Verdict.throughout_iff.2 ⟨hnode, nofun⟩⟩
    | stopped hp hrun =>
      have hchecks := checksEndpoints_of_outcome hp hrun
      have hkept := hchecks.kept hnodup
      obtain ⟨new, rfl, hdecisions, hthroughout⟩ :=
        hchecks.accounted fun e he => ih e he (hparts e he)
      refine ⟨new, rfl, ?_, Verdict.throughout_iff.2 ⟨hnode, fun e he => ?_⟩⟩
      · rw [Verdict.nodes_eq]
        exact ((Verdict.nodesOf_perm hkept).filterMap decision?).trans hdecisions
      · exact hthroughout e (hkept.mem_iff.1 he)
    | @decided _ results _ c answer hp hrun _ hreply =>
      have hchecks := checksEndpoints_of_outcome hp hrun
      have hkept := hchecks.kept hnodup
      obtain ⟨new, rfl, hdecisions, hthroughout⟩ :=
        hchecks.accounted fun e he => ih e he (hparts e he)
      have hdecision : decision? ((wholeVerdict c (formula c sub sup n) answer).withEndpoints
          results) = some (formula c sub sup n, .ok answer) := decision?_wholeVerdict ..
      refine ⟨new ++ [formula c sub sup n], List.append_assoc .., ?_,
        Verdict.throughout_iff.2 ⟨hnode, fun e he => ?_⟩⟩
      -- the formula of the queries as a whole comes last in the run, and first in the verdict
      · rw [Verdict.nodes_eq, List.filterMap_cons_some hdecision, replies_append, replies, hreply,
          replies]
        exact ((((Verdict.nodesOf_perm hkept).filterMap decision?).trans hdecisions).cons _).trans
          (List.perm_append_singleton ..).symm
      · obtain ⟨s, t, hs, ht, hst⟩ := hthroughout e (hkept.mem_iff.1 he)
        exact ⟨s, t, hs, ht, hst.imp fun _ _ _ h =>
          h.mono (List.prefix_refl _) (List.prefix_append _ _)⟩

/-- A positive verdict is positive at every node, with one result for each service. -/
def Positive (v : Verdict) (sub _sup : ConjunctiveQuery Symbol) : Prop :=
  v.contained ∧ (v.endpoints.map Prod.fst).Perm (sub.services.map Prod.fst)

theorem throughout_positive (h : v.Throughout (Consistent solver n asked asked') sub sup)
    (hv : v.contained) : v.Throughout Positive sub sup := by
  induction v using Verdict.endpoint_induction generalizing sub sup with
  | h v ih =>
    obtain ⟨hnode, hbelow⟩ := Verdict.throughout_iff.1 h
    obtain ⟨hkeys, hcontained⟩ := hnode.all_contained hv
    refine Verdict.throughout_iff.2 ⟨⟨hv, hkeys⟩, fun e he => ?_⟩
    obtain ⟨s, t, hs, ht, hst⟩ := hbelow e he
    exact ⟨s, t, hs, ht, ih e he hst (hcontained e he)⟩

theorem nodup_services_of_name {f : Flattened (ConjunctiveQuery Term)}
    {s : ConjunctiveQuery Symbol} (h : (n.name f).1 = .ok s)
    (hf : ∀ r, f.result = .ok r → ∀ part ∈ r.parts, (part.services.map Prod.fst).Nodup) :
    ∀ part ∈ s.parts, (part.services.map Prod.fst).Nodup := by
  obtain ⟨r, hr, rfl⟩ := Naming.name_eq_ok h
  intro part hpart
  rw [ConjunctiveQuery.parts_map] at hpart
  obtain ⟨rpart, hrpart, rfl⟩ := List.mem_map.1 hpart
  rw [ConjunctiveQuery.services_map, List.map_map]
  exact hf r hr rpart hrpart

theorem nodup_services_of_readQuery {q : Query} {s : ConjunctiveQuery Symbol}
    (h : (n.readQuery q).1 = .ok s) : ∀ part ∈ s.parts, (part.services.map Prod.fst).Nodup :=
  nodup_services_of_name h fun _ => Flattened.nodup_services_ofQuery _ q

theorem nodup_services_of_readPattern {p : Pattern} {s : ConjunctiveQuery Symbol}
    (h : (n.readPattern p).1 = .ok s) : ∀ part ∈ s.parts, (part.services.map Prod.fst).Nodup :=
  nodup_services_of_name h fun _ => Flattened.nodup_services_ofPattern _ p

theorem Reads.nodup_services {q q' : Query} {s t : ConjunctiveQuery Symbol} (h : Reads q q' s t) :
    ∀ part ∈ s.parts, (part.services.map Prod.fst).Nodup := nodup_services_of_readQuery h.sub

/--
The evidence in a verdict, whatever the solver replies. The formulas of all nodes are those that the
check has asked for, each as often as it was, and the nodes say what was replied: a positive node
has a formula to which the reply was `unsat`. Each node is consistent with those below it. No result
of an endpoint is replaced or left out; a positive node has a positive one for each service of its
sub-query; and a node without a formula is negative, has a justification, and ends with the one
endpoint that is not contained, unless an endpoint is missing.
-/
theorem verdict_evidence {q q' : Query}
    (h : outcome (contained solver mode q q') asked = (.ok v, asked')) :
    ∃ s t new, Reads q q' s t ∧ asked' = asked ++ new ∧
      (v.nodes.filterMap Verdict.formula).Perm new ∧
      (v.nodes.filterMap decision?).Perm (replies solver asked new) ∧
      (∀ node ∈ v.nodes, node.contained → ∃ f before after, node.formula = some f ∧
        new = before ++ f :: after ∧ reply solver (asked ++ before) f = .ok .unsat) ∧
      v.Throughout (Consistent solver (table q q') asked asked') s t ∧
      v.Throughout (fun node sub _ => node.contained →
        (node.endpoints.map Prod.fst).Perm (sub.services.map Prod.fst) ∧
          ∀ e ∈ node.endpoints, e.2.contained) s t := by
  obtain ⟨s, t, m, hreads, hrun⟩ := reads_of_contained h
  obtain ⟨new, rfl, hdecisions, hthroughout⟩ := accounted_of_outcome hreads.nodup_services hrun
  refine ⟨s, t, new, hreads, rfl, ?_, hdecisions, fun node hnode hpositive => ?_, hthroughout,
    hthroughout.imp fun _ _ _ hnode => hnode.all_contained⟩
  · have hformulas := hdecisions.map Prod.fst
    rwa [map_fst_decision?, map_fst_replies] at hformulas
  · obtain ⟨sub, sup, hconsistent⟩ := hthroughout.exists_of_mem_nodes node hnode
    cases hf : node.formula with
    | none =>
      rw [(hconsistent.refused hf).1] at hpositive
      cases hpositive
    | some f =>
      have hdecision : decision? node = some (f, .ok .unsat) := by
        simp [decision?, hf, hpositive]
      have hmem := hdecisions.mem_iff.1 (List.mem_filterMap.2 ⟨node, hnode, hdecision⟩)
      obtain ⟨before, after, hnew, hreply⟩ := exists_of_mem_replies hmem
      exact ⟨f, before, after, rfl, hnew, hreply.symm⟩

/-- A step that is taken at two endpoints. -/
def twoEndpoints : Query :=
  ⟨.ask, .join (.service (.iri "e") (.bgp [⟨.var "x", .iri "p", .var "y"⟩]))
    (.service (.iri "f") (.bgp [⟨.var "x", .iri "p", .var "y"⟩])), false⟩

/-- A solver that refutes the first formula only. -/
def refutesFirst : Solver := fun asked _ => .ok (if asked.isEmpty then "unsat" else "sat")

theorem verdict_evidence_twoEndpoints : ∃ v new,
    outcome (contained refutesFirst .bagSet twoEndpoints twoEndpoints) [] = (.ok v, new) ∧
      v.formula = none ∧ v.endpoints.map (fun e => (e.1, e.2.contained)) =
        [("e", true), ("f", false)] ∧
      (v.nodes.filterMap Verdict.formula).Perm new ∧ ∃ s t,
        v.Throughout (Consistent refutesFirst (table twoEndpoints twoEndpoints) [] new) s t := by
  obtain ⟨v, new, hrun, hformula, hendpoints⟩ : ∃ v new,
      outcome (contained refutesFirst .bagSet twoEndpoints twoEndpoints) [] = (.ok v, new) ∧
        v.formula = none ∧ v.endpoints.map (fun e => (e.1, e.2.contained)) =
          [("e", true), ("f", false)] := ⟨_, _, rfl, rfl, rfl⟩
  obtain ⟨s, t, _, -, rfl, hformulas, -, -, hthroughout, -⟩ := verdict_evidence hrun
  exact ⟨v, _, hrun, hformula, hendpoints, hformulas, s, t, hthroughout⟩

end Check

end QueryContainment
