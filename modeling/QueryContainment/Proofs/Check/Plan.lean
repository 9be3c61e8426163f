import Mathlib.Data.List.Nodup
import QueryContainment.Proofs.Check.Outcome
import QueryContainment.Proofs.Conjunctive.Parts

namespace QueryContainment

namespace Check

open CheckM

variable {solver : Solver} {n : Naming} {mode : Multiplicity}
  {sub sup : ConjunctiveQuery Symbol} {asked : List String}

/-- Whether answers are compared, in the modes in which there is such a notion. -/
def compatible (sub sup : ConjunctiveQuery Symbol) : Multiplicity → Bool
  | .bagSet => sub.sameAnswerAndVariables sup
  | .set | .bag => sub.sameAnswer sup

theorem comparable_eq (h : mode ≠ .bag) :
    comparable sub sup mode = .ok (compatible sub sup mode) := by
  cases mode with
  | set => rfl
  | bagSet => rfl
  | bag => exact absurd rfl h

/-- Two queries that are checked as a whole, or an endpoint that keeps a pair from being checked. -/
inductive Visit where
  | pair (mode : Multiplicity) (sub sup : ConjunctiveQuery Symbol)
  | missing (url : String)

mutual

/--
The pairs in the order of their formulas. The services of a pair come before it, as sets. Where one
of them has no partner, neither the pair nor any of its services is visited.
-/
def visits (mode : Multiplicity) :
    ConjunctiveQuery Symbol → ConjunctiveQuery Symbol → List Visit
  | ⟨atoms, answer, other, services⟩, sup =>
    match partners services sup.services with
    | .error url => [.missing url]
    | .ok partners =>
      endpointVisits services partners ++ [.pair mode ⟨atoms, answer, other, services⟩ sup]

/-- The pairs of some services with their partners, and what comes before each of them. -/
def endpointVisits :
    List (String × ConjunctiveQuery Symbol) → List (ConjunctiveQuery Symbol) → List Visit
  | (_, sub) :: rest, sup :: partners => visits .set sub sup ++ endpointVisits rest partners
  | _, _ => []

end

/-- The formulas up to the first endpoint that is missing. -/
def formulasOf (n : Naming) : List Visit → List String
  | .pair mode sub sup :: rest => formula (compatible sub sup mode) sub sup n :: formulasOf n rest
  | _ => []

def Visit.isMissing : Visit → Bool
  | missing _ => true
  | pair .. => false

/-- The formulas that are asked for if the reply to each of them is `unsat`. -/
def plan (n : Naming) (mode : Multiplicity) (sub sup : ConjunctiveQuery Symbol) : List String :=
  formulasOf n (visits mode sub sup)

/-- An endpoint is missing, so that the plan ends before the pair that was to be checked. -/
def planIsCut (mode : Multiplicity) (sub sup : ConjunctiveQuery Symbol) : Bool :=
  (visits mode sub sup).any Visit.isMissing

theorem sameAnswer_of_compatible (h : compatible sub sup mode = true) : sub.sameAnswer sup := by
  cases mode with
  | bagSet => exact (Bool.and_eq_true _ _ ▸ h : _ ∧ _).1
  | set => exact h
  | bag => exact h

/-- Each formula of a plan is that of a pair that is visited. -/
theorem exists_visit_of_mem_formulasOf {l : List Visit} {f : String} (h : f ∈ formulasOf n l) :
    ∃ mode sub sup, .pair mode sub sup ∈ l ∧ f = formula (compatible sub sup mode) sub sup n := by
  induction l with
  | nil => simp [formulasOf] at h
  | cons visit l ih =>
    cases visit with
    | missing url => simp [formulasOf] at h
    | pair mode sub sup =>
      rcases List.mem_cons.1 h with rfl | h
      · exact ⟨mode, sub, sup, List.mem_cons_self, rfl⟩
      · obtain ⟨m, s, t, hmem, hf⟩ := ih h
        exact ⟨m, s, t, List.mem_cons_of_mem _ hmem, hf⟩

theorem mem_of_lookupLast {α : Type} {url : String} {l : List (String × α)} {a : α}
    (h : lookupLast url l = some a) : (url, a) ∈ l := by
  obtain ⟨before, after, heq, -⟩ := List.lookup_eq_some_iff.1 h
  exact List.mem_reverse.1 (by simp [heq])

/-- Where all services have a partner, so has the first one. -/
theorem of_partners_cons {α : Type} {e : String × α} {l l' : List (String × α)} {found : List α}
    (h : partners (e :: l) l' = .ok found) : ∃ p rest,
      lookupLast e.1 l' = some p ∧ partners l l' = .ok rest ∧ found = p :: rest := by
  unfold partners at h
  cases hl : lookupLast e.1 l' with
  | none => simp [hl] at h
  | some p =>
    cases hr : partners l l' with
    | error url => simp [hl, hr, Except.map] at h
    | ok rest =>
      obtain rfl : p :: rest = found := by simpa [hl, hr, Except.map] using h
      exact ⟨p, rest, rfl, rfl, rfl⟩

/-- The partners are among the services of the super-query. -/
theorem mem_of_partners {α : Type} {l l' : List (String × α)} {found : List α}
    (h : partners l l' = .ok found) {p : α} (hp : p ∈ found) : ∃ url, (url, p) ∈ l' := by
  induction l generalizing found with
  | nil =>
    obtain rfl := Except.ok.inj h
    simp at hp
  | cons e l ih =>
    obtain ⟨partner, rest, hl, hr, rfl⟩ := of_partners_cons h
    rcases List.mem_cons.1 hp with rfl | hp
    · exact ⟨e.1, mem_of_lookupLast hl⟩
    · exact ih hr hp

theorem lookupLast_of_mem {α : Type} {l : List (String × α)} (h : (l.map Prod.fst).Nodup)
    {e : String × α} (he : e ∈ l) : lookupLast e.1 l = some e.2 := by
  obtain ⟨before, after, heq⟩ := List.append_of_mem (List.mem_reverse.2 he)
  refine List.lookup_eq_some_iff.2 ⟨before, after, heq, fun e' he' => ?_⟩
  have hnodup : (l.reverse.map Prod.fst).Nodup := by
    rw [List.map_reverse]
    exact List.nodup_reverse.2 h
  rw [heq, List.map_append] at hnodup
  have hne := (List.nodup_append.1 hnodup).2.2 e'.1 (List.mem_map_of_mem he') e.1 (by simp)
  simpa using Ne.symm hne

/-- Where each service has a partner, none is missing. -/
theorem partners_of_lookupLast {α γ : Type} {l : List γ} {service : γ → String × α}
    {partner : γ → α} {l' : List (String × α)}
    (h : ∀ e ∈ l, lookupLast (service e).1 l' = some (partner e)) :
    partners (l.map service) l' = .ok (l.map partner) := by
  induction l with
  | nil => rfl
  | cons e l ih =>
    rw [List.map_cons, partners, h e List.mem_cons_self,
      ih fun e' he' => h e' (List.mem_cons_of_mem _ he')]
    rfl

mutual

/-- A pair that is visited consists of parts of the two queries. -/
theorem mem_parts_of_visit {m : Multiplicity} {s t : ConjunctiveQuery Symbol} :
    ∀ {mode : Multiplicity} {sub sup : ConjunctiveQuery Symbol},
      .pair m s t ∈ visits mode sub sup → s ∈ sub.parts ∧ t ∈ sup.parts
  | mode, ⟨atoms, answer, other, services⟩, sup, h => by
    unfold visits at h
    cases hp : partners services sup.services with
    | error url => simp [hp] at h
    | ok found =>
      rw [hp] at h
      rcases List.mem_append.1 h with h | h
      · obtain ⟨hs, p, hmem, ht⟩ := mem_parts_of_endpointVisit h
        obtain ⟨url, hurl⟩ := mem_of_partners hp hmem
        rw [sup.parts_eq]
        exact ⟨List.mem_cons_of_mem _ hs,
          List.mem_cons_of_mem _ (ConjunctiveQuery.mem_partsOf.2 ⟨_, hurl, ht⟩)⟩
      · obtain ⟨-, rfl, rfl⟩ : m = mode ∧ s = ⟨atoms, answer, other, services⟩ ∧ t = sup := by
          simpa using h
        exact ⟨ConjunctiveQuery.self_mem_parts _, ConjunctiveQuery.self_mem_parts _⟩

theorem mem_parts_of_endpointVisit {m : Multiplicity} {s t : ConjunctiveQuery Symbol} :
    ∀ {services : List (String × ConjunctiveQuery Symbol)}
      {found : List (ConjunctiveQuery Symbol)}, .pair m s t ∈ endpointVisits services found →
      s ∈ ConjunctiveQuery.partsOf services ∧ ∃ p ∈ found, t ∈ p.parts
  | [], found, h => by simp [endpointVisits] at h
  | _ :: _, [], h => by simp [endpointVisits] at h
  | (_, sub) :: rest, sup :: found, h => by
    unfold endpointVisits at h
    rcases List.mem_append.1 h with h | h
    · obtain ⟨hs, ht⟩ := mem_parts_of_visit h
      exact ⟨List.mem_append_left _ hs, sup, List.mem_cons_self, ht⟩
    · obtain ⟨hs, p, hp, ht⟩ := mem_parts_of_endpointVisit h
      exact ⟨List.mem_append_right _ hs, p, List.mem_cons_of_mem _ hp, ht⟩

end

theorem forall_endpointVisits_iff {P : Visit → Prop}
    {services l : List (String × ConjunctiveQuery Symbol)} :
    (∃ found, partners services l = .ok found ∧ ∀ visit ∈ endpointVisits services found, P visit) ↔
      ∀ e ∈ services, ∃ p, lookupLast e.1 l = some p ∧ ∀ visit ∈ visits .set e.2 p, P visit := by
  induction services with
  | nil => simp [partners, endpointVisits]
  | cons e services ih =>
    obtain ⟨url, sub⟩ := e
    rw [List.forall_mem_cons, ← ih, partners]
    cases lookupLast url l with
    | none => simp
    | some p =>
      cases partners services l with
      | error url' => simp [Except.map]
      | ok found => simp [Except.map, endpointVisits, or_imp, forall_and]

/-- What holds of all visits holds of those of each service and its partner, and of the pair. -/
theorem forall_visits_iff {P : Visit → Prop} (hmissing : ∀ url, ¬P (.missing url)) :
    (∀ visit ∈ visits mode sub sup, P visit) ↔
      (∀ e ∈ sub.services, ∃ p, lookupLast e.1 sup.services = some p ∧
        ∀ visit ∈ visits .set e.2 p, P visit) ∧ P (.pair mode sub sup) := by
  obtain ⟨atoms, answer, other, services⟩ := sub
  rw [← forall_endpointVisits_iff, visits]
  cases partners services sup.services with
  | error url => simp [hmissing]
  | ok found => simp [or_imp, forall_and]

/-- Goes through some visits, as long as the solver refutes their formulas. -/
def run (solver : Solver) (n : Naming) :
    List Visit → List String → Except CheckError Bool × List String
  | [], asked => (.ok true, asked)
  | .missing _ :: _, asked => (.ok false, asked)
  | .pair mode sub sup :: rest, asked =>
    let next := formula (compatible sub sup mode) sub sup n
    match reply solver asked next with
    | .ok .unsat => run solver n rest (asked ++ [next])
    | .ok .sat => (.ok false, asked ++ [next])
    | .error e => (.error e, asked ++ [next])

theorem run_append (l l' : List Visit) (asked : List String) :
    run solver n (l ++ l') asked = match run solver n l asked with
      | (.ok true, asked') => run solver n l' asked'
      | (.ok false, asked') => (.ok false, asked')
      | (.error e, asked') => (.error e, asked') := by
  induction l generalizing asked with
  | nil => rfl
  | cons visit l ih =>
    cases visit with
    | missing url => rfl
    | pair mode sub sup =>
      simp only [List.cons_append, run]
      cases reply solver asked (formula (compatible sub sup mode) sub sup n) with
      | error e => rfl
      | ok answer =>
        cases answer with
        | sat => rfl
        | unsat => exact ih _

theorem run_pair (solver : Solver) (n : Naming) (mode : Multiplicity)
    (sub sup : ConjunctiveQuery Symbol) (asked : List String) :
    run solver n [.pair mode sub sup] asked =
      ((reply solver asked (formula (compatible sub sup mode) sub sup n)).map
          fun answer => decide (answer = .unsat),
        asked ++ [formula (compatible sub sup mode) sub sup n]) := by
  simp only [run]
  cases reply solver asked (formula (compatible sub sup mode) sub sup n) with
  | error e => rfl
  | ok answer => cases answer <;> rfl

/-- How a run ends, as far as `holds` tells of the value that it ends with. -/
def judged {α : Type} (holds : α → Bool) (o : Except CheckError α × List String) :
    Except CheckError Bool × List String := (o.1.map holds, o.2)

theorem judged_pair (h : mode ≠ .bag) (results : List (String × Verdict)) (asked : List String) :
    judged (·.contained) (outcome (do
      let c ← (comparable sub sup mode : CheckM Bool)
      let verdict ← whole solver c sub sup n
      return verdict.withEndpoints results) asked) = run solver n [.pair mode sub sup] asked := by
  rw [comparable_eq h, outcome_bind, outcome_lift, run_pair]
  show judged _ (outcome (whole solver (compatible sub sup mode) sub sup n >>= _) asked) = _
  rw [outcome_bind, outcome_whole]
  cases reply solver asked (formula (compatible sub sup mode) sub sup n) with
  | error e => rfl
  | ok answer =>
    have hverdict : (wholeVerdict (compatible sub sup mode)
        (formula (compatible sub sup mode) sub sup n) answer).contained =
        decide (answer = .unsat) := by
      rw [Bool.eq_iff_iff, contained_wholeVerdict, decide_eq_true_iff]
    simp only [Except.map, outcome_pure, judged, contained_withEndpoints, hverdict]

mutual

/-- A check goes through its visits. -/
theorem judged_queries (solver : Solver) (n : Naming) :
    ∀ (mode : Multiplicity) (_ : mode ≠ .bag) (sub sup : ConjunctiveQuery Symbol)
      (asked : List String), judged (·.contained) (outcome (queries solver n mode sub sup) asked) =
        run solver n (visits mode sub sup) asked
  | mode, h, ⟨atoms, answer, other, services⟩, sup, asked => by
    unfold queries visits
    cases partners services sup.services with
    | error url => rfl
    | ok partners =>
      have hendpoints := judged_endpoints solver n services partners asked
      simp only [outcome_bind, run_append, ← hendpoints]
      cases outcome (endpoints solver n services partners) asked with
      | mk result between =>
        cases result with
        | error e => rfl
        | ok found =>
          obtain ⟨failed, results⟩ := found
          cases failed with
          | some url => rfl
          | none => exact judged_pair h results between

theorem judged_endpoints (solver : Solver) (n : Naming) :
    ∀ (services : List (String × ConjunctiveQuery Symbol))
      (partners : List (ConjunctiveQuery Symbol)) (asked : List String),
      judged (·.1.isNone) (outcome (endpoints solver n services partners) asked) =
        run solver n (endpointVisits services partners) asked
  | [], partners, asked => by
    unfold endpoints endpointVisits
    rfl
  | _ :: _, [], asked => by
    unfold endpoints endpointVisits
    rfl
  | (url, sub) :: rest, sup :: partners, asked => by
    have hquery := judged_queries solver n .set (by decide) sub sup asked
    unfold endpoints endpointVisits
    rw [outcome_bind, run_append, ← hquery]
    cases outcome (queries solver n .set sub sup) asked with
    | mk result between =>
      cases result with
      | error e => rfl
      | ok verdict =>
        -- only a verdict that is positive leads on to the next endpoint
        cases hv : verdict.contained with
        | false => simp [hv, judged, Except.map, outcome_pure]
        | true =>
          have hrest := judged_endpoints solver n rest partners between
          simp only [hv, judged, Except.map, if_true, outcome_bind] at hrest ⊢
          rw [← hrest]
          cases outcome (endpoints solver n rest partners) between with
          | mk result' between' => cases result' <;> rfl

end

/-- The solver refutes each formula of a list, where it is asked for one after the other. -/
def Refutes (solver : Solver) (asked formulas : List String) : Prop :=
  ∀ before next after, formulas = before ++ next :: after →
    reply solver (asked ++ before) next = .ok .unsat

theorem refutes_nil (solver : Solver) (asked : List String) : Refutes solver asked [] := by
  intro before next after h
  simp at h

theorem refutes_cons {next : String} {rest : List String} :
    Refutes solver asked (next :: rest) ↔
      reply solver asked next = .ok .unsat ∧ Refutes solver (asked ++ [next]) rest := by
  constructor
  · intro h
    refine ⟨by simpa using h [] next rest rfl, fun before f after heq => ?_⟩
    have := h (next :: before) f after (by rw [heq, List.cons_append])
    rwa [List.append_assoc]
  · rintro ⟨hnext, hrest⟩ before f after heq
    cases before with
    | nil =>
      obtain ⟨rfl, rfl⟩ := List.cons.inj heq
      simpa using hnext
    | cons g before =>
      rw [List.cons_append, List.cons.injEq] at heq
      obtain ⟨rfl, heq⟩ := heq
      simpa using hrest before f after heq

theorem run_of_refuted {rest : List Visit}
    (h : reply solver asked (formula (compatible sub sup mode) sub sup n) = .ok .unsat) :
    run solver n (.pair mode sub sup :: rest) asked =
      run solver n rest (asked ++ [formula (compatible sub sup mode) sub sup n]) := by
  simp only [run, h]

/-- Any other reply ends the run. -/
theorem run_of_not_refuted {rest : List Visit}
    (h : reply solver asked (formula (compatible sub sup mode) sub sup n) ≠ .ok .unsat) :
    run solver n (.pair mode sub sup :: rest) asked =
      ((reply solver asked (formula (compatible sub sup mode) sub sup n)).map fun _ => false,
        asked ++ [formula (compatible sub sup mode) sub sup n]) := by
  simp only [run]
  cases hr : reply solver asked (formula (compatible sub sup mode) sub sup n) with
  | error e => rfl
  | ok answer =>
    cases answer with
    | sat => rfl
    | unsat => exact absurd hr h

/--
Either all formulas are refuted, or the run ends with the first one that is not, and as the reply to
it says.
-/
theorem run_spec (solver : Solver) (n : Naming) (l : List Visit) (asked : List String) :
    (Refutes solver asked (formulasOf n l) ∧
      run solver n l asked = (.ok (!l.any Visit.isMissing), asked ++ formulasOf n l)) ∨
    ∃ before next after, formulasOf n l = before ++ next :: after ∧
      Refutes solver asked before ∧ reply solver (asked ++ before) next ≠ .ok .unsat ∧
      run solver n l asked = ((reply solver (asked ++ before) next).map fun _ => false,
        asked ++ before ++ [next]) := by
  induction l generalizing asked with
  | nil => exact .inl ⟨refutes_nil solver asked, by simp [run, formulasOf]⟩
  | cons visit l ih =>
    cases visit with
    | missing url =>
      exact .inl ⟨refutes_nil solver asked, by simp [run, formulasOf, Visit.isMissing]⟩
    | pair mode sub sup =>
      by_cases hr : reply solver asked (formula (compatible sub sup mode) sub sup n) = .ok .unsat
      -- the run goes on as that of the rest, with one more formula asked
      · rw [run_of_refuted hr, formulasOf]
        rcases ih (asked ++ [formula (compatible sub sup mode) sub sup n]) with
          ⟨hall, hrun⟩ | ⟨before, next, after, hl, hbefore, hnext, hrun⟩
        · refine .inl ⟨refutes_cons.2 ⟨hr, hall⟩, ?_⟩
          rw [hrun, List.append_assoc, List.singleton_append]
          rfl
        · refine .inr ⟨_ :: before, next, after, by rw [hl, List.cons_append],
            refutes_cons.2 ⟨hr, hbefore⟩, ?_⟩
          simpa using And.intro hnext hrun
      · rw [run_of_not_refuted hr]
        exact .inr ⟨[], _, formulasOf n l, rfl, refutes_nil solver asked, by simpa using hr,
          by simp⟩

/-- Nothing is asked for that is not in the plan. -/
theorem exists_asked (hmode : mode ≠ .bag) (solver : Solver) (asked : List String) : ∃ new,
    (outcome (queries solver n mode sub sup) asked).2 = asked ++ new ∧
      ∀ f ∈ new, f ∈ plan n mode sub sup := by
  have hjudged := congrArg Prod.snd (judged_queries solver n mode hmode sub sup asked)
  rcases run_spec solver n (visits mode sub sup) asked with
    ⟨-, hrun⟩ | ⟨before, next, after, hplan, -, -, hrun⟩
  · rw [hrun] at hjudged
    exact ⟨_, hjudged, fun f hf => hf⟩
  · rw [hrun, List.append_assoc] at hjudged
    refine ⟨_, hjudged, fun f hf => ?_⟩
    rw [plan, hplan]
    have hf : f ∈ before ∨ f = next := by simpa using hf
    rcases hf with hf | rfl <;> simp [*]

/-- A verdict where the run ends well, and the same error where it does not. -/
theorem of_map_eq {α β ε : Type} {f : α → β} {x : Except ε α} {y : Except ε β}
    (h : x.map f = y) :
    (∀ b, y = .ok b → ∃ a, x = .ok a ∧ f a = b) ∧ ∀ e, y = .error e → x = .error e := by
  subst h
  cases x <;> simp [Except.map]

/-- Where no endpoint is missing and each formula is refuted in its turn, all are asked. -/
theorem outcome_of_refutes (hmode : mode ≠ .bag)
    (hpairs : ∀ visit ∈ visits mode sub sup, visit.isMissing = false)
    (h : Refutes solver asked (plan n mode sub sup)) : ∃ v,
      outcome (queries solver n mode sub sup) asked = (.ok v, asked ++ plan n mode sub sup) ∧
        v.contained := by
  have hjudged := judged_queries solver n mode hmode sub sup asked
  rcases run_spec solver n (visits mode sub sup) asked with
    ⟨-, hrun⟩ | ⟨before, next, after, hplan, -, hnext, -⟩
  · have hnone : (visits mode sub sup).any Visit.isMissing = false :=
      List.any_eq_false.2 fun visit hvisit => by simp [hpairs visit hvisit]
    rw [hrun, hnone, judged, Prod.mk.injEq] at hjudged
    obtain ⟨v, hv, hcontained⟩ := (of_map_eq hjudged.1).1 true rfl
    exact ⟨v, Prod.ext hv hjudged.2, hcontained⟩
  · exact absurd (h before next after hplan) hnext

/-- So the verdict is positive if each formula is refuted, whatever was asked before. -/
theorem contained_of_refuted (hmode : mode ≠ .bag)
    (hpairs : ∀ visit ∈ visits mode sub sup, visit.isMissing = false)
    (hrefuted : ∀ f ∈ plan n mode sub sup, ∀ asked, reply solver asked f = .ok .unsat) : ∃ v,
      (outcome (queries solver n mode sub sup) asked).1 = .ok v ∧ v.contained := by
  have hall : Refutes solver asked (plan n mode sub sup) := fun before next after hplan =>
    hrefuted next (by simp [hplan]) _
  obtain ⟨v, hrun, hv⟩ := outcome_of_refutes hmode hpairs hall
  exact ⟨v, congrArg Prod.fst hrun, hv⟩

theorem reply_eq (solver : Solver) (asked : List String) (next : String) :
    reply solver asked next = (solver asked next >>= Smt.Answer.ofReply).mapError .solver := rfl

/--
A check of any two queries, whatever the solver replies and however its replies depend on what it
was asked before. Either the solver refutes all formulas of the plan; they have been asked in that
order, and the verdict is positive unless the plan is cut. Or the formulas asked are those of the
plan up to the first one that is not refuted; if the reply to it is no answer, or there is none, the
check fails for that reason, and if it is `sat`, the verdict is negative.
-/
theorem check_runs_plan (hmode : mode ≠ .bag) (n : Naming) (sub sup : ConjunctiveQuery Symbol)
    (solver : Solver) (asked : List String) :
    (Refutes solver asked (plan n mode sub sup) ∧
      (outcome (queries solver n mode sub sup) asked).2 = asked ++ plan n mode sub sup ∧
      ∃ v, (outcome (queries solver n mode sub sup) asked).1 = .ok v ∧
        v.contained = !planIsCut mode sub sup) ∨
    ∃ before next after, plan n mode sub sup = before ++ next :: after ∧
      Refutes solver asked before ∧
      (outcome (queries solver n mode sub sup) asked).2 = asked ++ before ++ [next] ∧
      ((∃ failure, solver (asked ++ before) next >>= Smt.Answer.ofReply = .error failure ∧
        (outcome (queries solver n mode sub sup) asked).1 = .error (.solver failure)) ∨
      (solver (asked ++ before) next >>= Smt.Answer.ofReply = .ok .sat ∧
        ∃ v, (outcome (queries solver n mode sub sup) asked).1 = .ok v ∧
          v.contained = false)) := by
  have hjudged := judged_queries solver n mode hmode sub sup asked
  rcases run_spec solver n (visits mode sub sup) asked with
    ⟨hall, hrun⟩ | ⟨before, next, after, hplan, hbefore, hnext, hrun⟩
  · rw [hrun, judged, Prod.mk.injEq] at hjudged
    exact .inl ⟨hall, hjudged.2, (of_map_eq hjudged.1).1 _ rfl⟩
  · rw [hrun, judged, Prod.mk.injEq] at hjudged
    obtain ⟨hresult, hasked⟩ := hjudged
    refine .inr ⟨before, next, after, hplan, hbefore, hasked, ?_⟩
    rw [reply_eq] at hnext hresult
    cases hr : solver (asked ++ before) next >>= Smt.Answer.ofReply with
    | error failure =>
      rw [hr] at hresult
      exact .inl ⟨failure, rfl, (of_map_eq hresult).2 _ rfl⟩
    | ok answer =>
      rw [hr] at hnext hresult
      cases answer with
      | sat => exact .inr ⟨rfl, (of_map_eq hresult).1 _ rfl⟩
      | unsat => exact absurd rfl hnext

def stepThere : ConjunctiveQuery Symbol :=
  ⟨[⟨⟨.var, "x"⟩, ⟨.iri, "p"⟩, ⟨.var, "y"⟩, none⟩], [], ["x", "y"], []⟩

/-- A step that is taken at an endpoint. -/
def remoteStep : ConjunctiveQuery Symbol :=
  ⟨[⟨⟨.var, "x"⟩, ⟨.iri, "p"⟩, ⟨.var, "y"⟩, some ⟨.iri, "e"⟩⟩], ["x"], ["y"], [("e", stepThere)]⟩

/-- A solver that is sure of the first formula only. -/
def unsure : Solver := fun asked _ => .ok (if asked.isEmpty then "unsat" else "unknown")

theorem check_runs_plan_unsure :
    (plan .empty .bagSet remoteStep remoteStep).length = 2 ∧
    (outcome (queries unsure .empty .bagSet remoteStep remoteStep) []).2 =
      plan .empty .bagSet remoteStep remoteStep ∧
    (outcome (queries unsure .empty .bagSet remoteStep remoteStep) []).1 =
      .error (.solver (.unexpectedReply "unknown")) := by
  have hvisits : visits .bagSet remoteStep remoteStep =
      [.pair .set stepThere stepThere, .pair .bagSet remoteStep remoteStep] := rfl
  obtain ⟨first, second, hplan⟩ : ∃ first second,
      plan .empty .bagSet remoteStep remoteStep = [first, second] := by
    simp only [plan, hvisits, formulasOf]
    exact ⟨_, _, rfl⟩
  have hunsat (f : String) : unsure [] f >>= Smt.Answer.ofReply = .ok .unsat := rfl
  have hunknown (f g : String) : unsure [f] g >>= Smt.Answer.ofReply =
      .error (.unexpectedReply "unknown") := by
    have hreply : unsure [f] g = .ok "unknown" := by simp [unsure]
    have hline : Text.trim (Text.firstLine (Text.trimStart "unknown".toList)) =
      "unknown".toList := by decide
    have htrim : Text.trim "unknown".toList = "unknown".toList := by decide
    rw [hreply]
    show Smt.Answer.ofReply "unknown" = _
    rw [Smt.Answer.ofReply, hline, htrim, String.ofList_toList]
    rfl
  have hmode : Multiplicity.bagSet ≠ .bag := by decide
  rcases check_runs_plan hmode .empty remoteStep remoteStep unsure []
    with ⟨hall, -, -⟩ | ⟨before, next, after, hsplit, -, hasked, hend⟩
  · have hsecond := hall [first] second [] hplan
    rw [reply_eq, List.nil_append, hunknown] at hsecond
    cases hsecond
  · rw [hplan] at hsplit ⊢
    rw [List.nil_append] at hend hasked
    cases before with
    | nil =>
      rw [hunsat] at hend
      simp at hend
    | cons f before =>
      obtain ⟨rfl, hsplit⟩ : first = f ∧ [second] = before ++ next :: after := by
        simpa using hsplit
      obtain ⟨rfl, rfl⟩ : before = [] ∧ second = next := by
        cases before <;> simp_all
      rw [hunknown] at hend
      exact ⟨rfl, hasked, by simpa using hend⟩

mutual

/-- The pairs in the order in which they would come, were each partner looked for in its turn. -/
def postOrder (mode : Multiplicity) :
    ConjunctiveQuery Symbol → ConjunctiveQuery Symbol → List Visit
  | ⟨atoms, answer, other, services⟩, sup =>
    servicePostOrder services sup.services ++ [.pair mode ⟨atoms, answer, other, services⟩ sup]

def servicePostOrder : List (String × ConjunctiveQuery Symbol) →
    List (String × ConjunctiveQuery Symbol) → List Visit
  | [], _ => []
  | (url, sub) :: rest, supServices =>
    match lookupLast url supServices with
    | some sup => postOrder .set sub sup ++ servicePostOrder rest supServices
    | none => .missing url :: servicePostOrder rest supServices

end

/-- A step that is taken at two endpoints. -/
def remoteSteps : ConjunctiveQuery Symbol :=
  ⟨[⟨⟨.var, "x"⟩, ⟨.iri, "p"⟩, ⟨.var, "y"⟩, some ⟨.iri, "e"⟩⟩,
    ⟨⟨.var, "x"⟩, ⟨.iri, "p"⟩, ⟨.var, "y"⟩, some ⟨.iri, "f"⟩⟩], ["x"], ["y"],
    [("e", stepThere), ("f", stepThere)]⟩

/-- A solver that is never done. -/
def slow : Solver := fun _ _ => .error (.timeout 1000)

/--
The post-order up to the first endpoint that is missing has a formula, that of the endpoint before.
It is not asked for: the verdict is negative although the solver would not have answered.
-/
theorem postOrder_not_asked :
    (formulasOf .empty (postOrder .set remoteSteps remoteStep)).length = 1 ∧
    (∀ asked f, slow asked f >>= Smt.Answer.ofReply = .error (.timeout 1000)) ∧
    (outcome (queries slow .empty .set remoteSteps remoteStep) []).2 = [] ∧
    ∃ v, (outcome (queries slow .empty .set remoteSteps remoteStep) []).1 = .ok v ∧
      v.contained = false :=
  ⟨rfl, fun _ _ => rfl, rfl, _, rfl, rfl⟩

end Check

end QueryContainment
