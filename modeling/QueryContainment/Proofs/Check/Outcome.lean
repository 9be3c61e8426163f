import QueryContainment.Check.Decision

namespace QueryContainment

variable {α β : Type}

/-- The outcome of a run, with the formulas asked by then. -/
def CheckM.outcome (x : CheckM α) (asked : List String) : Except CheckError α × List String :=
  Id.run (x.run.run asked)

namespace CheckM

theorem outcome_pure (a : α) (asked : List String) :
    outcome (pure a) asked = (.ok a, asked) := rfl

theorem outcome_lift (x : Except CheckError α) (asked : List String) :
    outcome (liftM x : CheckM α) asked = (x, asked) := rfl

theorem outcome_bind (x : CheckM α) (f : α → CheckM β) (asked : List String) :
    outcome (x >>= f) asked = match outcome x asked with
      | (.ok a, asked') => outcome (f a) asked'
      | (.error e, asked') => (.error e, asked') := by
  unfold outcome
  rw [ExceptT.run_bind, StateT.run_bind]
  rcases x.run.run asked with ⟨result, between⟩
  cases result <;> rfl

/-- A run that ends well ends well in its parts. -/
theorem outcome_bind_eq_ok {x : CheckM α} {f : α → CheckM β} {asked asked' : List String} {b : β}
    (h : outcome (x >>= f) asked = (.ok b, asked')) : ∃ a between,
      outcome x asked = (.ok a, between) ∧ outcome (f a) between = (.ok b, asked') := by
  rw [outcome_bind] at h
  cases hx : outcome x asked with
  | mk result between =>
    cases result with
    | error e => simp [hx] at h
    | ok a =>
      rw [hx] at h
      exact ⟨a, between, rfl, h⟩

end CheckM

namespace Check

open CheckM

variable {solver : Solver} {n : Naming} {mode : Multiplicity}
  {sub sup : ConjunctiveQuery Symbol} {asked asked' : List String} {v : Verdict}

/-- What the solver says to a formula. -/
def reply (solver : Solver) (asked : List String) (formula : String) :
    Except CheckError Smt.Answer :=
  (solver asked formula >>= Smt.Answer.ofReply).mapError .solver

theorem outcome_ask (solver : Solver) (formula : String) (asked : List String) :
    outcome (ask solver formula) asked = (reply solver asked formula, asked ++ [formula]) := by
  unfold ask reply
  rw [outcome_bind]
  show outcome (set (asked ++ [formula]) >>= _) asked = _
  rw [outcome_bind]
  show outcome _ (asked ++ [formula]) = _
  cases solver asked formula >>= Smt.Answer.ofReply <;> rfl

/-- The script that is put to the solver for two queries. -/
def script (comparable : Bool) (sub sup : ConjunctiveQuery Symbol) (n : Naming) :
    Smt.Script Smt.Statement :=
  if comparable then Smt.countermodel sub sup n else Smt.solvability sub

/-- The verdict on two queries as a whole. -/
def wholeVerdict (comparable : Bool) (formula : String) (answer : Smt.Answer) : Verdict :=
  if comparable then Verdict.ofAnswer (answer = .unsat) formula
  else (Verdict.ofAnswer (answer = .unsat) formula).because differentAnswers

theorem contained_wholeVerdict (comparable : Bool) (formula : String) (answer : Smt.Answer) :
    (wholeVerdict comparable formula answer).contained = true ↔ answer = .unsat := by
  cases comparable <;> simp [wholeVerdict, Verdict.ofAnswer, Verdict.because]

theorem outcome_whole (solver : Solver) (comparable : Bool) (sub sup : ConjunctiveQuery Symbol)
    (n : Naming) (asked : List String) :
    outcome (whole solver comparable sub sup n) asked =
      ((reply solver asked (formula comparable sub sup n)).map
          (wholeVerdict comparable (formula comparable sub sup n)),
        asked ++ [formula comparable sub sup n]) := by
  unfold whole
  rw [outcome_bind, outcome_ask]
  cases reply solver asked (formula comparable sub sup n) with
  | error e => rfl
  | ok answer => cases comparable <;> rfl

theorem contained_withEndpoints (v : Verdict) (results : List (String × Verdict)) :
    (v.withEndpoints results).contained = v.contained := rfl

/--
How a check comes to a verdict: an endpoint is missing, or one is not contained, or all endpoints
have been checked and the solver answers for the queries as a whole.
-/
inductive Concludes (solver : Solver) (n : Naming) (mode : Multiplicity)
    (sub sup : ConjunctiveQuery Symbol) (asked : List String) : Verdict → List String → Prop
  | missing {url : String} (missing : partners sub.services sup.services = .error url) :
    Concludes solver n mode sub sup asked (missingEndpoint url) asked
  | stopped {found : List (ConjunctiveQuery Symbol)} {url : String}
    {results : List (String × Verdict)} {asked' : List String}
    (paired : partners sub.services sup.services = .ok found)
    (checks : outcome (endpoints solver n sub.services found) asked =
      (.ok (some url, results), asked')) :
    Concludes solver n mode sub sup asked ((endpointNotContained url).withEndpoints results) asked'
  | decided {found : List (ConjunctiveQuery Symbol)} {results : List (String × Verdict)}
    {between : List String} {c : Bool} {answer : Smt.Answer}
    (paired : partners sub.services sup.services = .ok found)
    (checks : outcome (endpoints solver n sub.services found) asked =
      (.ok (none, results), between))
    (compared : comparable sub sup mode = .ok c)
    (replied : reply solver between (formula c sub sup n) = .ok answer) :
    Concludes solver n mode sub sup asked
      ((wholeVerdict c (formula c sub sup n) answer).withEndpoints results)
      (between ++ [formula c sub sup n])

theorem concludes_of_outcome
    (h : outcome (queries solver n mode sub sup) asked = (.ok v, asked')) :
    Concludes solver n mode sub sup asked v asked' := by
  obtain ⟨atoms, answer, other, services⟩ := sub
  unfold queries at h
  cases hp : partners services sup.services with
  | error url =>
    rw [hp, outcome_pure, Prod.mk.injEq, Except.ok.injEq] at h
    obtain ⟨rfl, rfl⟩ := h
    exact .missing hp
  | ok found =>
    -- the endpoints are asked first, and then the queries as a whole
    rw [hp] at h
    obtain ⟨⟨failed, results⟩, between, hchecks, h⟩ := outcome_bind_eq_ok h
    cases failed with
    | some url =>
      rw [outcome_pure, Prod.mk.injEq, Except.ok.injEq] at h
      obtain ⟨rfl, rfl⟩ := h
      exact .stopped hp hchecks
    | none =>
      obtain ⟨c, between', hc, h⟩ := outcome_bind_eq_ok h
      rw [outcome_lift, Prod.mk.injEq] at hc
      obtain ⟨hc, rfl⟩ := hc
      obtain ⟨verdict, last, hverdict, h⟩ := outcome_bind_eq_ok h
      rw [outcome_whole, Prod.mk.injEq] at hverdict
      obtain ⟨hreply, rfl⟩ := hverdict
      rw [outcome_pure, Prod.mk.injEq, Except.ok.injEq] at h
      obtain ⟨rfl, rfl⟩ := h
      cases hr : reply solver between (formula c ⟨atoms, answer, other, services⟩ sup n) with
      | error e => simp [hr, Except.map] at hreply
      | ok answer =>
        rw [hr, Except.map, Except.ok.injEq] at hreply
        subst hreply
        exact .decided hp hchecks hc hr

/-- Where the verdict is positive, the formula of the whole queries was found to have no model. -/
theorem reply_of_contained
    (h : outcome (queries solver n mode sub sup) asked = (.ok v, asked')) (hv : v.contained) :
    ∃ c between, comparable sub sup mode = .ok c ∧
      reply solver between (formula c sub sup n) = .ok .unsat := by
  cases concludes_of_outcome h with
  | missing => cases hv
  | stopped => cases hv
  | decided _ _ hc hreply =>
    rw [contained_withEndpoints, contained_wholeVerdict] at hv
    exact ⟨_, _, hc, hv ▸ hreply⟩

/-- Without endpoints, only the queries as a whole are checked. -/
theorem outcome_queries_of_no_services (h : sub.services = []) :
    outcome (queries solver n mode sub sup) asked = outcome (do
      let c ← (comparable sub sup mode : CheckM Bool)
      let verdict ← whole solver c sub sup n
      return verdict.withEndpoints []) asked := by
  obtain ⟨atoms, answer, other, services⟩ := sub
  obtain rfl : services = [] := h
  have hnone : endpoints solver n [] [] = pure (none, []) := by simp [endpoints]
  rw [queries, partners]
  show outcome (endpoints solver n [] [] >>= _) asked = _
  rw [outcome_bind, hnone, outcome_pure]

theorem contained_of_reply {c : Bool} (hs : sub.services = [])
    (hc : comparable sub sup mode = .ok c)
    (hr : reply solver asked (formula c sub sup n) = .ok .unsat) :
    ∃ v, (outcome (queries solver n mode sub sup) asked).1 = .ok v ∧ v.contained := by
  refine ⟨(wholeVerdict c (formula c sub sup n) .unsat).withEndpoints [], ?_,
    (contained_wholeVerdict _ _ _).2 rfl⟩
  rw [outcome_queries_of_no_services hs, hc, outcome_bind, outcome_lift]
  show (outcome (whole solver c sub sup n >>= _) asked).1 = _
  rw [outcome_bind, outcome_whole, hr]
  rfl

/-- The table that two queries leave, read one after the other. -/
def table (q q' : Query) : Naming := ((Naming.empty.readQuery q).2.readQuery q').2

/-- Both queries are read to their end, one after the other. -/
structure Reads (q q' : Query) (s t : ConjunctiveQuery Symbol) : Prop where
  sub : (Naming.empty.readQuery q).1 = .ok s
  sup : ((Naming.empty.readQuery q).2.readQuery q').1 = .ok t

theorem outcome_read (solver : Solver) (mode : Multiplicity) (q q' : Query) (asked : List String) :
    outcome (read solver mode q q') asked = outcome (do
      let s ← ((Naming.empty.readQuery q).1.mapError .outside : Except CheckError _)
      let t ← (((Naming.empty.readQuery q).2.readQuery q').1.mapError .outside :
        Except CheckError _)
      queries solver (table q q') mode s t) asked := rfl

theorem outcome_read_of_reads {q q' : Query} {s t : ConjunctiveQuery Symbol} (h : Reads q q' s t) :
    outcome (read solver mode q q') asked =
      outcome (queries solver (table q q') mode s t) asked := by
  rw [outcome_read, h.sub, h.sup]
  rfl

theorem eq_ok_of_mapError {ε ε' : Type} {f : ε → ε'} {x : Except ε α} {a : α}
    (h : x.mapError f = .ok a) : x = .ok a := by
  cases x with
  | error e => cases h
  | ok b => rw [Except.ok.inj h]

/-- A check that ends with a verdict has read both queries. -/
theorem reads_of_contained {q q' : Query}
    (h : outcome (contained solver mode q q') asked = (.ok v, asked')) : ∃ s t m,
      Reads q q' s t ∧ outcome (queries solver (table q q') m s t) asked = (.ok v, asked') := by
  unfold contained at h
  obtain ⟨m, between, hmode, h⟩ := outcome_bind_eq_ok h
  rw [outcome_lift, Prod.mk.injEq] at hmode
  obtain ⟨-, rfl⟩ := hmode
  have hread := h
  rw [outcome_read] at h
  obtain ⟨s, between, hs, h⟩ := outcome_bind_eq_ok h
  obtain ⟨t, between', ht, -⟩ := outcome_bind_eq_ok h
  have hreads : Reads q q' s t :=
    ⟨eq_ok_of_mapError (congrArg Prod.fst hs), eq_ok_of_mapError (congrArg Prod.fst ht)⟩
  rw [outcome_read_of_reads hreads] at hread
  exact ⟨s, t, m, hreads, hread⟩

/-- Two queries that are read are checked in the mode that is in effect. -/
theorem outcome_contained_of_effective {m : Multiplicity} {q q' : Query}
    {s t : ConjunctiveQuery Symbol} (hm : effective q mode = .ok m) (h : Reads q q' s t) :
    outcome (contained solver mode q q') asked =
      outcome (queries solver (table q q') m s t) asked := by
  rw [contained, hm]
  exact outcome_read_of_reads h

theorem outcome_contained_set {q q' : Query} {s t : ConjunctiveQuery Symbol} (h : Reads q q' s t) :
    outcome (contained solver .set q q') asked =
      outcome (queries solver (table q q') .set s t) asked :=
  outcome_contained_of_effective rfl h

theorem exists_effective (hmode : mode ≠ .bag) (q : Query) : ∃ m, effective q mode = .ok m := by
  cases mode with
  | bag => exact absurd rfl hmode
  | _ => exact ⟨_, rfl⟩

theorem ne_bag_of_effective {m : Multiplicity} {q : Query} (hm : effective q mode = .ok m) :
    m ≠ .bag := by
  cases mode with
  | set =>
    obtain rfl := Except.ok.inj hm
    decide
  | bagSet =>
    obtain rfl := Except.ok.inj hm
    split <;> decide
  | bag => simp [effective] at hm

/-- Queries that are read are checked as sets or with repetitions in the super-query. -/
theorem outcome_contained (hmode : mode ≠ .bag) {q q' : Query} {s t : ConjunctiveQuery Symbol}
    (h : Reads q q' s t) : ∃ m, m ≠ .bag ∧ ∀ solver asked,
      outcome (contained solver mode q q') asked =
        outcome (queries solver (table q q') m s t) asked := by
  obtain ⟨m, hm⟩ := exists_effective hmode q
  exact ⟨m, ne_bag_of_effective hm, fun _ _ => outcome_contained_of_effective hm h⟩

/-- Nothing is asked unless both texts are queries. -/
theorem outcome_containedText (solver : Solver) (mode : Multiplicity) (sub sup : String)
    (asked : List String) : outcome (containedText solver mode sub sup) asked =
      match Sparql.ofText? sub, Sparql.ofText? sup with
      | some q, some q' => outcome (contained solver mode q q') asked
      | _, _ => (.error .malformedText, asked) := by
  unfold containedText readText
  rw [outcome_bind, outcome_lift]
  cases Sparql.ofText? sub with
  | none => rfl
  | some q =>
    show outcome (liftM _ >>= _) asked = _
    rw [outcome_bind, outcome_lift]
    cases Sparql.ofText? sup <;> rfl

end Check

end QueryContainment
