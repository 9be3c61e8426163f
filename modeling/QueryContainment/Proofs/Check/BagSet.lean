import QueryContainment.Proofs.Check.Transitivity

namespace QueryContainment

open Naming ConjunctiveQuery

namespace Check

open CheckM

variable {solver solver' : Solver} {n : Naming} {mode mode' : Multiplicity}
  {sub sup : ConjunctiveQuery Symbol} {asked asked' last last' : List String} {v v' : Verdict}

theorem result_bind_congr {α β : Type} {x x' : CheckM α} {f f' : α → CheckM β}
    (hx : (outcome x asked).1 = (outcome x' asked').1)
    (hf : ∀ a between between', (outcome (f a) between).1 = (outcome (f' a) between').1) :
    (outcome (x >>= f) asked).1 = (outcome (x' >>= f') asked').1 := by
  rw [outcome_bind, outcome_bind]
  cases hrun : outcome x asked with
  | mk result between =>
    cases hrun' : outcome x' asked' with
    | mk result' between' =>
      rw [hrun, hrun'] at hx
      obtain rfl : result = result' := hx
      cases result with
      | error e => rfl
      | ok a => exact hf a between between'

theorem reply_formula_congr (hsolver : solver.Decides) (hsolver' : solver'.Decides) (hn : n.Sound)
    (hsub : sub.NamedBy n) (hsup : sup.NamedBy n) {c : Bool} (hc : c = true → sub.sameAnswer sup)
    (asked asked' : List String) :
    reply solver asked (formula c sub sup n) = reply solver' asked' (formula c sub sup n) := by
  have hiff : reply solver asked (formula c sub sup n) = .ok .unsat ↔
      reply solver' asked' (formula c sub sup n) = .ok .unsat :=
    (reply_formula_iff hsolver hn hsub hsup hc).trans
      (reply_formula_iff hsolver' hn hsub hsup hc).symm
  have hclosed := closed_script hn hsub hsup hc
  obtain ⟨answer, hreply⟩ : ∃ answer, reply solver asked (formula c sub sup n) = .ok answer :=
    exists_reply hsolver hclosed asked
  obtain ⟨answer', hreply'⟩ : ∃ answer, reply solver' asked' (formula c sub sup n) = .ok answer :=
    exists_reply hsolver' hclosed asked'
  rw [hreply, hreply'] at hiff ⊢
  cases answer <;> cases answer' <;> simp_all

theorem result_whole_congr (hsolver : solver.Decides) (hsolver' : solver'.Decides) (hn : n.Sound)
    (hsub : sub.NamedBy n) (hsup : sup.NamedBy n) (results : List (String × Verdict))
    (asked asked' : List String) :
    (outcome (do
      let c ← (comparable sub sup mode : CheckM Bool)
      let verdict ← whole solver c sub sup n
      return verdict.withEndpoints results) asked).1 =
    (outcome (do
      let c ← (comparable sub sup mode : CheckM Bool)
      let verdict ← whole solver' c sub sup n
      return verdict.withEndpoints results) asked').1 := by
  rw [outcome_bind, outcome_bind, outcome_lift, outcome_lift]
  cases hc : comparable sub sup mode with
  | error e => rfl
  | ok c =>
    have hsame (htrue : c = true) : sub.sameAnswer sup := sameAnswer_of_comparable (htrue ▸ hc)
    refine result_bind_congr ?_ fun _ _ _ => rfl
    rw [outcome_whole, outcome_whole,
      reply_formula_congr hsolver hsolver' hn hsub hsup hsame asked asked']

theorem namedBy_of_partners {services : List (String × ConjunctiveQuery Symbol)}
    {found : List (ConjunctiveQuery Symbol)} (hp : partners services sup.services = .ok found)
    (hsup : ∀ part ∈ sup.parts, part.NamedBy n) :
    ∀ p ∈ found, ∀ part ∈ p.parts, part.NamedBy n := by
  intro p hmem part hpart
  obtain ⟨url, hurl⟩ := mem_of_partners hp hmem
  exact hsup part (mem_parts_of_service hurl hpart)

mutual

theorem result_queries_congr (hsolver : solver.Decides) (hsolver' : solver'.Decides)
    (hn : n.Sound) : ∀ (mode : Multiplicity) (sub sup : ConjunctiveQuery Symbol)
      (_ : ∀ part ∈ sub.parts, part.NamedBy n) (_ : ∀ part ∈ sup.parts, part.NamedBy n)
      (asked asked' : List String),
      (outcome (queries solver n mode sub sup) asked).1 =
        (outcome (queries solver' n mode sub sup) asked').1
  | mode, ⟨atoms, answer, other, services⟩, sup, hsub, hsup, asked, asked' => by
    unfold queries
    cases hp : partners services sup.services with
    | error url => rfl
    | ok found =>
      have hservices (part : ConjunctiveQuery Symbol) (hpart : part ∈ partsOf services) :
          part.NamedBy n := hsub part (List.mem_cons_of_mem _ hpart)
      refine result_bind_congr (result_endpoints_congr hsolver hsolver' hn services found hservices
        (namedBy_of_partners hp hsup) asked asked') fun checked between between' => ?_
      obtain ⟨failed, results⟩ := checked
      cases failed with
      | some url => rfl
      | none =>
        exact result_whole_congr hsolver hsolver' hn (hsub _ (self_mem_parts _))
          (hsup _ sup.self_mem_parts) results between between'

theorem result_endpoints_congr (hsolver : solver.Decides) (hsolver' : solver'.Decides)
    (hn : n.Sound) : ∀ (services : List (String × ConjunctiveQuery Symbol))
      (found : List (ConjunctiveQuery Symbol))
      (_ : ∀ part ∈ partsOf services, part.NamedBy n)
      (_ : ∀ p ∈ found, ∀ part ∈ p.parts, part.NamedBy n) (asked asked' : List String),
      (outcome (endpoints solver n services found) asked).1 =
        (outcome (endpoints solver' n services found) asked').1
  | [], found, _, _, asked, asked' => by
    unfold endpoints
    rfl
  | _ :: _, [], _, _, asked, asked' => by
    unfold endpoints
    rfl
  | (url, sub) :: rest, sup :: found, hservices, hfound, asked, asked' => by
    have hsub (part : ConjunctiveQuery Symbol) (hpart : part ∈ sub.parts) : part.NamedBy n :=
      hservices part (List.mem_append_left _ hpart)
    unfold endpoints
    refine result_bind_congr (result_queries_congr hsolver hsolver' hn .set sub sup hsub
      (hfound sup List.mem_cons_self) asked asked') fun verdict between between' => ?_
    cases verdict.contained with
    | false => rfl
    | true =>
      refine result_bind_congr (result_endpoints_congr hsolver hsolver' hn rest found
        (fun part hpart => hservices part (List.mem_append_right _ hpart))
        (fun p hp => hfound p (List.mem_cons_of_mem _ hp)) between between') fun _ _ _ => rfl

end

def endpointVerdicts (solver : Solver) (n : Naming) (sub sup : ConjunctiveQuery Symbol)
    (asked : List String) : List (String × Verdict) :=
  match partners sub.services sup.services with
  | .error _ => []
  | .ok found =>
    match (outcome (endpoints solver n sub.services found) asked).1 with
    | .ok (_, results) => Verdict.byEndpoint results
    | .error _ => []

theorem Concludes.endpoints_eq (h : Concludes solver n mode sub sup asked v last) :
    v.endpoints = endpointVerdicts solver n sub sup asked := by
  unfold endpointVerdicts
  cases h with
  | missing hp => rw [hp]; rfl
  | stopped hp hrun => simp only [hp, hrun]; rfl
  | decided hp hrun _ _ => simp only [hp, hrun]; rfl

theorem endpointVerdicts_congr (hsolver : solver.Decides) (hsolver' : solver'.Decides)
    (hn : n.Sound) (hsub : ∀ part ∈ sub.parts, part.NamedBy n)
    (hsup : ∀ part ∈ sup.parts, part.NamedBy n) (asked asked' : List String) :
    endpointVerdicts solver n sub sup asked = endpointVerdicts solver' n sub sup asked' := by
  unfold endpointVerdicts
  cases hp : partners sub.services sup.services with
  | error url => rfl
  | ok found =>
    have hservices (part : ConjunctiveQuery Symbol) (hpart : part ∈ partsOf sub.services) :
        part.NamedBy n := hsub part (by rw [sub.parts_eq]; exact List.mem_cons_of_mem _ hpart)
    simp only [result_endpoints_congr hsolver hsolver' hn sub.services found hservices
      (namedBy_of_partners hp hsup) asked asked']

/-- Counting compares more variables than checking sets does, of the queries themselves only. -/
theorem forall_visits_bagSet_iff {s t : ConjunctiveQuery Symbol} :
    (∀ visit ∈ visits .bagSet s t, visit.HasMapping n) ↔
      (∀ visit ∈ visits .set s t, visit.HasMapping n) ∧ ∀ x ∈ s.vars, x ∈ t.vars := by
  have hcompatible : compatible s t .bagSet = true ↔
      compatible s t .set = true ∧ ∀ x ∈ s.vars, x ∈ t.vars := by
    simp [compatible, sameAnswerAndVariables]
  rw [forall_visits_iff Visit.not_hasMapping_missing, forall_visits_iff Visit.not_hasMapping_missing]
  simp only [Visit.HasMapping, hcompatible]
  tauto

/--
For any two queries that are read, and solvers that tell formulas with a model from those without
one, whatever they were asked before: both checks end with a verdict. The one that counts the
solutions of the super-query is positive exactly if the one on sets is, and the super-query uses all
variables of the sub-query, in case that the sub-query drops a variable. Both have the same verdicts
for the endpoints.
-/
theorem contained_bagSet_iff {q q' : Query} {s t : ConjunctiveQuery Symbol}
    (hsolver : solver.Decides) (hsolver' : solver'.Decides) (hreads : Reads q q' s t)
    (asked asked' : List String) : ∃ v v',
      (outcome (contained solver .set q q') asked).1 = .ok v ∧
      (outcome (contained solver' .bagSet q q') asked').1 = .ok v' ∧
      (v'.contained ↔ v.contained ∧ (q.dropsVariable → ∀ x ∈ s.vars, x ∈ t.vars)) ∧
      v'.endpoints = v.endpoints := by
  have hn := sound_table q q'
  have hmode : Multiplicity.bagSet ≠ .bag := by decide
  obtain ⟨m, hm⟩ := exists_effective hmode q
  obtain ⟨v, hv, hiff⟩ := hreads.contained_set_iff hsolver asked
  obtain ⟨v', hv', hiff'⟩ := hreads.contained_iff hsolver' hm asked'
  have hset : outcome (contained solver .set q q') asked = (.ok v, _) := Prod.ext hv rfl
  have hbagSet : outcome (contained solver' .bagSet q q') asked' = (.ok v', _) := Prod.ext hv' rfl
  refine ⟨v, v', hv, hv', ?_, ?_⟩
  · rw [hiff, hiff']
    -- the mode is the same if the sub-query drops nothing
    obtain rfl : (if q.dropsVariable then Multiplicity.bagSet else .set) = m := Except.ok.inj hm
    cases q.dropsVariable with
    | true => simp [forall_visits_bagSet_iff]
    | false => simp
  · rw [outcome_contained_set hreads] at hset
    rw [outcome_contained_of_effective hm hreads] at hbagSet
    calc v'.endpoints
        = endpointVerdicts solver' (table q q') s t asked' :=
          (concludes_of_outcome hbagSet).endpoints_eq
      _ = endpointVerdicts solver (table q q') s t asked :=
          endpointVerdicts_congr hsolver' hsolver hn hreads.namedBy_parts.1 hreads.namedBy_parts.2
            asked' asked
      _ = v.endpoints := (concludes_of_outcome hset).endpoints_eq.symm

/-- The paths of `pathStarts` are not counted as often as those with a value are. -/
theorem contained_bagSet_iff_valuedStarts : ∃ v v',
    (outcome (contained .oracle .set valuedStarts pathStarts) []).1 = .ok v ∧ v.contained ∧
    (outcome (contained .oracle .bagSet valuedStarts pathStarts) ["asked"]).1 = .ok v' ∧
    v'.contained = false ∧ v'.endpoints = v.endpoints := by
  obtain ⟨s, hs⟩ : ∃ s, (Naming.empty.readQuery valuedStarts).1 = .ok s := ⟨_, rfl⟩
  obtain ⟨t, ht⟩ : ∃ t, ((Naming.empty.readQuery valuedStarts).2.readQuery pathStarts).1 = .ok t :=
    ⟨_, rfl⟩
  have hdrops : valuedStarts.dropsVariable = true := by decide
  have hmissing : "v" ∈ s.vars ∧ "v" ∉ t.vars := by
    obtain rfl := Except.ok.inj hs
    obtain rfl := Except.ok.inj ht
    decide
  have hwithin : isWithin valuedStarts pathStarts := by decide +kernel
  obtain ⟨w, hw, hcontained⟩ := contained_of_isWithin hwithin
  obtain ⟨v, v', hv, hv', hiff, hendpoints⟩ := contained_bagSet_iff Solver.decides_oracle
    Solver.decides_oracle ⟨hs, ht⟩ [] ["asked"]
  obtain rfl := Except.ok.inj (hv.symm.trans hw)
  refine ⟨v, v', hv, hcontained, hv', Bool.eq_false_iff.2 fun hc => ?_, hendpoints⟩
  exact hmissing.2 ((hiff.1 hc).2 hdrops "v" hmissing.1)

end Check

end QueryContainment
