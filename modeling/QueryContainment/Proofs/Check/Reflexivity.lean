import QueryContainment.Proofs.Check.Plan
import QueryContainment.Proofs.Check.Soundness
import QueryContainment.Proofs.Conjunctive.Later

namespace QueryContainment

open Naming

/-- The solver refutes every script that declares what it is about and has no model. -/
def Solver.Refuting (solver : Solver) : Prop :=
  ∀ asked (script : Smt.Script Smt.Statement), script.Closed → ∀ fs,
    Smt.assertions? (Smt.formulaText script) = some fs → ¬Smt.Satisfiable fs →
      solver asked (Smt.formulaText script) >>= Smt.Answer.ofReply = .ok .unsat

theorem Solver.Decides.refuting {solver : Solver} (h : solver.Decides) : solver.Refuting :=
  fun asked script hscript fs hfs => (h asked script hscript fs hfs).2

namespace Check

variable {α : Type} {f g : α → Symbol}

theorem partners_copy {l : List (String × ConjunctiveQuery α)} (h : (l.map Prod.fst).Nodup) :
    partners (ConjunctiveQuery.mapServices f l) (ConjunctiveQuery.mapServices g l) =
      .ok (l.map fun e => e.2.map g) := by
  have hcopies : ((l.map fun e => (e.1, e.2.map g)).map Prod.fst).Nodup := by
    rw [List.map_map]
    exact h
  rw [ConjunctiveQuery.mapServices_eq, ConjunctiveQuery.mapServices_eq]
  exact partners_of_lookupLast fun e he => lookupLast_of_mem hcopies (List.mem_map_of_mem he)

theorem compatible_copy (f g : α → Symbol) (r : ConjunctiveQuery α) (mode : Multiplicity) :
    compatible (r.map f) (r.map g) mode = true := by
  have hanswer : (r.map f).sameAnswer (r.map g) = true :=
    ConjunctiveQuery.sameAnswer_iff.2 fun x => by
      rw [ConjunctiveQuery.answer_map, ConjunctiveQuery.answer_map]
  have hvars : (r.map f).vars = (r.map g).vars := by
    simp only [ConjunctiveQuery.vars, ConjunctiveQuery.answer_map, ConjunctiveQuery.other_map]
  cases mode with
  | bagSet => simp [compatible, ConjunctiveQuery.sameAnswerAndVariables, hanswer, hvars]
  | set => exact hanswer
  | bag => exact hanswer

mutual

theorem visits_copy (mode : Multiplicity) : ∀ (r : ConjunctiveQuery α),
    (∀ part ∈ r.parts, (part.services.map Prod.fst).Nodup) →
    ∀ visit ∈ visits mode (r.map f) (r.map g), ∃ m, ∃ part ∈ r.parts,
      visit = .pair m (part.map f) (part.map g)
  | ⟨atoms, answer, other, services⟩, h, visit, hvisit => by
    have hpartners : partners (ConjunctiveQuery.mapServices f services)
        (ConjunctiveQuery.mapServices g services) = .ok (services.map fun e => e.2.map g) :=
      partners_copy (h _ List.mem_cons_self)
    simp only [ConjunctiveQuery.map, visits, hpartners] at hvisit
    rcases List.mem_append.1 hvisit with hvisit | hvisit
    · obtain ⟨m, part, hpart, heq⟩ := endpointVisits_copy services
        (fun part hpart => h part (List.mem_cons_of_mem _ hpart)) visit hvisit
      exact ⟨m, part, List.mem_cons_of_mem _ hpart, heq⟩
    · refine ⟨mode, ⟨atoms, answer, other, services⟩, List.mem_cons_self, ?_⟩
      simpa only [ConjunctiveQuery.map] using List.mem_singleton.1 hvisit

theorem endpointVisits_copy : ∀ (services : List (String × ConjunctiveQuery α)),
    (∀ part ∈ ConjunctiveQuery.partsOf services, (part.services.map Prod.fst).Nodup) →
    ∀ visit ∈ endpointVisits (ConjunctiveQuery.mapServices f services)
      (services.map fun e => e.2.map g), ∃ m, ∃ part ∈ ConjunctiveQuery.partsOf services,
        visit = .pair m (part.map f) (part.map g)
  | [], _, visit, hvisit => by simp [ConjunctiveQuery.mapServices, endpointVisits] at hvisit
  | (url, r) :: rest, h, visit, hvisit => by
    simp only [ConjunctiveQuery.mapServices, List.map_cons, endpointVisits] at hvisit
    rcases List.mem_append.1 hvisit with hvisit | hvisit
    · obtain ⟨m, part, hpart, heq⟩ := visits_copy .set r
        (fun part hpart => h part (List.mem_append_left _ hpart)) visit hvisit
      exact ⟨m, part, List.mem_append_left _ hpart, heq⟩
    · obtain ⟨m, part, hpart, heq⟩ := endpointVisits_copy rest
        (fun part hpart => h part (List.mem_append_right _ hpart)) visit hvisit
      exact ⟨m, part, List.mem_append_right _ hpart, heq⟩

end

end Check

variable {n : Naming} {d : Nat}

open Classical in
noncomputable def earlier (n : Naming) (d : Nat) (s : Symbol) : Symbol :=
  if h : ∃ t : Term, (t.later d, s) ∈ n.entries then n.symbol h.choose else s

theorem earlier_symbol_later (hn : n.WellFormed) {t : Term} (ht : (n.symbol? (t.later d)).isSome) :
    earlier n d (n.symbol (t.later d)) = n.symbol t := by
  have hentry := mem_entries_symbol ht
  have hex : ∃ u : Term, (u.later d, n.symbol (t.later d)) ∈ n.entries := ⟨t, hentry⟩
  have hlater : hex.choose.later d = t.later d := (name_eq_iff hn hex.choose_spec hentry).1 rfl
  rw [earlier, dif_pos hex, Term.later_injective d hlater]

theorem earlier_of_ground (hn : n.Sound) {s : Symbol} (hs : s.isVar = false) :
    earlier n d s = s := by
  by_cases hex : ∃ t : Term, (t.later d, s) ∈ n.entries
  · have hentry := hex.choose_spec
    have hkind : s.kind = kindOf hex.choose := by
      rw [← Term.kindOf_later d]
      exact hn.kind_eq _ hentry
    have hne : ∀ x, hex.choose ≠ .var x := by
      intro x hx
      rw [Symbol.isVar, hkind, hx] at hs
      cases hs
    rw [Term.later_of_ne_var hne] at hentry
    rw [earlier, dif_pos hex]
    exact symbol_of_mem_entries hn.toWellFormed hentry
  · rw [earlier, dif_neg hex]

/-- A part of a query is mapped to by its copy in later scopes. -/
theorem ConjunctiveQuery.Regular.mapped (hn : n.Sound) {met : List Term}
    {part : ConjunctiveQuery Term} (hpart : part.Regular) (hover : part.Over met)
    (hmet : ∀ t ∈ met, (n.symbol? (t.later d)).isSome) :
    (part.map n.symbol).Mapped n (part.map (n.symbol ∘ Term.later d)) (earlier n d) := by
  refine ⟨fun s hs => earlier_of_ground hn hs, fun x hx => ?_, fun a ha => ?_⟩
  · rw [answer_map] at hx
    obtain ⟨a, ha, hplace⟩ := hover.occurs x (List.mem_append_left _ hx)
    have hsymbol := earlier_symbol_later hn.toWellFormed
      (hmet _ (hover.met_of_mem a ha _ (Atom.mem_toList.2 (.inl hplace))))
    rwa [Term.later_of_plain (hpart.answer x hx)] at hsymbol
  · rw [atoms_map] at ha ⊢
    obtain ⟨b, hb, rfl⟩ := List.mem_map.1 ha
    rw [Atom.map_map]
    have hback : b.map (earlier n d ∘ n.symbol ∘ Term.later d) = b.map n.symbol :=
      Atom.map_congr fun t ht =>
        earlier_symbol_later hn.toWellFormed (hmet t (hover.met_of_mem b hb t ht))
    rw [hback]
    exact List.mem_map_of_mem hb

namespace Check

variable {q : Query} {s : ConjunctiveQuery Symbol} {mode : Multiplicity}

/-- What is made of a query that is read twice. -/
structure Copies (q : Query) (s : ConjunctiveQuery Symbol) (r : ConjunctiveQuery Term) (d : Nat) :
    Prop where
  first : s = r.map (table q q).symbol
  reads : Reads q q s (r.map ((table q q).symbol ∘ Term.later d))
  parts : ∀ part ∈ r.parts, part.Regular ∧ ∃ met, part.Over met ∧
    ∀ t ∈ met, ((table q q).symbol? (t.later d)).isSome

theorem exists_copies (hs : (Naming.empty.readQuery q).1 = .ok s) (hq : q.pattern.PlainNames) :
    ∃ r d, Copies q s r d := by
  let f := Flattened.ofQuery 0 q
  have hdrawn : f.WellDrawn := Flattened.wellDrawn_ofQuery 0 q
  have hsecond : Flattened.ofQuery (Naming.empty.readQuery q).2.scopes q = f.later f.scopes :=
    Flattened.ofQuery_later f.scopes 0 hq
  obtain ⟨r, hr, hkept, -⟩ := eq_map_of_readQuery (sound_table q q).toWellFormed hs
    fun e => mem_entries_table q
  have hf : f.result = .ok r := hr
  refine ⟨r, f.scopes, hkept, ⟨hs, ?_⟩, fun part hpart => ⟨?_, f.terms, ?_, fun t ht => ?_⟩⟩
  · rw [← ConjunctiveQuery.map_map, table, readQuery, hsecond]
    simp only [name, Flattened.later, hf, Except.map]
  · exact Flattened.allRegular_ofQuery 0 hq r hf part hpart
  · exact hdrawn r hf part hpart
  · rw [table, readQuery, hsecond]
    exact symbol?_addAll_of_mem (List.mem_map_of_mem ht)

/-- A formula for the containment of one of the queries in another one that has no model. -/
def Refutable (n : Naming) (sub sup : ConjunctiveQuery Symbol) : Prop :=
  ∃ fs, Smt.assertions? (Smt.formulaText (Smt.countermodel sub sup n)) = some fs ∧
    ¬Smt.Satisfiable fs

/--
Every pair that is visited consists of copies. Its script declares what it is about and has no model.
-/
theorem Copies.visits {r : ConjunctiveQuery Term} {d : Nat} (h : Copies q s r d)
    {visit : Visit} (hvisit : visit ∈ visits mode s
      (r.map ((table q q).symbol ∘ Term.later d))) :
    ∃ m sub sup, visit = .pair m sub sup ∧ compatible sub sup m = true ∧
      (Smt.countermodel sub sup (table q q)).Closed ∧ Refutable (table q q) sub sup := by
  have hn := sound_table q q
  have hnodup : ∀ part ∈ r.parts, (part.services.map Prod.fst).Nodup :=
    fun part hpart => (h.parts part hpart).1.endpoints
  rw [h.first] at hvisit
  obtain ⟨m, part, hpart, rfl⟩ := visits_copy mode r hnodup visit hvisit
  have hcompatible : compatible (part.map (table q q).symbol)
      (part.map ((table q q).symbol ∘ Term.later d)) m = true := compatible_copy _ _ part m
  obtain ⟨hsub, hsup⟩ := mem_parts_of_visit hvisit
  rw [← h.first] at hsub
  have hsub := h.reads.namedBy_parts.1 _ hsub
  have hsup := h.reads.namedBy_parts.2 _ hsup
  obtain ⟨hregular, met, hover, hmet⟩ := h.parts part hpart
  have hclosed := Smt.closed_countermodel hn hsub hsup (sameAnswer_of_compatible hcompatible)
  exact ⟨m, _, _, rfl, hcompatible, hclosed, _, Smt.assertions?_formulaText hclosed.toPlain,
    Smt.unsatisfiable_of_mapped hn hsup (hregular.mapped hn hover hmet)⟩

theorem Copies.exists_of_mem_plan {r : ConjunctiveQuery Term} {d : Nat} (h : Copies q s r d)
    {f : String} (hf : f ∈ plan (table q q) mode s (r.map ((table q q).symbol ∘ Term.later d))) :
    ∃ sub ∈ s.parts, ∃ sup ∈ (r.map ((table q q).symbol ∘ Term.later d)).parts,
      f = Smt.formulaText (Smt.countermodel sub sup (table q q)) ∧
        (Smt.countermodel sub sup (table q q)).Closed ∧ Refutable (table q q) sub sup := by
  obtain ⟨m, sub, sup, hvisit, rfl⟩ := exists_visit_of_mem_formulasOf hf
  obtain ⟨hsub, hsup⟩ := mem_parts_of_visit hvisit
  obtain ⟨_, _, _, heq, hcompatible, hproblem⟩ := h.visits hvisit
  obtain ⟨rfl, rfl, rfl⟩ := Visit.pair.inj heq
  refine ⟨sub, hsub, sup, hsup, ?_, hproblem⟩
  rw [hcompatible, formula, if_pos rfl]

theorem Copies.contained {r : ConjunctiveQuery Term} {d : Nat} (h : Copies q s r d)
    (hmode : mode ≠ .bag) {solver : Solver} (hsolver : solver.Refuting) (asked : List String) :
    ∃ v, (CheckM.outcome (queries solver (table q q) mode s
      (r.map ((table q q).symbol ∘ Term.later d))) asked).1 = .ok v ∧ v.contained := by
  refine contained_of_refuted hmode (fun visit hvisit => ?_) fun f hf asked => ?_
  · obtain ⟨_, _, _, rfl, -⟩ := h.visits hvisit
    rfl
  · obtain ⟨sub, -, sup, -, rfl, hclosed, fs, hfs, hunsat⟩ := h.exists_of_mem_plan hf
    rw [reply, hsolver _ _ hclosed _ hfs hunsat]
    rfl

/--
For any query that is read, as a set or with repetitions, and for any solver, whatever it was asked
before: each formula that is asked for to check that the query is contained in itself is one for the
containment of a part of the query in a part of its copy, and has no model. The verdict is positive
if the solver refutes such formulas.
-/
theorem contained_self (hmode : mode ≠ .bag) (hs : (Naming.empty.readQuery q).1 = .ok s)
    (hq : q.pattern.PlainNames) : ∃ t, Reads q q s t ∧ ∀ (solver : Solver) (asked : List String),
      (∃ new, (CheckM.outcome (contained solver mode q q) asked).2 = asked ++ new ∧
        ∀ f ∈ new, ∃ sub ∈ s.parts, ∃ sup ∈ t.parts,
          f = Smt.formulaText (Smt.countermodel sub sup (table q q)) ∧
            Refutable (table q q) sub sup) ∧
      (solver.Refuting → ∃ v,
        (CheckM.outcome (contained solver mode q q) asked).1 = .ok v ∧ v.contained) := by
  obtain ⟨r, d, hcopies⟩ := exists_copies hs hq
  obtain ⟨m, hm, hrun⟩ := outcome_contained hmode hcopies.reads
  refine ⟨_, hcopies.reads, fun solver asked => ⟨?_, fun hsolver => ?_⟩⟩
  · rw [hrun]
    obtain ⟨new, hnew, hmem⟩ := exists_asked hm solver asked
    refine ⟨new, hnew, fun f hf => ?_⟩
    obtain ⟨sub, hsub, sup, hsup, heq, -, hrefutable⟩ := hcopies.exists_of_mem_plan (hmem f hf)
    exact ⟨sub, hsub, sup, hsup, heq, hrefutable⟩
  · rw [hrun]
    exact hcopies.contained hm hsolver asked

/-- A query with a hidden variable and an endpoint, that counts repetitions. -/
theorem contained_self_nested : ∃ r t, Reads nestedQuery nestedQuery r t ∧ r.parts.length = 2 ∧
    ∃ v, (CheckM.outcome (contained .oracle .bagSet nestedQuery nestedQuery) []).1 = .ok v ∧
      v.contained := by
  obtain ⟨r, hr⟩ : ∃ r, (Naming.empty.readQuery nestedQuery).1 = .ok r := ⟨_, rfl⟩
  have hplain : nestedQuery.pattern.PlainNames := by
    unfold Pattern.PlainNames
    decide
  have hmode : Multiplicity.bagSet ≠ .bag := by decide
  obtain ⟨t, hreads, hself⟩ := contained_self hmode hr hplain
  have hparts : r.parts.length = 2 := by
    obtain rfl := Except.ok.inj hr
    rfl
  exact ⟨r, t, hreads, hparts, (hself .oracle []).2 Solver.decides_oracle.refuting⟩

end Check

end QueryContainment
