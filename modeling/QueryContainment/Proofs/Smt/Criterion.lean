import QueryContainment.Proofs.Smt.Countermodel

namespace QueryContainment

open Naming

variable {n : Naming} {sub sup : ConjunctiveQuery Symbol}

namespace ConjunctiveQuery

def atomSymbols (q : ConjunctiveQuery Symbol) : List Symbol := q.atoms.flatMap Atom.toList

def atomVars (q : ConjunctiveQuery Symbol) : List Symbol := q.atomSymbols.filter Symbol.isVar

def atomGround (q : ConjunctiveQuery Symbol) : List Symbol := q.atomSymbols.filter (!·.isVar)

theorem mem_atomVars {q : ConjunctiveQuery Symbol} {s : Symbol} :
    s ∈ q.atomVars ↔ s.isVar ∧ ∃ a ∈ q.atoms, s ∈ a.toList := by
  rw [atomVars, List.mem_filter, atomSymbols, List.mem_flatMap, and_comm]

def targets (sub sup : ConjunctiveQuery Symbol) : List Symbol :=
  sub.atomSymbols ++ (sub.atomGround ++ sup.atomGround)

/-- A map of the variables of a query, with all other symbols left as they are. -/
def extend {q : ConjunctiveQuery Symbol} {l : List Symbol}
    (h : {s // s ∈ q.atomVars} → {t // t ∈ l}) (s : Symbol) : Symbol :=
  if hs : s ∈ q.atomVars then (h ⟨s, hs⟩).1 else s

theorem extend_of_mem {q : ConjunctiveQuery Symbol} {l : List Symbol}
    (h : {s // s ∈ q.atomVars} → {t // t ∈ l}) {s : Symbol} (hs : s ∈ q.atomVars) :
    extend h s = (h ⟨s, hs⟩).1 := dif_pos hs

theorem extend_of_ground {q : ConjunctiveQuery Symbol} {l : List Symbol}
    (h : {s // s ∈ q.atomVars} → {t // t ∈ l}) {s : Symbol} (hs : s.isVar = false) :
    extend h s = s := by
  refine dif_neg fun hmem => ?_
  have hvar := (mem_atomVars.1 hmem).1
  rw [hs] at hvar
  cases hvar

/--
A homomorphism from the super-query to the sub-query. It leaves the variables in the answer as they
are, and it does not touch the graphs of the atoms.
-/
structure Homomorphism (n : Naming) (sub sup : ConjunctiveQuery Symbol) where
  toFun : {s // s ∈ sup.atomVars} → {t // t ∈ targets sub sup}
  answer : ∀ x ∈ sup.answer, extend toFun (n.symbol (.var x)) = n.symbol (.var x)
  atoms : ∀ a ∈ sup.atoms,
    ⟨extend toFun a.subject, extend toFun a.predicate, extend toFun a.object, a.graph⟩ ∈ sub.atoms

theorem NamedBy.map_atom {q : ConjunctiveQuery Symbol} (hq : q.NamedBy n) {f : Symbol → Symbol}
    (hf : ∀ s, s.isVar = false → f s = s) {a : Atom Symbol} (ha : a ∈ q.atoms) :
    a.map f = ⟨f a.subject, f a.predicate, f a.object, a.graph⟩ := by
  have hgraph : a.graph.map f = a.graph := by
    cases hg : a.graph with
    | none => rfl
    | some g =>
      have hkind := hq.graph_kind a ha g hg
      rw [Option.map_some, hf g (by simp [Symbol.isVar, hkind])]
  rw [Atom.map, hgraph]

theorem Mapped.mem_targets {f : Symbol → Symbol} (hf : sub.Mapped n sup f) {s : Symbol}
    (hs : s ∈ sup.atomVars) : f s ∈ targets sub sup := by
  obtain ⟨-, a, ha, hmem⟩ := mem_atomVars.1 hs
  have himage : f s ∈ (a.map f).toList := by
    rw [Atom.toList_map]
    exact List.mem_map_of_mem hmem
  exact List.mem_append_left _ (List.mem_flatMap.2 ⟨_, hf.atoms a ha, himage⟩)

theorem Mapped.extend_eq {f : Symbol → Symbol} (hf : sub.Mapped n sup f) {a : Atom Symbol}
    (ha : a ∈ sup.atoms) {s : Symbol} (hs : s ∈ a.toList) :
    extend (fun t : {t // t ∈ sup.atomVars} => ⟨f t.1, hf.mem_targets t.2⟩) s = f s := by
  by_cases hvar : s.isVar
  · exact extend_of_mem _ (mem_atomVars.2 ⟨hvar, a, ha, hs⟩)
  · have hground : s.isVar = false := by simpa using hvar
    rw [extend_of_ground _ hground, hf.ground s hground]

theorem Mapped.homomorphism (hn : n.WellFormed) (hsup : sup.NamedBy n) {f : Symbol → Symbol}
    (hf : sub.Mapped n sup f) : Nonempty (Homomorphism n sub sup) := by
  refine ⟨fun s => ⟨f s.1, hf.mem_targets s.2⟩, fun x hx => ?_, fun a ha => ?_⟩
  · obtain ⟨s, hs, a, ha, hplace⟩ := hsup.occurs x (List.mem_append_left _ hx)
    obtain rfl : n.symbol (.var x) = s := symbol_of_mem_entries hn hs
    rw [hf.extend_eq ha (Atom.mem_toList.2 (.inl hplace)), hf.answer x hx]
  · have hmem := hf.atoms a ha
    rw [hsup.map_atom hf.ground ha] at hmem
    rw [hf.extend_eq ha (s := a.subject) (by simp [Atom.toList]),
      hf.extend_eq ha (s := a.predicate) (by simp [Atom.toList]),
      hf.extend_eq ha (s := a.object) (by simp [Atom.toList])]
    exact hmem

theorem Homomorphism.mapped (hsup : sup.NamedBy n) (h : Homomorphism n sub sup) :
    sub.Mapped n sup (extend h.toFun) := by
  have hground (s : Symbol) (hs : s.isVar = false) : extend h.toFun s = s :=
    extend_of_ground h.toFun hs
  refine ⟨hground, h.answer, fun a ha => ?_⟩
  rw [hsup.map_atom hground ha]
  exact h.atoms a ha

end ConjunctiveQuery

namespace Smt

/--
For any two queries that a run has made, and that have the same answer: the formula for the
containment is read as a list of assertions, and these have no model, over any domain and relation,
if and only if there is a homomorphism from the super-query to the sub-query.
-/
theorem countermodel_unsatisfiable_iff_homomorphism (calls : List Call)
    (hsub : sub ∈ empty.made calls) (hsup : sup ∈ empty.made calls) (hsame : sub.sameAnswer sup) :
    ∃ fs, assertions? (formulaText (countermodel sub sup (empty.after calls))) = some fs ∧
      (¬Satisfiable fs ↔ Nonempty (ConjunctiveQuery.Homomorphism (empty.after calls) sub sup)) := by
  have hn := sound_after sound_empty calls
  have hsub := namedBy_made sound_empty calls sub hsub
  have hsup := namedBy_made sound_empty calls sup hsup
  refine ⟨_, assertions?_formulaText (plain_countermodel hn hsub hsup), ?_⟩
  rw [unsatisfiable_iff_mapped hn hsub hsup hsame]
  constructor
  · rintro ⟨f, hf⟩
    exact hf.homomorphism hn.toWellFormed hsup
  · rintro ⟨h⟩
    exact ⟨_, h.mapped hsup⟩

/-- Loops at an endpoint that is also named as a value, and then two steps at that endpoint. -/
def loopCalls : List Call :=
  [ .query ⟨.select, .project (.join (.bgp [⟨.var "x", .iri "p", .iri "e"⟩])
      (.service (.iri "e") (.bgp [⟨.var "x", .iri "p", .var "y"⟩, ⟨.var "y", .iri "p", .var "y"⟩])))
      ["x"], false⟩,
    .query ⟨.select, .project (.service (.iri "e")
      (.bgp [⟨.var "x", .iri "p", .blank "b"⟩, ⟨.blank "b", .iri "p", .var "z"⟩])) ["x"], false⟩ ]

def loopQuery : ConjunctiveQuery Symbol :=
  ⟨[⟨⟨.var, "x"⟩, ⟨.iri, "p"⟩, ⟨.iri, "e"⟩, none⟩,
    ⟨⟨.var, "x"⟩, ⟨.iri, "p"⟩, ⟨.var, "y"⟩, some ⟨.iri, "e"⟩⟩,
    ⟨⟨.var, "y"⟩, ⟨.iri, "p"⟩, ⟨.var, "y"⟩, some ⟨.iri, "e"⟩⟩], ["x"], ["y"],
    [("e", ⟨[⟨⟨.var, "x"⟩, ⟨.iri, "p"⟩, ⟨.var, "y"⟩, none⟩,
      ⟨⟨.var, "y"⟩, ⟨.iri, "p"⟩, ⟨.var, "y"⟩, none⟩], [], ["x", "y"], []⟩)]⟩

def twoStepQuery : ConjunctiveQuery Symbol :=
  ⟨[⟨⟨.var, "x"⟩, ⟨.iri, "p"⟩, ⟨.var, "_b0"⟩, some ⟨.iri, "e"⟩⟩,
    ⟨⟨.var, "_b0"⟩, ⟨.iri, "p"⟩, ⟨.var, "z"⟩, some ⟨.iri, "e"⟩⟩], ["x"], ["z"],
    [("e", ⟨[⟨⟨.var, "x"⟩, ⟨.iri, "p"⟩, ⟨.var, "_b0"⟩, none⟩,
      ⟨⟨.var, "_b0"⟩, ⟨.iri, "p"⟩, ⟨.var, "z"⟩, none⟩], [], ["x", "z"], []⟩)]⟩

/-- The blank node and the last variable of the two steps both go to the loop. -/
theorem countermodel_loop_unsatisfiable :
    ∃ fs, assertions? (formulaText (countermodel loopQuery twoStepQuery (empty.after loopCalls))) =
      some fs ∧ ¬Satisfiable fs := by
  have hmade : loopQuery ∈ empty.made loopCalls ∧ twoStepQuery ∈ empty.made loopCalls := by
    have hlist : empty.made loopCalls = loopQuery.parts ++ twoStepQuery.parts := rfl
    rw [hlist]
    exact ⟨List.mem_append_left _ loopQuery.self_mem_parts,
      List.mem_append_right _ twoStepQuery.self_mem_parts⟩
  have hsame : loopQuery.sameAnswer twoStepQuery := rfl
  obtain ⟨fs, hread, hiff⟩ :=
    countermodel_unsatisfiable_iff_homomorphism loopCalls hmade.1 hmade.2 hsame
  refine ⟨fs, hread, hiff.2 ⟨fun s => if s.1 = ⟨.var, "x"⟩ then ⟨⟨.var, "x"⟩, by decide⟩
    else ⟨⟨.var, "y"⟩, by decide⟩, ?_, ?_⟩⟩
  · decide
  · decide

end Smt

end QueryContainment
