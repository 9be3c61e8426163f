import QueryContainment.Proofs.Smt.Model

namespace QueryContainment

open Naming

namespace Smt

variable {n : Naming} {sub sup : ConjunctiveQuery Symbol} {δ : Type}

/-- The variables of the super-query, each once. -/
def boundSymbols (sup : ConjunctiveQuery Symbol) : List Symbol :=
  Distinct.ofList ((sup.atoms.flatMap Atom.toList).filter Symbol.isVar)

/-- What a solution of the super-query with the same answer has to satisfy. -/
def superConditions (sup : ConjunctiveQuery Symbol) (n : Naming) : List Condition :=
  sup.atoms.map (fun a => .holds (scopedAtom superScope a)) ++
    (sup.answer.filterMap n.varSymbol?).map fun s => .equal (s.within superScope) s

theorem countermodel_eq (sub sup : ConjunctiveQuery Symbol) (n : Naming) : countermodel sub sup n =
    ⟨Distinct.ofList (sub.atoms.flatMap Atom.toList ++
        sup.atoms.flatMap fun a => a.toList.filter (!·.isVar)),
      sub.atoms.map .holds ++
        [.noSolution ((boundSymbols sup).map (·.within superScope)) (superConditions sup n)]⟩ := by
  have hsub : (sub.atoms.foldl .declareTermsOf .empty : Script Statement) =
      ⟨Distinct.ofList (sub.atoms.flatMap Atom.toList), []⟩ :=
    Script.foldl_declareAll Atom.toList sub.atoms .empty
  have hsup (l : List Symbol) : (sup.atoms.foldl .declareGroundOf ⟨l, []⟩ : Script Statement) =
      ⟨Distinct.addAll l (sup.atoms.flatMap fun a => a.toList.filter (!·.isVar)), []⟩ :=
    Script.foldl_declareAll (fun a => a.toList.filter (!·.isVar)) sup.atoms ⟨l, []⟩
  have hdeclared (l l' : List Symbol) : Distinct.ofList (l ++ l') =
      Distinct.addAll (Distinct.ofList l) l' := Distinct.addAll_append [] l l'
  rw [countermodel, hsub, hsup, hdeclared]
  rfl

theorem plain_within {s : Symbol} (h : s.Plain) : (s.within superScope).Plain := by
  intro c hc
  unfold Symbol.within at hc
  split at hc
  · simp only [String.toList_append, List.mem_append] at hc
    rcases hc with (hc | hc) | hc
    · have hscope : superScope.toList.all isNameChar := rfl
      exact .inl (List.all_eq_true.1 hscope c hc)
    · right
      simpa using hc
    · exact h c hc
  · exact h c hc

/-- A scope leaves graphs alone, which are IRIs. -/
theorem scopedAtom_eq (hsup : sup.NamedBy n) {a : Atom Symbol} (ha : a ∈ sup.atoms)
    (scope : String) : scopedAtom scope a = a.map (·.within scope) := by
  have hgraph : a.graph.map (·.within scope) = a.graph := by
    cases hg : a.graph with
    | none => rfl
    | some g =>
      have hkind := hsup.graph_kind a ha g hg
      simp [Symbol.within, Symbol.isVar, hkind]
  rw [scopedAtom, Atom.map, hgraph]

theorem mem_boundSymbols {s : Symbol} :
    s ∈ boundSymbols sup ↔ s.isVar ∧ ∃ a ∈ sup.atoms, s ∈ a.toList := by
  simp [boundSymbols, Distinct.mem_ofList, and_comm]

theorem drawnFrom_countermodel (hsub : sub.NamedBy n) (hsup : sup.NamedBy n) :
    (countermodel sub sup n).DrawnFrom n := by
  rw [countermodel_eq]
  refine ⟨fun s hs => ?_, Distinct.nodup_ofList _⟩
  rw [Distinct.mem_ofList, List.mem_append, List.mem_flatMap, List.mem_flatMap] at hs
  rcases hs with ⟨a, ha, hs⟩ | ⟨a, ha, hs⟩
  · exact hsub.named a ha s hs
  · exact hsup.named a ha s (List.mem_filter.1 hs).1

theorem plain_countermodel (hn : n.Sound) (hsub : sub.NamedBy n) (hsup : sup.NamedBy n) :
    (countermodel sub sup n).Plain := by
  have hplain {q : ConjunctiveQuery Symbol} (hq : q.NamedBy n) {a : Atom Symbol} (ha : a ∈ q.atoms)
      {s : Symbol} (hs : s ∈ a.toList) : s.Plain := by
    obtain ⟨t, ht⟩ := hq.named a ha s hs
    exact plain_of_mem_entries hn ht
  refine ⟨fun s hs => ?_, fun a ha s hs => ?_⟩
  · obtain ⟨t, ht⟩ := (drawnFrom_countermodel hsub hsup).named s hs
    exact plain_of_mem_entries hn ht
  · rw [countermodel_eq] at ha
    rcases List.mem_append.1 ha with ha | ha
    · obtain ⟨b, hb, rfl⟩ := List.mem_map.1 ha
      exact hplain hsub hb hs
    · obtain rfl := List.mem_singleton.1 ha
      rcases List.mem_append.1 hs with hs | hs
      -- a symbol of the last assertion is bound, or in an atom, or in an equality
      · obtain ⟨r, hr, rfl⟩ := List.mem_map.1 hs
        obtain ⟨-, b, hb, hrb⟩ := mem_boundSymbols.1 hr
        exact plain_within (hplain hsup hb hrb)
      · obtain ⟨c, hc, hs⟩ := List.mem_flatMap.1 hs
        rcases List.mem_append.1 hc with hc | hc
        · obtain ⟨b, hb, rfl⟩ := List.mem_map.1 hc
          rw [Condition.symbols, scopedAtom_eq hsup hb, Atom.toList_map] at hs
          obtain ⟨r, hr, rfl⟩ := List.mem_map.1 hs
          exact plain_within (hplain hsup hb hr)
        · obtain ⟨r, hr, rfl⟩ := List.mem_map.1 hc
          obtain ⟨x, -, hx⟩ := List.mem_filterMap.1 hr
          have hr := plain_of_mem_entries hn (mem_entries_of_symbol? hx)
          simp only [Condition.symbols, List.mem_cons, List.not_mem_nil, or_false] at hs
          rcases hs with rfl | rfl
          · exact plain_within hr
          · exact hr

def boundNames (sup : ConjunctiveQuery Symbol) : List String :=
  ((boundSymbols sup).map (·.within superScope)).map Symbol.text

/-- A solution of the super-query with the same answer, in the names of the text. -/
structure SuperSolution (I : Interpretation δ) (n : Naming) (sup : ConjunctiveQuery Symbol)
    (w : String → δ) : Prop where
  atoms : ∀ a ∈ sup.atoms, a.map (fun s => w (s.within superScope).text) ∈ I.facts
  agrees : ∀ x ∈ sup.answer, w ((n.symbol (.var x)).within superScope).text =
    w (n.symbol (.var x)).text

theorem holds_superConditions (hn : n.WellFormed) (hsup : sup.NamedBy n) {I : Interpretation δ}
    {w : String → δ} (hw : w defaultGraphText = I.defaultGraph) :
    (∀ c ∈ superConditions sup n, c.formula.Holds I.holds w) ↔ SuperSolution I n sup w := by
  have hatom (a : Atom Symbol) (ha : a ∈ sup.atoms) :
      (atomFormula (scopedAtom superScope a)).Holds I.holds w ↔
        a.map (fun s => w (s.within superScope).text) ∈ I.facts := by
    rw [scopedAtom_eq hsup ha, holds_atomFormula hw, Atom.map_map]
    rfl
  constructor
  · intro h
    refine ⟨fun a ha => ?_, fun x hx => ?_⟩
    · exact (hatom a ha).1 (h _ (List.mem_append_left _ (List.mem_map_of_mem ha)))
    -- no variable of the answer is left out, since each of them has a symbol
    · have hsymbol := symbol?_of_mem_entries hn (hsup.mem_entries hn hx)
      have hmem : n.symbol (.var x) ∈ sup.answer.filterMap n.varSymbol? :=
        List.mem_filterMap.2 ⟨x, hx, hsymbol⟩
      exact h _ (List.mem_append_right _ (List.mem_map_of_mem hmem))
  · intro h c hc
    rcases List.mem_append.1 hc with hc | hc
    · obtain ⟨a, ha, rfl⟩ := List.mem_map.1 hc
      exact (hatom a ha).2 (h.atoms a ha)
    · obtain ⟨s, hs, rfl⟩ := List.mem_map.1 hc
      obtain ⟨x, hx, hs⟩ := List.mem_filterMap.1 hs
      have hagrees := h.agrees x hx
      rwa [symbol_of_symbol? hs] at hagrees

/-- A name that is bound is that of one symbol only. -/
theorem eq_of_within_text_eq {r s : Symbol} (hr : r.isVar) (hs : s.isVar)
    (h : (r.within superScope).text = (s.within superScope).text) : r = s := by
  rw [text_inj, Symbol.name_within hr, Symbol.name_within hs] at h
  have hname : r.name = s.name := by simpa using h
  exact Symbol.eq_of_isVar hr hs hname

theorem not_mem_boundNames {s : Symbol} (h : '.' ∉ s.name.toList) : s.text ∉ boundNames sup := by
  intro hmem
  obtain ⟨r, hr, hrs⟩ := List.mem_map.1 hmem
  obtain ⟨t, ht, rfl⟩ := List.mem_map.1 hr
  obtain ⟨hvar, -⟩ := mem_boundSymbols.1 ht
  exact h (text_inj.1 hrs ▸ Symbol.dot_mem_name_within hvar superScope)

theorem not_bound_of_mem_entries (hn : n.Sound) {t : Term} {s : Symbol} (h : (t, s) ∈ n.entries) :
    s.text ∉ boundNames sup :=
  not_mem_boundNames (hn.dot_not_mem h)

theorem defaultGraph_not_bound : defaultGraphText ∉ boundNames sup :=
  not_mem_boundNames (s := ⟨.iri, defaultGraph⟩) (by decide)

/-- A model of the assertions, unless a solution of the super-query has the same answer. -/
theorem holds_formulas (hn : n.Sound) (hsup : sup.NamedBy n) {I : Interpretation δ}
    {u : String → δ} (hu : u defaultGraphText = I.defaultGraph) :
    (∀ f ∈ (countermodel sub sup n).formulas, f.Holds I.holds u) ↔
      (∀ f ∈ (countermodel sub sup n).distinctness, f.Holds I.holds u) ∧
      (∀ a ∈ sub.atoms, a.map (fun s => u s.text) ∈ I.facts) ∧
      ¬∃ w : String → δ, (∀ name, name ∉ boundNames sup → w name = u name) ∧
        SuperSolution I n sup w := by
  have hlast : (Statement.noSolution ((boundSymbols sup).map (·.within superScope))
      (superConditions sup n)).formula.Holds I.holds u ↔
      ¬∃ w : String → δ, (∀ name, name ∉ boundNames sup → w name = u name) ∧
        SuperSolution I n sup w := by
    rw [Statement.formula, Formula.Holds, holds_closed]
    refine not_congr (exists_congr fun w => and_congr_right fun hfree => ?_)
    rw [Formula.holds_conj, List.forall_mem_map]
    exact holds_superConditions hn.toWellFormed hsup ((hfree _ defaultGraph_not_bound).trans hu)
  have hatoms : (∀ a ∈ sub.atoms, a.map (fun s => u s.text) ∈ I.facts) ↔
      ∀ a ∈ sub.atoms, (Statement.holds a).formula.Holds I.holds u :=
    forall₂_congr fun a _ => (holds_atomFormula hu a).symm
  rw [← hlast, hatoms, Script.formulas, List.forall_mem_append, List.forall_mem_map]
  simp only [countermodel_eq, List.forall_mem_append, List.forall_mem_map,
    List.forall_mem_singleton]

theorem entails_of_unsatisfiable (hn : n.Sound) (hsub : sub.NamedBy n) (hsup : sup.NamedBy n)
    (hsame : sub.sameAnswer sup) (h : ¬Satisfiable (countermodel sub sup n).formulas) :
    sub.Entails n sup := by
  rintro δ I hI α ⟨v, hground, hanswer, hatoms⟩
  have hdefault := namedValue_defaultGraph hn.toWellFormed v I.defaultGraph
  -- all assertions but the last hold, so that there is a solution of the super-query
  obtain ⟨w, hfree, hw⟩ : ∃ w : String → δ,
      (∀ name, name ∉ boundNames sup → w name = namedValue n v I.defaultGraph name) ∧
        SuperSolution I n sup w := by
    by_contra hno
    refine h ⟨δ, I.holds, namedValue n v I.defaultGraph, ?_⟩
    refine (holds_formulas hn hsup hdefault).2 ⟨?_, fun a ha => ?_, hno⟩
    · exact distinctness_holds hn.toWellFormed (drawnFrom_countermodel hsub hsup) hI hground
    · rw [map_namedValue hn.toWellFormed (hsub.named a ha)]
      exact hatoms a ha
  have hfreeValue (e : Term × Symbol) (he : e ∈ n.entries) : w e.2.text = v e.2 := by
    rw [hfree _ (not_bound_of_mem_entries hn he), namedValue_text hn.toWellFormed he]
  refine ⟨fun s => if s.isVar then w (s.within superScope).text else I.constant s,
    fun s hs => by simp [hs], fun x hx => ?_, fun a ha => ?_⟩
  · have hmem := hsup.mem_entries hn.toWellFormed hx
    have hkind : (n.symbol (.var x)).kind = .var := hn.kind_eq _ hmem
    show (if (n.symbol (.var x)).isVar then w _ else _) = _
    rw [if_pos (by simp [Symbol.isVar, hkind]), hw.agrees x hx, hfreeValue _ hmem]
    exact hanswer x ((ConjunctiveQuery.sameAnswer_iff.1 hsame x).2 hx)
  · have hatom := hw.atoms a ha
    rwa [Atom.map_congr fun s hs => ?_] at hatom
    obtain ⟨t, ht⟩ := hsup.named a ha s hs
    -- variables of the super-query are read in its scope, all other symbols as they are
    by_cases hvar : s.isVar
    · simp [hvar]
    · simp only [hvar, Symbol.within, Bool.false_eq_true, if_false]
      rw [hfreeValue _ ht, hground s (by simpa using hvar)]

def mappedValue (sup : ConjunctiveQuery Symbol) (f : Symbol → Symbol) (u : String → δ)
    (name : String) : δ :=
  ((boundSymbols sup).find? fun s => (s.within superScope).text == name).elim (u name)
    fun s => u (f s).text

theorem mappedValue_free {f : Symbol → Symbol} {u : String → δ} {name : String}
    (h : name ∉ boundNames sup) : mappedValue sup f u name = u name := by
  have hnone : (boundSymbols sup).find? (fun s => (s.within superScope).text == name) = none := by
    refine List.find?_eq_none.2 fun s hs heq => h ?_
    rw [← eq_of_beq heq]
    exact List.mem_map_of_mem (List.mem_map_of_mem hs)
  rw [mappedValue, hnone, Option.elim_none]

theorem mappedValue_bound {f : Symbol → Symbol} {u : String → δ} {s : Symbol}
    (h : s ∈ boundSymbols sup) : mappedValue sup f u (s.within superScope).text = u (f s).text := by
  cases hf : (boundSymbols sup).find? fun r =>
      (r.within superScope).text == (s.within superScope).text with
  | none => exact absurd (List.find?_eq_none.1 hf s h) (by simp)
  | some r =>
    have hr := mem_boundSymbols.1 (List.mem_of_find?_eq_some hf)
    have hs := mem_boundSymbols.1 h
    have htext : (r.within superScope).text = (s.within superScope).text := by
      simpa using List.find?_some hf
    rw [mappedValue, hf, Option.elim_some, eq_of_within_text_eq hr.1 hs.1 htext]

theorem unsatisfiable_of_mapped (hn : n.Sound) (hsup : sup.NamedBy n) {f : Symbol → Symbol}
    (hf : sub.Mapped n sup f) : ¬Satisfiable (countermodel sub sup n).formulas := by
  rintro ⟨δ, P, u, hu⟩
  let I : Interpretation δ := ⟨P, u defaultGraphText, fun s => u s.text⟩
  obtain ⟨-, hatoms, hno⟩ := (holds_formulas (I := I) hn hsup rfl).1 hu
  -- the atoms of the sub-query hold, and those of the super-query are mapped to some of them
  have hvalue (a : Atom Symbol) (ha : a ∈ sup.atoms) (s : Symbol) (hs : s ∈ a.toList) :
      mappedValue sup f u (s.within superScope).text = u (f s).text := by
    by_cases hvar : s.isVar
    · exact mappedValue_bound (mem_boundSymbols.2 ⟨hvar, a, ha, hs⟩)
    · obtain ⟨t, ht⟩ := hsup.named a ha s hs
      rw [Symbol.within, if_neg hvar, mappedValue_free (not_bound_of_mem_entries hn ht),
        hf.ground s (by simpa using hvar)]
  refine hno ⟨mappedValue sup f u, fun name => mappedValue_free, fun a ha => ?_, fun x hx => ?_⟩
  · have hatom := hatoms _ (hf.atoms a ha)
    rw [Atom.map_map] at hatom
    rwa [Atom.map_congr fun s hs => hvalue a ha s hs]
  · obtain ⟨s, hs, a, ha, hplace⟩ := hsup.occurs x (List.mem_append_left _ hx)
    obtain rfl : n.symbol (.var x) = s := symbol_of_mem_entries hn.toWellFormed hs
    rw [hvalue a ha _ (Atom.mem_toList.2 (.inl hplace)), hf.answer x hx, mappedValue_free]
    exact not_bound_of_mem_entries hn (hsup.mem_entries hn.toWellFormed hx)

/-- The formula for two queries with the same answer has no model exactly if there is a mapping. -/
theorem unsatisfiable_iff_mapped (hn : n.Sound) (hsub : sub.NamedBy n) (hsup : sup.NamedBy n)
    (hsame : sub.sameAnswer sup) :
    ¬Satisfiable (countermodel sub sup n).formulas ↔ ∃ f, sub.Mapped n sup f := by
  constructor
  · intro h
    exact (entails_of_unsatisfiable hn hsub hsup hsame h).exists_mapped hn.toWellFormed hsub hsup
  · rintro ⟨f, hf⟩
    exact unsatisfiable_of_mapped hn hsup hf

/--
For any two queries that a run has made, and that have the same answer: the formula for the
containment is read as a list of assertions, and these have no model, over any domain and relation,
if and only if in every interpretation in which IRIs, literals and the default graph are different
from each other, the values in an answer of the sub-query are also an answer of the super-query.
-/
theorem countermodel_unsatisfiable_iff (calls : List Call) (hsub : sub ∈ empty.made calls)
    (hsup : sup ∈ empty.made calls) (hsame : sub.sameAnswer sup) :
    ∃ fs, assertions? (formulaText (countermodel sub sup (empty.after calls))) = some fs ∧
      (¬Satisfiable fs ↔ sub.Entails (empty.after calls) sup) := by
  have hn := sound_after sound_empty calls
  have hsub := namedBy_made sound_empty calls sub hsub
  have hsup := namedBy_made sound_empty calls sup hsup
  refine ⟨_, assertions?_formulaText (plain_countermodel hn hsub hsup), ?_⟩
  rw [unsatisfiable_iff_mapped hn hsub hsup hsame]
  constructor
  · rintro ⟨f, hf⟩
    exact hf.entails hsame
  · intro h
    exact h.exists_mapped hn.toWellFormed hsub hsup

/-- Two steps along a property, the second one at an endpoint, and then the first step alone. -/
def pathCalls : List Call :=
  [ .query ⟨.select, .project (.join (.bgp [⟨.var "x", .iri "p", .var "y"⟩])
      (.service (.iri "e") (.bgp [⟨.var "y", .iri "p", .var "z"⟩]))) ["x"], false⟩,
    .query ⟨.select, .project (.bgp [⟨.var "x", .iri "p", .var "y"⟩]) ["x"], false⟩ ]

def pathQuery : ConjunctiveQuery Symbol :=
  ⟨[⟨⟨.var, "x"⟩, ⟨.iri, "p"⟩, ⟨.var, "y"⟩, none⟩,
    ⟨⟨.var, "y"⟩, ⟨.iri, "p"⟩, ⟨.var, "z"⟩, some ⟨.iri, "e"⟩⟩], ["x"], ["y", "z"],
    [("e", ⟨[⟨⟨.var, "y"⟩, ⟨.iri, "p"⟩, ⟨.var, "z"⟩, none⟩], [], ["y", "z"], []⟩)]⟩

def stepQuery : ConjunctiveQuery Symbol :=
  ⟨[⟨⟨.var, "x"⟩, ⟨.iri, "p"⟩, ⟨.var, "y"⟩, none⟩], ["x"], ["y"], []⟩

theorem countermodel_path_unsatisfiable :
    ∃ fs, assertions? (formulaText (countermodel pathQuery stepQuery (empty.after pathCalls))) =
      some fs ∧ ¬Satisfiable fs := by
  have hmade : empty.made pathCalls =
      [pathQuery, ⟨[⟨⟨.var, "y"⟩, ⟨.iri, "p"⟩, ⟨.var, "z"⟩, none⟩], [], ["y", "z"], []⟩,
        stepQuery] := rfl
  have hsame : pathQuery.sameAnswer stepQuery := rfl
  have hmapped : pathQuery.Mapped (empty.after pathCalls) stepQuery id :=
    ⟨fun _ _ => rfl, fun _ _ => rfl, by simp [stepQuery, pathQuery, Atom.map]⟩
  have hpath : pathQuery ∈ empty.made pathCalls := by simp [hmade]
  have hstep : stepQuery ∈ empty.made pathCalls := by simp [hmade]
  obtain ⟨fs, hread, hiff⟩ := countermodel_unsatisfiable_iff pathCalls hpath hstep hsame
  exact ⟨fs, hread, hiff.2 (hmapped.entails hsame)⟩

end Smt

end QueryContainment
