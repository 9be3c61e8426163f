import QueryContainment.Proofs.Smt.Countermodel
import QueryContainment.Proofs.Smt.Solvability

namespace QueryContainment

open Naming

namespace Smt

variable {n : Naming} {sub sup : ConjunctiveQuery Symbol}

namespace Formula

/-- All names that occur, those that are bound included. -/
def names : Formula → List String
  | top => []
  | holds s p o g => [s, p, o, g]
  | equal left right => [left, right]
  | distinct names => names
  | not body => body.names
  | and left right => left.names ++ right.names
  | exist bound body => bound ++ body.names

def free : Formula → List String
  | not body => body.free
  | and left right => left.free ++ right.free
  | exist bound body => body.free.filter fun name => !bound.contains name
  | f => f.names

/-- The names that quantifiers bind. -/
def bound : Formula → List String
  | not body => body.bound
  | and left right => left.bound ++ right.bound
  | exist bound body => bound ++ body.bound
  | _ => []

def equalities : Formula → List (String × String)
  | equal left right => [(left, right)]
  | not body => body.equalities
  | and left right => left.equalities ++ right.equalities
  | exist _ body => body.equalities
  | _ => []

def distinct? : Formula → Option (List String)
  | distinct names => some names
  | _ => none

theorem mem_names_of_mem_free {f : Formula} {name : String} (h : name ∈ f.free) :
    name ∈ f.names := by
  induction f with
  | not body ih => exact ih h
  | and left right ihl ihr =>
    rcases List.mem_append.1 h with h | h
    · exact List.mem_append_left _ (ihl h)
    · exact List.mem_append_right _ (ihr h)
  | exist bound body ih => exact List.mem_append_right _ (ih (List.mem_filter.1 h).1)
  | _ => exact h

theorem collect_conj {α : Type} (collect : Formula → List α) (htop : collect top = [])
    (hand : ∀ left right, collect (and left right) = collect left ++ collect right)
    (fs : List Formula) : collect (conj fs) = fs.flatMap collect := by
  induction fs with
  | nil => exact htop
  | cons f fs ih =>
    cases fs with
    | nil => simp [conj]
    | cons g fs =>
      have hconj : conj (f :: g :: fs) = and f (conj (g :: fs)) := rfl
      rw [hconj, hand, ih]
      rfl

theorem mem_names_closed {s : List Symbol} {body : Formula} {name : String} :
    name ∈ (closed s body).names ↔ name ∈ s.map Symbol.text ∨ name ∈ body.names := by
  by_cases h : s.isEmpty
  · simp [closed, List.isEmpty_iff.1 h]
  · rw [closed, if_neg h, names, List.mem_append]

theorem mem_free_closed {s : List Symbol} {body : Formula} {name : String} :
    name ∈ (closed s body).free ↔ name ∈ body.free ∧ name ∉ s.map Symbol.text := by
  by_cases h : s.isEmpty
  · simp [closed, List.isEmpty_iff.1 h]
  · rw [closed, if_neg h, free, List.mem_filter]
    simp

theorem bound_closed (s : List Symbol) (body : Formula) :
    (closed s body).bound = s.map Symbol.text ++ body.bound := by
  by_cases h : s.isEmpty
  · simp [closed, List.isEmpty_iff.1 h]
  · rw [closed, if_neg h, bound]

theorem equalities_closed (s : List Symbol) (body : Formula) :
    (closed s body).equalities = body.equalities := by
  by_cases h : s.isEmpty
  · rw [closed, if_pos h]
  · rw [closed, if_neg h, equalities]

end Formula

theorem mem_names_atomFormula {a : Atom Symbol} {name : String}
    (h : name ∈ (atomFormula a).names) :
    name = defaultGraphText ∨ ∃ s ∈ a.toList, s.text = name := by
  obtain ⟨s, p, o, g⟩ := a
  cases g <;> simp_all [atomFormula, Formula.names, Atom.toList] <;> grind

def Command.constant? : Command → Option String
  | .declareConstant name _ => some name
  | _ => none

/-- The constants that are declared, one for each declaration. -/
def declared (cs : List Command) : List String := cs.filterMap Command.constant?

def asserted (cs : List Command) : List Formula := cs.filterMap Command.formula?

def lastBound (cs : List Command) : List String := (asserted cs).getLast?.elim [] Formula.bound

def lastEqualities (cs : List Command) : List (String × String) :=
  (asserted cs).getLast?.elim [] Formula.equalities

def GroundName (n : Naming) (name : String) : Prop :=
  ∃ e ∈ n.entries, e.2.isVar = false ∧ e.2.text = name

/-- Every name is declared or bound, none of them twice, and IRIs and literals are kept apart. -/
structure WellDeclared (n : Naming) (cs : List Command) : Prop where
  occurring : ∀ f ∈ asserted cs, ∀ name ∈ f.names,
    name = defaultGraphText ∨ (declared cs).count name = 1 ∨ name ∈ lastBound cs
  free : ∀ f ∈ asserted cs, ∀ name ∈ f.free, (declared cs).count name = 1
  declared_nodup : (declared cs).Nodup
  bound_nodup : (lastBound cs).Nodup
  bound_not_declared : ∀ name ∈ lastBound cs, name ∉ declared cs
  no_distinct : (∀ name ∈ declared cs, ¬GroundName n name) →
    (asserted cs).filterMap Formula.distinct? = []
  distinct : (∃ name ∈ declared cs, GroundName n name) → ∃ names,
    (asserted cs).filterMap Formula.distinct? = [names] ∧ names.Nodup ∧
      ∀ name, name ∈ names ↔ name = defaultGraphText ∨ name ∈ declared cs ∧ GroundName n name

theorem declared_commands (s : Script Statement) :
    declared s.commands = defaultGraphText :: (s.ground ++ s.ofKind .var).map Symbol.text := by
  have hconstants (l : List Symbol) : (l.map fun x =>
      Command.declareConstant x.text sortName).filterMap Command.constant? =
        l.map Symbol.text := by
    rw [List.filterMap_map, ← List.filterMap_eq_map]
    rfl
  have hasserted {α : Type} (f : α → Formula) (l : List α) :
      (l.map fun a => Command.assert (f a)).filterMap Command.constant? = [] := by
    induction l with
    | nil => rfl
    | cons a l ih => exact ih
  rw [declared, Script.commands]
  simp only [List.filterMap_append, hconstants, hasserted]
  simp [List.filterMap_cons, Command.constant?]

theorem asserted_commands (s : Script Statement) : asserted s.commands = s.formulas :=
  formulas_commands s

theorem mem_declared_commands {s : Script Statement} {name : String} :
    name ∈ declared s.commands ↔ name = defaultGraphText ∨ ∃ x ∈ s.declared, x.text = name := by
  have hkinds (x : Symbol) : x ∈ s.ground ++ s.ofKind .var ↔ x ∈ s.declared := by
    cases hk : x.kind <;> simp [Script.ground, Script.ofKind, hk]
  rw [declared_commands, List.mem_cons, List.mem_map]
  simp only [hkinds]

theorem Script.DrawnFrom.nodup_declared (hn : n.WellFormed) {s : Script Statement}
    (hs : s.DrawnFrom n) : (Smt.declared s.commands).Nodup := by
  have hnamed (x : Symbol) (hx : x ∈ s.ground ++ s.ofKind .var) : ∃ t, (t, x) ∈ n.entries := by
    rcases List.mem_append.1 hx with hx | hx
    · exact (hs.mem_ground hx).2
    · exact hs.named x (List.mem_filter.1 hx).1
  have hsymbols : (s.ground ++ s.ofKind .var).Nodup := by
    refine List.nodup_append.2 ⟨hs.nodup_ground, hs.nodup.filter _, fun x hx y hy he => ?_⟩
    have hvar : y.isVar := (List.mem_filter.1 hy).2
    rw [← he, (hs.mem_ground hx).1] at hvar
    cases hvar
  rw [declared_commands]
  refine List.nodup_cons.2 ⟨fun hmem => ?_, hsymbols.map_on fun x hx y hy he => ?_⟩
  · obtain ⟨x, hx, he⟩ := List.mem_map.1 hmem
    obtain ⟨t, ht⟩ := hnamed x hx
    exact text_ne_defaultGraphText hn ht he
  · obtain ⟨t, ht⟩ := hnamed x hx
    obtain ⟨u, hu⟩ := hnamed y hy
    exact eq_of_text_eq hn ht hu he

theorem Script.DrawnFrom.groundName_iff (hn : n.WellFormed) {s : Script Statement}
    (hs : s.DrawnFrom n) {name : String} :
    name ∈ s.ground.map Symbol.text ↔ name ∈ Smt.declared s.commands ∧ GroundName n name := by
  constructor
  · intro h
    obtain ⟨x, hx, rfl⟩ := List.mem_map.1 h
    obtain ⟨hvar, t, ht⟩ := hs.mem_ground hx
    rw [declared_commands]
    exact ⟨List.mem_cons_of_mem _ (List.mem_map_of_mem (List.mem_append_left _ hx)), (t, x), ht,
      hvar, rfl⟩
  · rintro ⟨hdeclared, e, he, hvar, rfl⟩
    rcases mem_declared_commands.1 hdeclared with hdefault | ⟨x, hx, htext⟩
    · exact absurd hdefault (text_ne_defaultGraphText hn he)
    · obtain ⟨t, ht⟩ := hs.named x hx
      rw [eq_of_text_eq hn ht he htext] at hx
      refine List.mem_map_of_mem ?_
      cases hk : e.2.kind <;> simp_all [Script.ground, Script.ofKind, Symbol.isVar]

theorem distinct?_statement (a : Statement) : a.formula.distinct? = none := by
  cases a <;> rfl

theorem filterMap_distinct? (s : Script Statement) : s.formulas.filterMap Formula.distinct? =
    if s.ground.isEmpty then [] else [defaultGraphText :: s.ground.map Symbol.text] := by
  have hnone : (s.assertions.map Statement.formula).filterMap Formula.distinct? = [] := by
    rw [List.filterMap_map]
    exact List.filterMap_eq_nil_iff.2 fun a _ => distinct?_statement a
  rw [Script.formulas, List.filterMap_append, hnone, List.append_nil, Script.distinctness]
  split <;> rfl

theorem wellDeclared_commands (hn : n.WellFormed) {s : Script Statement} (hs : s.DrawnFrom n)
    (hnodup : (lastBound s.commands).Nodup)
    (hapart : ∀ name ∈ lastBound s.commands, name ∉ declared s.commands)
    (hnames : ∀ a ∈ s.assertions, ∀ name ∈ a.formula.names,
      name ∈ declared s.commands ∨ name ∈ lastBound s.commands)
    (hfree : ∀ a ∈ s.assertions, ∀ name ∈ a.formula.free, name ∈ declared s.commands) :
    WellDeclared n s.commands := by
  have honce {name : String} (h : name ∈ declared s.commands) :
      (declared s.commands).count name = 1 := List.count_eq_one_of_mem (hs.nodup_declared hn) h
  have hground {name : String} : name ∈ s.ground.map Symbol.text ↔
      name ∈ declared s.commands ∧ GroundName n name := hs.groundName_iff hn
  -- the names that are said to be distinct are declared, whether bound or free
  have hdistinct : ∀ f ∈ s.distinctness, ∀ name ∈ f.names, name ∈ declared s.commands := by
    intro f hf name hname
    unfold Script.distinctness at hf
    split at hf
    · simp at hf
    · obtain rfl := List.mem_singleton.1 hf
      rcases List.mem_cons.1 hname with rfl | hname
      · exact mem_declared_commands.2 (.inl rfl)
      · exact (hground.1 hname).1
  have hassert {P : Formula → Prop} (hd : ∀ f ∈ s.distinctness, P f)
      (ha : ∀ a ∈ s.assertions, P a.formula) : ∀ f ∈ asserted s.commands, P f := by
    rw [asserted_commands, Script.formulas, List.forall_mem_append, List.forall_mem_map]
    exact ⟨hd, ha⟩
  refine ⟨hassert (fun f hf name h => .inr (.inl (honce (hdistinct f hf name h))))
      fun a ha name h => .inr ((hnames a ha name h).imp honce id),
    hassert (fun f hf name h => honce (hdistinct f hf name (Formula.mem_names_of_mem_free h)))
      fun a ha name h => honce (hfree a ha name h),
    hs.nodup_declared hn, hnodup, hapart, fun hnone => ?_, fun hsome => ?_⟩
  · have hempty : s.ground.isEmpty := by
      refine List.isEmpty_iff.2 (List.eq_nil_iff_forall_not_mem.2 fun x hx => ?_)
      obtain ⟨hd, hg⟩ := hground.1 (List.mem_map_of_mem hx)
      exact hnone _ hd hg
    rw [asserted_commands, filterMap_distinct?, if_pos hempty]
  · have hempty : ¬s.ground.isEmpty := by
      obtain ⟨name, hd, hg⟩ := hsome
      obtain ⟨x, hx, -⟩ := List.mem_map.1 (hground.2 ⟨hd, hg⟩)
      exact fun h => by simp [List.isEmpty_iff.1 h] at hx
    have hnodupDeclared := hs.nodup_declared hn
    rw [declared_commands, List.map_append] at hnodupDeclared
    obtain ⟨hdefault, hsymbols⟩ := List.nodup_cons.1 hnodupDeclared
    refine ⟨defaultGraphText :: s.ground.map Symbol.text,
      by rw [asserted_commands, filterMap_distinct?, if_neg hempty], ?_, fun name => ?_⟩
    · exact List.nodup_cons.2
        ⟨fun h => hdefault (List.mem_append_left _ h), (List.nodup_append.1 hsymbols).1⟩
    · rw [List.mem_cons, hground]

theorem mem_declared_of_atom {s : Script Statement} {a : Atom Symbol} {name : String}
    (hs : ∀ x ∈ a.toList, x ∈ s.declared) (h : name ∈ (atomFormula a).names) :
    name ∈ declared s.commands :=
  mem_declared_commands.2 ((mem_names_atomFormula h).imp id fun ⟨x, hx, hname⟩ =>
    ⟨x, hs x hx, hname⟩)

theorem bound_of_mem_distinctness {s : Script Statement} {f : Formula} (h : f ∈ s.distinctness) :
    f.bound = [] := by
  unfold Script.distinctness at h
  split at h
  · cases h
  · rw [List.mem_singleton.1 h]
    rfl

theorem bound_of_mem_solvability {f : Formula} (h : f ∈ (solvability sub).formulas) :
    f.bound = [] := by
  rw [Script.formulas, List.mem_append] at h
  rcases h with h | h
  · exact bound_of_mem_distinctness h
  · rw [solvability_eq] at h
    obtain ⟨a, ha, rfl⟩ := List.mem_map.1 h
    obtain ⟨b, -, rfl⟩ := List.mem_map.1 ha
    rfl

theorem wellDeclared_solvability (hn : n.WellFormed) (hsub : sub.NamedBy n) :
    WellDeclared n (solvability sub).commands := by
  have hbound : lastBound (solvability sub).commands = [] := by
    rw [lastBound, asserted_commands]
    cases hl : (solvability sub).formulas.getLast? with
    | none => rfl
    | some f => exact bound_of_mem_solvability (List.mem_of_getLast? hl)
  have hatoms : ∀ a ∈ (solvability sub).assertions, ∀ name ∈ a.formula.names,
      name ∈ declared (solvability sub).commands := by
    intro a ha name hname
    rw [solvability_eq] at ha ⊢
    obtain ⟨b, hb, rfl⟩ := List.mem_map.1 ha
    exact mem_declared_of_atom
      (fun x hx => Distinct.mem_ofList.2 (List.mem_flatMap.2 ⟨b, hb, hx⟩)) hname
  refine wellDeclared_commands hn (drawnFrom_solvability hsub) (by simp [hbound])
    (by simp [hbound]) (fun a ha name h => .inl (hatoms a ha name h))
    fun a ha name h => hatoms a ha name (Formula.mem_names_of_mem_free h)

def lastStatement (sup : ConjunctiveQuery Symbol) (n : Naming) : Statement :=
  .noSolution ((boundSymbols sup).map (·.within superScope)) (superConditions sup n)

theorem asserted_countermodel (sub sup : ConjunctiveQuery Symbol) (n : Naming) :
    (asserted (countermodel sub sup n).commands).getLast? = some (lastStatement sup n).formula := by
  rw [asserted_commands, Script.formulas, countermodel_eq]
  simp [lastStatement]

theorem lastBound_countermodel (sub sup : ConjunctiveQuery Symbol) (n : Naming) :
    lastBound (countermodel sub sup n).commands = boundNames sup := by
  have hconditions :
      ((superConditions sup n).map Condition.formula).flatMap Formula.bound = [] := by
    refine List.flatMap_eq_nil_iff.2 fun f hf => ?_
    obtain ⟨c, -, rfl⟩ := List.mem_map.1 hf
    cases c <;> rfl
  rw [lastBound, asserted_countermodel, Option.elim_some, lastStatement, Statement.formula,
    Formula.bound, Formula.bound_closed, Formula.collect_conj Formula.bound rfl fun _ _ => rfl,
    hconditions, List.append_nil]
  rfl

theorem nodup_boundNames (sup : ConjunctiveQuery Symbol) : (boundNames sup).Nodup := by
  rw [boundNames, List.map_map]
  refine (Distinct.nodup_ofList _).map_on fun x hx y hy h => ?_
  exact eq_of_within_text_eq (mem_boundSymbols.1 hx).1 (mem_boundSymbols.1 hy).1 h

theorem symbol_mem_boundSymbols (hn : n.Sound) (hsup : sup.NamedBy n) {x : String}
    (hx : x ∈ sup.answer) : n.symbol (.var x) ∈ boundSymbols sup := by
  obtain ⟨y, hy, a, ha, hplace⟩ := hsup.occurs x (List.mem_append_left _ hx)
  rw [symbol_of_mem_entries hn.toWellFormed hy]
  have hkind : y.kind = .var := hn.kind_eq _ hy
  exact mem_boundSymbols.2 ⟨by simp [Symbol.isVar, hkind], a, ha, Atom.mem_toList.2 (.inl hplace)⟩

theorem symbol_mem_declared (hn : n.WellFormed) (hsub : sub.NamedBy n) {x : String}
    (hx : x ∈ sub.answer) :
    (n.symbol (.var x)).text ∈ declared (countermodel sub sup n).commands := by
  obtain ⟨y, hy, a, ha, hplace⟩ := hsub.occurs x (List.mem_append_left _ hx)
  rw [symbol_of_mem_entries hn hy, mem_declared_commands, countermodel_eq]
  refine .inr ⟨y, Distinct.mem_ofList.2 (List.mem_append_left _ ?_), rfl⟩
  exact List.mem_flatMap.2 ⟨a, ha, Atom.mem_toList.2 (.inl hplace)⟩

theorem filterMap_varSymbol? (hn : n.WellFormed) (hsup : sup.NamedBy n) :
    sup.answer.filterMap n.varSymbol? = sup.answer.map fun x => n.symbol (.var x) := by
  rw [← List.filterMap_eq_map]
  exact List.filterMap_congr fun x hx => symbol?_of_mem_entries hn (hsup.mem_entries hn hx)

theorem lastEqualities_countermodel (hn : n.WellFormed) (hsup : sup.NamedBy n) :
    lastEqualities (countermodel sub sup n).commands = sup.answer.map fun x =>
      (((n.symbol (.var x)).within superScope).text, (n.symbol (.var x)).text) := by
  have hatoms : (sup.atoms.flatMap fun a =>
      (atomFormula (scopedAtom superScope a)).equalities) = [] :=
    List.flatMap_eq_nil_iff.2 fun _ _ => rfl
  rw [lastEqualities, asserted_countermodel, Option.elim_some, lastStatement, Statement.formula,
    Formula.equalities, Formula.equalities_closed,
    Formula.collect_conj Formula.equalities rfl fun _ _ => rfl, superConditions,
    filterMap_varSymbol? hn hsup]
  simp only [List.map_append, List.map_map, List.flatMap_append, Function.comp_def,
    List.flatMap_map, Condition.formula, Formula.equalities, hatoms, List.nil_append]
  exact List.map_eq_flatMap.symm

theorem mem_names_superConditions (hn : n.Sound) (hsub : sub.NamedBy n) (hsup : sup.NamedBy n)
    (hsame : sub.sameAnswer sup) {c : Condition} (hc : c ∈ superConditions sup n) {name : String}
    (hname : name ∈ c.formula.names) :
    name ∈ declared (countermodel sub sup n).commands ∨ name ∈ boundNames sup := by
  rcases List.mem_append.1 hc with hc | hc
  · obtain ⟨a, ha, rfl⟩ := List.mem_map.1 hc
    rcases mem_names_atomFormula hname with hdefault | ⟨y, hy, rfl⟩
    · exact .inl (mem_declared_commands.2 (.inl hdefault))
    · rw [scopedAtom_eq hsup ha, Atom.toList_map] at hy
      obtain ⟨x, hx, rfl⟩ := List.mem_map.1 hy
      by_cases hvar : x.isVar
      · have hbound : x ∈ boundSymbols sup := mem_boundSymbols.2 ⟨hvar, a, ha, hx⟩
        exact .inr (List.mem_map_of_mem (List.mem_map_of_mem hbound))
      -- IRIs and literals are those of no scope, and declared
      · rw [Symbol.within, if_neg hvar, mem_declared_commands, countermodel_eq]
        refine .inl (.inr ⟨x, Distinct.mem_ofList.2 (List.mem_append_right _ ?_), rfl⟩)
        exact List.mem_flatMap.2 ⟨a, ha, List.mem_filter.2 ⟨hx, by simpa using hvar⟩⟩
  · rw [filterMap_varSymbol? hn.toWellFormed hsup, List.map_map] at hc
    obtain ⟨x, hx, rfl⟩ := List.mem_map.1 hc
    have hbound := symbol_mem_boundSymbols hn hsup hx
    simp only [Function.comp_apply, Condition.formula, Formula.names, List.mem_cons,
      List.not_mem_nil, or_false] at hname
    rcases hname with rfl | rfl
    · exact .inr (List.mem_map_of_mem (List.mem_map_of_mem hbound))
    · exact .inl (symbol_mem_declared hn.toWellFormed hsub
        ((ConjunctiveQuery.sameAnswer_iff.1 hsame x).2 hx))

theorem wellDeclared_countermodel (hn : n.Sound) (hsub : sub.NamedBy n) (hsup : sup.NamedBy n)
    (hsame : sub.sameAnswer sup) : WellDeclared n (countermodel sub sup n).commands := by
  have hbound := lastBound_countermodel sub sup n
  have hassert {P : Statement → Prop} (ha : ∀ a ∈ sub.atoms, P (.holds a))
      (hl : P (lastStatement sup n)) : ∀ a ∈ (countermodel sub sup n).assertions, P a := by
    rw [countermodel_eq, List.forall_mem_append, List.forall_mem_map, List.forall_mem_singleton]
    exact ⟨ha, hl⟩
  have hatoms (a : Atom Symbol) (ha : a ∈ sub.atoms) (name : String)
      (h : name ∈ (atomFormula a).names) : name ∈ declared (countermodel sub sup n).commands := by
    refine mem_declared_of_atom (fun x hx => ?_) h
    rw [countermodel_eq]
    exact Distinct.mem_ofList.2 (List.mem_append_left _ (List.mem_flatMap.2 ⟨a, ha, hx⟩))
  -- the names below the quantifier
  have hinner (name : String)
      (h : name ∈ (Formula.conj ((superConditions sup n).map Condition.formula)).names) :
      name ∈ declared (countermodel sub sup n).commands ∨ name ∈ boundNames sup := by
    rw [Formula.collect_conj Formula.names rfl fun _ _ => rfl, List.mem_flatMap] at h
    obtain ⟨f, hf, hname⟩ := h
    obtain ⟨c, hc, rfl⟩ := List.mem_map.1 hf
    exact mem_names_superConditions hn hsub hsup hsame hc hname
  refine wellDeclared_commands hn.toWellFormed (drawnFrom_countermodel hsub hsup)
    (hbound ▸ nodup_boundNames sup) (fun name hmem hdecl => ?_)
    (hassert (fun a ha name h => .inl (hatoms a ha name h)) fun name h => ?_)
    (hassert (fun a ha name h => hatoms a ha name (Formula.mem_names_of_mem_free h))
      fun name h => ?_)
  · rw [hbound] at hmem
    rcases mem_declared_commands.1 hdecl with rfl | ⟨x, hx, rfl⟩
    · exact defaultGraph_not_bound hmem
    · obtain ⟨t, ht⟩ := (drawnFrom_countermodel hsub hsup).named x hx
      exact not_bound_of_mem_entries hn ht hmem
  · rw [hbound]
    exact (Formula.mem_names_closed.1 h).elim .inr (hinner name)
  · obtain ⟨hfree, hnot⟩ := Formula.mem_free_closed.1 h
    exact (hinner name (Formula.mem_names_of_mem_free hfree)).resolve_right hnot

/--
There is one equality for each variable in the answer of the super-query, between the variable in
the scope of the super-query, which is bound, and the variable itself, which is declared.
-/
def EquatesAnswer (n : Naming) (sup : ConjunctiveQuery Symbol) (cs : List Command) : Prop :=
  (lastEqualities cs = sup.answer.map fun x =>
    (((n.symbol (.var x)).within superScope).text, (n.symbol (.var x)).text)) ∧
  ∀ e ∈ lastEqualities cs, e.1 ∈ lastBound cs ∧ e.2 ∈ declared cs

theorem equatesAnswer_countermodel (hn : n.Sound) (hsub : sub.NamedBy n) (hsup : sup.NamedBy n)
    (hsame : sub.sameAnswer sup) : EquatesAnswer n sup (countermodel sub sup n).commands := by
  have hequalities : lastEqualities (countermodel sub sup n).commands = _ :=
    lastEqualities_countermodel hn.toWellFormed hsup
  refine ⟨hequalities, ?_⟩
  rw [hequalities, lastBound_countermodel, List.forall_mem_map]
  exact fun x hx => ⟨List.mem_map_of_mem (List.mem_map_of_mem (symbol_mem_boundSymbols hn hsup hx)),
    symbol_mem_declared hn.toWellFormed hsub ((ConjunctiveQuery.sameAnswer_iff.1 hsame x).2 hx)⟩

/--
All names are plain and declared no more than once, nothing is asserted of a name that is not
declared, and what is bound is not declared.
-/
structure Script.Closed (s : Script Statement) : Prop extends Script.Plain s where
  nodup_declared : (Smt.declared s.commands).Nodup
  free : ∀ f ∈ s.formulas, ∀ name ∈ f.free, name ∈ Smt.declared s.commands
  nodup_bound : ∀ f ∈ s.formulas, f.bound.Nodup
  bound_not_declared : ∀ f ∈ s.formulas, ∀ name ∈ f.bound, name ∉ Smt.declared s.commands

theorem WellDeclared.closed {s : Script Statement} (h : WellDeclared n s.commands)
    (hplain : s.Plain)
    (hbound : ∀ f ∈ s.formulas, f.bound = [] ∨ f.bound = lastBound s.commands) : s.Closed where
  toPlain := hplain
  nodup_declared := h.declared_nodup
  free := by
    intro f hf name hname
    rw [← asserted_commands] at hf
    exact List.count_pos_iff.1 (h.free f hf name hname ▸ Nat.one_pos)
  nodup_bound := by
    intro f hf
    rcases hbound f hf with hnone | hlast
    · exact hnone ▸ List.nodup_nil
    · exact hlast ▸ h.bound_nodup
  bound_not_declared := by
    intro f hf name hname
    rcases hbound f hf with hnone | hlast
    · simp [hnone] at hname
    · exact h.bound_not_declared name (hlast ▸ hname)

theorem closed_solvability (hn : n.Sound) (hsub : sub.NamedBy n) : (solvability sub).Closed :=
  (wellDeclared_solvability hn.toWellFormed hsub).closed (plain_solvability hn hsub)
    fun _ hf => .inl (bound_of_mem_solvability hf)

theorem closed_countermodel (hn : n.Sound) (hsub : sub.NamedBy n) (hsup : sup.NamedBy n)
    (hsame : sub.sameAnswer sup) : (countermodel sub sup n).Closed := by
  refine (wellDeclared_countermodel hn hsub hsup hsame).closed (plain_countermodel hn hsub hsup)
    fun f hf => ?_
  have hlast : (lastStatement sup n).formula.bound =
      lastBound (countermodel sub sup n).commands := by
    rw [lastBound, asserted_countermodel, Option.elim_some]
  rw [Script.formulas, List.mem_append, countermodel_eq] at hf
  rcases hf with hf | hf
  · exact .inl (bound_of_mem_distinctness hf)
  · obtain ⟨a, ha, rfl⟩ := List.mem_map.1 hf
    rcases List.mem_append.1 ha with ha | ha
    · obtain ⟨b, -, rfl⟩ := List.mem_map.1 ha
      exact .inl rfl
    · rw [List.mem_singleton.1 ha]
      exact .inr hlast

end Smt

end QueryContainment
