import QueryContainment.Proofs.Naming.Services
import QueryContainment.Proofs.Smt.Solvability

namespace QueryContainment

open Naming

/-- A symbol that a run of calls hands out, or a copy in local scopes, whatever these are called. -/
inductive Naming.Offered (calls : List Call) : Symbol → Prop
  | handedOut {t : Term} {s : Symbol} (h : (t, s) ∈ empty.log calls) : Offered calls s
  | within (scope : String) {s : Symbol} (h : Offered calls s) : Offered calls (s.within scope)

namespace Naming.Offered

variable {calls : List Call} {s t : Symbol}

theorem handedOut_or_dotted (h : Offered calls s) :
    (∃ t, (t, s) ∈ empty.log calls) ∨ (s.isVar ∧ '.' ∈ s.name.toList) := by
  induction h with
  | handedOut h => exact .inl ⟨_, h⟩
  | @within scope s _ ih =>
    by_cases hvar : s.isVar
    · exact .inr ⟨Symbol.isVar_within hvar scope, Symbol.dot_mem_name_within hvar scope⟩
    · rwa [Symbol.within, if_neg hvar]

theorem dot_not_mem {u : Term} (h : (u, s) ∈ empty.log calls) : '.' ∉ s.name.toList :=
  (sound_after sound_empty calls).dot_not_mem (mem_entries_iff_log.2 h)

/-- No copy is taken for another one or for a symbol of the table. -/
theorem eq_of_name_eq (hs : Offered calls s) (ht : Offered calls t) (h : s.name = t.name) :
    s = t := by
  have hn := (sound_after sound_empty calls).toWellFormed
  rcases hs.handedOut_or_dotted with ⟨u, hu⟩ | ⟨hvar, hdot⟩
  · rcases ht.handedOut_or_dotted with ⟨v, hv⟩ | ⟨-, hdot⟩
    · exact Smt.eq_of_text_eq hn (mem_entries_iff_log.2 hu) (mem_entries_iff_log.2 hv)
        (Smt.text_inj.2 h)
    · exact absurd (h ▸ hdot) (dot_not_mem hu)
  · rcases ht.handedOut_or_dotted with ⟨v, hv⟩ | ⟨hvar', -⟩
    · exact absurd (h ▸ hdot) (dot_not_mem hv)
    · exact Symbol.eq_of_isVar hvar hvar' h

theorem name_ne_defaultGraph (h : Offered calls s) : s.name ≠ defaultGraph := by
  rcases h.handedOut_or_dotted with ⟨u, hu⟩ | ⟨-, hdot⟩
  · exact Naming.name_ne_defaultGraph (sound_after sound_empty calls).toWellFormed
      (mem_entries_iff_log.2 hu)
  · intro he
    rw [he] at hdot
    exact absurd hdot (by decide)

end Naming.Offered

namespace Smt.Script

variable {α : Type} {calls : List Naming.Call} {text : α → String}

/-- What is done to a script. -/
inductive Edit (α : Type) where
  | declare (symbol : Symbol)
  | declareTermsOf (atom : Atom Symbol)
  | declareGroundOf (atom : Atom Symbol)
  | assert (assertion : α)

namespace Edit

def apply (s : Script α) : Edit α → Script α
  | declare symbol => s.declare symbol
  | declareTermsOf atom => s.declareTermsOf atom
  | declareGroundOf atom => s.declareGroundOf atom
  | assert assertion => s.assert assertion

/-- The edit asks for a declaration of the symbol; of an atom, its graph is declared as well. -/
def Declares (x : Symbol) : Edit α → Prop
  | declare symbol => x = symbol
  | declareTermsOf atom => x ∈ atom.places ∨ atom.graph = some x
  | declareGroundOf atom => (x ∈ atom.places ∨ atom.graph = some x) ∧ x.kind ≠ .var
  | assert _ => False

/-- The symbols that an edit declares, in the order in which they come. -/
def symbols : Edit α → List Symbol
  | declare symbol => [symbol]
  | declareTermsOf atom => atom.toList
  | declareGroundOf atom => atom.toList.filter (!·.isVar)
  | assert _ => []

def assertion? : Edit α → Option α
  | assert assertion => some assertion
  | _ => none

theorem mem_symbols {e : Edit α} {x : Symbol} : x ∈ e.symbols ↔ e.Declares x := by
  cases e with
  | declare symbol => exact List.mem_singleton
  | declareTermsOf atom => exact Atom.mem_toList
  | declareGroundOf atom =>
    simp only [symbols, Declares, List.mem_filter, Atom.mem_toList, Symbol.isVar]
    cases x.kind <;> simp
  | assert assertion => simp [symbols, Declares]

theorem apply_eq (s : Script α) (e : Edit α) :
    e.apply s = ⟨Distinct.addAll s.declared e.symbols, s.assertions ++ e.assertion?.toList⟩ := by
  have hdeclared (l : List Symbol) :
      s.declareAll l = ⟨Distinct.addAll s.declared l, s.assertions ++ []⟩ := by
    rw [declareAll_eq, List.append_nil]
  cases e with
  | declare symbol => exact hdeclared [symbol]
  | declareTermsOf atom => exact hdeclared _
  | declareGroundOf atom => exact hdeclared _
  | assert assertion => rfl

end Edit

/-- The script after some edits. -/
def after (s : Script α) (history : List (Edit α)) : Script α := history.foldl Edit.apply s

theorem after_append (s : Script α) (history more : List (Edit α)) :
    s.after (history ++ more) = (s.after history).after more := List.foldl_append

theorem after_eq (s : Script α) (history : List (Edit α)) :
    s.after history = ⟨Distinct.addAll s.declared (history.flatMap Edit.symbols),
      s.assertions ++ history.filterMap Edit.assertion?⟩ := by
  induction history generalizing s with
  | nil =>
    rw [List.filterMap_nil, List.append_nil]
    rfl
  | cons e history ih =>
    show (e.apply s).after history = _
    rw [ih, Edit.apply_eq, List.flatMap_cons, Distinct.addAll_append, List.append_assoc]
    cases e <;> rfl

theorem after_empty (history : List (Edit α)) : (empty : Script α).after history =
    ⟨Distinct.ofList (history.flatMap Edit.symbols), history.filterMap Edit.assertion?⟩ :=
  after_eq empty history

theorem after_again {s : Script α} {before : List (Edit α)} {e : Edit α} (he : e ∈ before)
    (hnone : e.assertion? = none) : (s.after before).after [e] = s.after before := by
  have hdeclared : ∀ x ∈ e.symbols,
      x ∈ Distinct.addAll s.declared (before.flatMap Edit.symbols) := fun x hx =>
    Distinct.mem_addAll.2 (.inr (List.mem_flatMap.2 ⟨e, he, hx⟩))
  show e.apply (s.after before) = _
  rw [Edit.apply_eq, after_eq, hnone, Distinct.addAll_eq_self hdeclared, Option.toList_none,
    List.append_nil]

theorem flatMap_symbols_filter (history : List (Edit α)) :
    (history.filter (·.assertion?.isNone)).flatMap Edit.symbols =
      history.flatMap Edit.symbols := by
  induction history with
  | nil => rfl
  | cons e history ih =>
    cases e with
    | assert assertion => exact ih
    | _ => exact congrArg (_ ++ ·) ih

/-- The symbols of a kind that a history declares, by their first declaration. -/
structure InOrder (history : List (Edit α)) (kind : SymbolKind) (l : List Symbol) : Prop where
  mem_iff : ∀ x, x ∈ l ↔ x.kind = kind ∧ ∃ e ∈ history, e.Declares x
  ordered : l.Pairwise fun x y =>
    (history.flatMap Edit.symbols).idxOf x < (history.flatMap Edit.symbols).idxOf y

theorem InOrder.nodup {history : List (Edit α)} {kind : SymbolKind} {l : List Symbol}
    (h : InOrder history kind l) : l.Nodup := by
  refine h.ordered.imp ?_
  rintro x _ hlt rfl
  exact Nat.lt_irrefl _ hlt

theorem inOrder_ofKind (history : List (Edit α)) (kind : SymbolKind) :
    InOrder history kind ((empty.after history).ofKind kind) := by
  rw [after_empty, ofKind]
  refine ⟨fun x => ?_, (Distinct.pairwise_idxOf_ofList _).filter _⟩
  simp only [List.mem_filter, Distinct.mem_ofList, List.mem_flatMap, Edit.mem_symbols,
    beq_iff_eq]
  exact and_comm

/-- A line that declares a constant. -/
def isDeclaration (line : String) : Bool := "(declare-const ".toList.isPrefixOf line.toList

theorem declaration_eq (x : Symbol) :
    x.declaration = "(declare-const " ++ (x.text ++ (" " ++ sortName ++ ")")) := by
  simp only [← String.append_assoc]
  rfl

theorem declaration_inj {x y : Symbol} : x.declaration = y.declaration ↔ x.name = y.name := by
  rw [declaration_eq, declaration_eq, String.append_right_inj, String.append_left_inj, text_inj]

theorem isDeclaration_declaration (x : Symbol) : isDeclaration x.declaration = true := by
  rw [isDeclaration, List.isPrefixOf_iff_prefix, declaration_eq, String.toList_append]
  exact List.prefix_append _ _

theorem isDeclaration_heading (title : String) : isDeclaration (heading title) = false := by
  show "(declare-const ".toList.isPrefixOf
    ("; ------------ " ++ title ++ " " ++ String.ofList _).toList = false
  simp only [String.toList_append]
  rfl

theorem isDeclaration_assertText (term : String) : isDeclaration (assertText term) = false := by
  rw [isDeclaration, assertText]
  simp only [String.toList_append]
  rfl

theorem filter_map_declaration (l : List Symbol) :
    (l.map Symbol.declaration).filter isDeclaration = l.map Symbol.declaration := by
  simp [List.filter_eq_self, isDeclaration_declaration]

theorem filter_lines (text : α → String) (s : Script α) :
    (s.lines text).filter isDeclaration =
      (⟨.iri, defaultGraph⟩ :: (s.ofKind .iri ++ s.ofKind .literal ++ s.ofKind .var)).map
        Symbol.declaration := by
  have hpreamble : preamble.filter isDeclaration = [Symbol.declaration ⟨.iri, defaultGraph⟩] := by
    decide
  have hunique : s.uniqueNames.filter isDeclaration = [] := by
    unfold uniqueNames
    split
    · rfl
    · simp [isDeclaration_heading, isDeclaration_assertText]
  have hassertions : (s.assertions.map (assertText ∘ text)).filter isDeclaration = [] := by
    simp [List.filter_eq_nil_iff, isDeclaration_assertText]
  have hcheck : isDeclaration "(check-sat)" = false := by decide
  simp only [lines, List.filter_append, List.filter_cons, isDeclaration_heading, hpreamble,
    filter_map_declaration, hunique, hassertions, hcheck, List.filter_nil, List.map_cons,
    List.map_append, List.append_nil, if_false, Bool.false_eq_true, List.cons_append,
    List.nil_append, List.append_assoc]

theorem InOrder.disjoint {history : List (Edit α)} {kind kind' : SymbolKind} {l l' : List Symbol}
    (h : InOrder history kind l) (h' : InOrder history kind' l') (hne : kind ≠ kind') :
    l.Disjoint l' := fun x hx hx' =>
  hne (((h.mem_iff x).1 hx).1.symm.trans ((h'.mem_iff x).1 hx').1)

theorem nodup_names {history : List (Edit α)}
    (h : ∀ e ∈ history, ∀ x, e.Declares x → Offered calls x) {iris literals vars : List Symbol}
    (hiris : InOrder history .iri iris) (hliterals : InOrder history .literal literals)
    (hvars : InOrder history .var vars) :
    ((⟨.iri, defaultGraph⟩ :: (iris ++ literals ++ vars)).map Symbol.name).Nodup := by
  have hoffered : ∀ x ∈ iris ++ literals ++ vars, Offered calls x := by
    have hkind {kind : SymbolKind} {l : List Symbol} (hl : InOrder history kind l) :
        ∀ x ∈ l, Offered calls x := fun x hx => by
      obtain ⟨-, e, he, hx⟩ := (hl.mem_iff x).1 hx
      exact h e he x hx
    simp only [List.forall_mem_append]
    exact ⟨⟨hkind hiris, hkind hliterals⟩, hkind hvars⟩
  have hground : (iris ++ literals).Nodup :=
    hiris.nodup.append hliterals.nodup (hiris.disjoint hliterals (by decide))
  have hall : (iris ++ literals ++ vars).Nodup :=
    hground.append hvars.nodup (List.disjoint_append_left.2
      ⟨hiris.disjoint hvars (by decide), hliterals.disjoint hvars (by decide)⟩)
  refine List.nodup_cons.2 ⟨fun hmem => ?_, hall.map_on fun x hx y hy =>
    (hoffered x hx).eq_of_name_eq (hoffered y hy)⟩
  obtain ⟨x, hx, hname⟩ := List.mem_map.1 hmem
  exact (hoffered x hx).name_ne_defaultGraph hname

def OneLine (s : String) : Prop := '\n' ∉ s.toList

theorem OneLine.append {a b : String} (ha : OneLine a) (hb : OneLine b) : OneLine (a ++ b) := by
  simpa only [OneLine, String.toList_append, List.mem_append, not_or] using And.intro ha hb

theorem OneLine.unwords {l : List String} (h : ∀ s ∈ l, OneLine s) : OneLine (unwords l) := by
  induction l with
  | nil => simp [OneLine, Smt.unwords]
  | cons first l ih =>
    obtain ⟨hfirst, hl⟩ := List.forall_mem_cons.1 h
    cases l with
    | nil => simpa [Smt.unwords] using hfirst
    | cons second l =>
      rw [Smt.unwords, String.intercalate_cons_of_ne_nil (by simp)]
      exact (hfirst.append (by simp [OneLine])).append (ih hl)

theorem OneLine.symbol {x : Symbol} (h : OneLine x.name) : OneLine x.text :=
  (OneLine.append (by simp [OneLine]) h).append (by simp [OneLine])

theorem OneLine.declaration {x : Symbol} (h : OneLine x.name) : OneLine x.declaration := by
  rw [declaration_eq]
  exact OneLine.append (by simp [OneLine]) (h.symbol.append (by simp [OneLine, sortName]))

theorem OneLine.assertText {term : String} (h : OneLine term) : OneLine (assertText term) :=
  (OneLine.append (by simp [OneLine]) h).append (by simp [OneLine])

theorem OneLine.heading {title : String} (h : OneLine title) : OneLine (heading title) := by
  refine OneLine.append ((OneLine.append (by simp [OneLine]) h).append (by simp [OneLine])) ?_
  rw [OneLine, String.toList_ofList]
  exact fun hc => absurd (List.eq_of_mem_replicate hc) (by decide)

theorem oneLine_preamble : ∀ line ∈ preamble, OneLine line := by
  have hgraph : OneLine (Symbol.declaration ⟨.iri, defaultGraph⟩) :=
    OneLine.declaration (by simp [OneLine, defaultGraph])
  exact List.forall_mem_cons.2 ⟨by unfold OneLine; decide,
    List.forall_mem_cons.2 ⟨by unfold OneLine; decide, List.forall_mem_singleton.2 hgraph⟩⟩

theorem oneLine_lines {s : Script α} (hdeclared : ∀ x ∈ s.declared, OneLine x.name)
    (hassertions : ∀ a ∈ s.assertions, OneLine (text a)) :
    ∀ line ∈ s.lines text, OneLine line := by
  have hkind (kind : SymbolKind) : ∀ x ∈ s.ofKind kind, OneLine x.name := fun x hx =>
    hdeclared x (List.mem_filter.1 hx).1
  have hdeclarations (kind : SymbolKind) :
      ∀ line ∈ (s.ofKind kind).map Symbol.declaration, OneLine line :=
    List.forall_mem_map.2 fun x hx => (hkind kind x hx).declaration
  have hunique : ∀ line ∈ s.uniqueNames, OneLine line := by
    unfold uniqueNames
    split
    · simp
    · have hnames : ∀ name ∈ defaultGraphText :: s.ground.map Symbol.text, OneLine name := by
        refine List.forall_mem_cons.2 ⟨by simp [OneLine, defaultGraphText, defaultGraph], ?_⟩
        refine List.forall_mem_map.2 (List.forall_mem_append.2 ⟨fun x hx => ?_, fun x hx => ?_⟩)
        · exact (hkind .iri x hx).symbol
        · exact (hkind .literal x hx).symbol
      have hdistinct := OneLine.append (a := "(distinct ") (by simp [OneLine]) (.unwords hnames)
      simp only [List.forall_mem_cons, List.not_mem_nil, false_implies, implies_true, and_true]
      exact ⟨OneLine.heading (by simp [OneLine]),
        (hdistinct.append (by simp [OneLine])).assertText⟩
  have hasserted : ∀ line ∈ s.assertions.map (Smt.assertText ∘ text), OneLine line :=
    List.forall_mem_map.2 fun a ha => (hassertions a ha).assertText
  have hcheck : OneLine "(check-sat)" := by simp [OneLine]
  simp only [lines, List.forall_mem_append, List.forall_mem_cons, List.not_mem_nil, false_implies,
    implies_true, and_true]
  exact ⟨⟨⟨⟨⟨⟨⟨.heading (by simp [OneLine]), oneLine_preamble⟩,
    .heading (by simp [OneLine]), hdeclarations _⟩, .heading (by simp [OneLine]), hdeclarations _⟩,
    hunique⟩, .heading (by simp [OneLine]), hdeclarations _⟩, .heading (by simp [OneLine]),
    hasserted⟩, hcheck⟩

/-- The text falls apart into the lines again. -/
theorem splitOn_render {s : Script α} (h : ∀ line ∈ s.lines text, OneLine line) :
    (s.render text).toList.splitOn '\n' = (s.lines text).map String.toList := by
  rw [render, String.toList_intercalate]
  exact List.splitOn_intercalate '\n' (List.forall_mem_map.2 h) (by simp [lines])

/-- The lines of a script that was built by a history. -/
structure Layout (text : α → String) (history : List (Edit α)) (lines : List String)
    (iris literals vars : List Symbol) : Prop where
  iris_inOrder : InOrder history .iri iris
  literals_inOrder : InOrder history .literal literals
  vars_inOrder : InOrder history .var vars
  /-- The symbols of each kind have a section, and the assertions come in their order. -/
  lines_eq : lines = heading "Sort and Predicate" :: preamble
    ++ heading "IRIs" :: iris.map Symbol.declaration
    ++ heading "Literals" :: literals.map Symbol.declaration
    ++ (if (iris ++ literals).isEmpty then [] else
      [ heading "Unique Names", assertText ("(distinct " ++
        unwords ((⟨.iri, defaultGraph⟩ :: (iris ++ literals)).map Symbol.text) ++ ")") ])
    ++ heading "Variables" :: vars.map Symbol.declaration
    ++ heading "Conjecture" :: (history.filterMap Edit.assertion?).map (assertText ∘ text)
    ++ ["(check-sat)"]
  /-- There is a section for unique names if an IRI or a literal is declared. -/
  ground : (iris ++ literals).isEmpty = false ↔
    ∃ e ∈ history, ∃ x, e.Declares x ∧ x.isVar = false
  /-- No other line declares a constant, and none is declared twice. -/
  declarations : lines.filter isDeclaration =
    (⟨.iri, defaultGraph⟩ :: (iris ++ literals ++ vars)).map Symbol.declaration
  declared_once : (lines.filter isDeclaration).Nodup
  names_once : ((⟨.iri, defaultGraph⟩ :: (iris ++ literals)).map Symbol.text).Nodup

theorem layout_after {history : List (Edit α)}
    (h : ∀ e ∈ history, ∀ x, e.Declares x → Offered calls x) :
    Layout text history ((empty.after history).lines text) ((empty.after history).ofKind .iri)
      ((empty.after history).ofKind .literal) ((empty.after history).ofKind .var) := by
  have hiris := inOrder_ofKind history .iri
  have hliterals := inOrder_ofKind history .literal
  have hnames := nodup_names h hiris hliterals (inOrder_ofKind history .var)
  refine ⟨hiris, hliterals, inOrder_ofKind history .var, ?_, ?_, filter_lines text _, ?_, ?_⟩
  · have hassertions : (empty.after history).assertions = history.filterMap Edit.assertion? := by
      rw [after_empty]
    rw [lines, uniqueNames, hassertions]
    rfl
  · rw [List.isEmpty_eq_false_iff_exists_mem]
    simp only [List.mem_append, hiris.mem_iff, hliterals.mem_iff]
    constructor
    · rintro ⟨x, ⟨hkind, e, he, hx⟩ | ⟨hkind, e, he, hx⟩⟩ <;>
        exact ⟨e, he, x, hx, by rw [Symbol.isVar, hkind]; rfl⟩
    · rintro ⟨e, he, x, hx, hground⟩
      refine ⟨x, ?_⟩
      cases hkind : x.kind with
      | iri => exact .inl ⟨rfl, e, he, hx⟩
      | literal => exact .inr ⟨rfl, e, he, hx⟩
      | var => simp [Symbol.isVar, hkind] at hground
  · rw [filter_lines]
    simpa only [List.Nodup, List.pairwise_map, ne_eq, declaration_inj] using hnames
  · have hground := hnames.sublist (((List.sublist_append_left _ _).cons_cons _).map Symbol.name)
    simpa only [List.Nodup, List.pairwise_map, ne_eq, text_inj] using hground

/--
A script that is built by any edits, in any order, from symbols that one table hands out and their
copies. Each symbol that is declared has one line in the section of its kind, in the order of the
first declarations, and assertions come in their order; where neither names nor assertions break a
line, these are the lines of the text. An edit that declares changes nothing when it is repeated,
and it does not matter where assertions come between the declarations.
-/
theorem history_layout (calls : List Naming.Call) (text : α → String) {history : List (Edit α)}
    (h : ∀ e ∈ history, ∀ x, e.Declares x → Offered calls x) :
    (∃ iris literals vars,
      Layout text history ((empty.after history).lines text) iris literals vars) ∧
    ((∀ e ∈ history, (∀ x, e.Declares x → OneLine x.name) ∧
        ∀ a, e.assertion? = some a → OneLine (text a)) →
      ((empty.after history).render text).toList.splitOn '\n' =
        ((empty.after history).lines text).map String.toList) ∧
    (∀ before later e, history = before ++ later → e ∈ before → e.assertion? = none →
      (empty : Script α).after (before ++ e :: later) = empty.after history) ∧
    ∀ history' : List (Edit α),
      history'.filter (·.assertion?.isNone) = history.filter (·.assertion?.isNone) →
      history'.filterMap Edit.assertion? = history.filterMap Edit.assertion? →
      (empty : Script α).after history' = empty.after history := by
  refine ⟨⟨_, _, _, layout_after h⟩, fun hlines => ?_, ?_, fun history' hdeclares hasserts => ?_⟩
  · refine splitOn_render (oneLine_lines (fun x hx => ?_) fun a ha => ?_)
    · rw [after_empty, Distinct.mem_ofList, List.mem_flatMap] at hx
      obtain ⟨e, he, hx⟩ := hx
      exact (hlines e he).1 x (Edit.mem_symbols.1 hx)
    · rw [after_empty, List.mem_filterMap] at ha
      obtain ⟨e, he, ha⟩ := ha
      exact (hlines e he).2 a ha
  · rintro before later e rfl he hnone
    have hagain := after_again (s := (empty : Script α)) he hnone
    rw [← List.singleton_append, after_append, after_append, hagain, after_append]
  · rw [after_empty, after_empty, ← flatMap_symbols_filter history', hdeclares, hasserts,
      flatMap_symbols_filter]

/-- A variable before and after its copy, and a graph that is declared as a predicate first. -/
def copiedHistory : List (Edit String) :=
  [ .assert "true", .declareGroundOf ⟨⟨.var, "x"⟩, ⟨.iri, "g"⟩, ⟨.var, "x"⟩, none⟩,
    .declareTermsOf ⟨⟨.var, "x"⟩, ⟨.iri, "g"⟩, ⟨.literal, "l_0"⟩, some ⟨.iri, "g"⟩⟩,
    .assert "false", .declare (Symbol.within "super" ⟨.var, "x"⟩), .declare ⟨.var, "x"⟩ ]

theorem history_layout_copied :
    ((empty.after copiedHistory).lines id).filter isDeclaration =
      [ "(declare-const <default_graph> RDFValue)", "(declare-const <g> RDFValue)",
        "(declare-const <l_0> RDFValue)", "(declare-const <x> RDFValue)",
        "(declare-const <super.x> RDFValue)" ] ∧
    (((empty.after copiedHistory).lines id).filter isDeclaration).Nodup ∧
    (((empty.after copiedHistory).render id).toList.splitOn '\n').length = 17 ∧
    (empty : Script String).after (copiedHistory ++ [.declare ⟨.var, "x"⟩]) =
      empty.after copiedHistory := by
  let calls : List Naming.Call :=
    [.term (.iri "g"), .term (.var "x"), .term (.literal (.simple "a"))]
  have hx : Offered calls ⟨.var, "x"⟩ := .handedOut (t := .var "x") (by decide)
  have hg : Offered calls ⟨.iri, "g"⟩ := .handedOut (t := .iri "g") (by decide)
  have hl : Offered calls ⟨.literal, "l_0"⟩ :=
    .handedOut (t := .literal (.simple "a")) (by decide)
  have hsymbols : copiedHistory.flatMap Edit.symbols = [⟨.iri, "g"⟩, ⟨.var, "x"⟩, ⟨.iri, "g"⟩,
      ⟨.literal, "l_0"⟩, ⟨.iri, "g"⟩, Symbol.within "super" ⟨.var, "x"⟩, ⟨.var, "x"⟩] := rfl
  have hdeclares (e : Edit String) (he : e ∈ copiedHistory) (y : Symbol) (hy : e.Declares y) :
      y ∈ copiedHistory.flatMap Edit.symbols :=
    List.mem_flatMap.2 ⟨e, he, Edit.mem_symbols.2 hy⟩
  have hoffered : ∀ y ∈ copiedHistory.flatMap Edit.symbols, Offered calls y := by
    simp only [hsymbols, List.forall_mem_cons]
    exact ⟨hg, hx, hg, hl, hg, hx.within "super", hx, by simp⟩
  have hnames : ∀ y ∈ copiedHistory.flatMap Edit.symbols, OneLine y.name := by
    unfold OneLine
    decide
  have hasserts : ∀ a ∈ copiedHistory.filterMap Edit.assertion?, OneLine a := by
    unfold OneLine
    decide
  obtain ⟨⟨_, _, _, hlayout⟩, hlines, hagain, -⟩ :=
    history_layout calls id fun e he y hy => hoffered y (hdeclares e he y hy)
  refine ⟨by rw [filter_lines]; rfl, hlayout.declared_once, ?_, ?_⟩
  · rw [hlines fun e he => ⟨fun y hy => hnames y (hdeclares e he y hy),
      fun a ha => hasserts a (List.mem_filterMap.2 ⟨e, he, ha⟩)⟩]
    rfl
  · exact hagain copiedHistory [] _ (List.append_nil _).symm (by simp [copiedHistory]) rfl

end Smt.Script

end QueryContainment
