import Mathlib.Tactic.Choose
import QueryContainment.Proofs.Naming.Run
import QueryContainment.Proofs.Smt.Formula
import QueryContainment.Smt.Countermodel

namespace QueryContainment

open Naming

/-- A symbol whose name has letters, digits, underscores and dots only. -/
def Symbol.Plain (s : Symbol) : Prop := ∀ c ∈ s.name.toList, isNameChar c ∨ c = '.'

namespace Smt

def atomFormula (a : Atom Symbol) : Formula :=
  .holds a.subject.text a.predicate.text a.object.text
    ((a.graph.map Symbol.text).getD defaultGraphText)

/-- Binds nothing if there is nothing to bind. -/
def closed (bound : List Symbol) (body : Formula) : Formula :=
  if bound.isEmpty then body else .exist (bound.map Symbol.text) body

def Condition.formula : Condition → Formula
  | .holds a => atomFormula a
  | .equal left right => .equal left.text right.text

def Condition.symbols : Condition → List Symbol
  | .holds a => a.toList
  | .equal left right => [left, right]

def Statement.formula : Statement → Formula
  | .holds a => atomFormula a
  | .noSolution bound conditions =>
    .not (closed bound (.conj (conditions.map Condition.formula)))

def Statement.symbols : Statement → List Symbol
  | .holds a => a.toList
  | .noSolution bound conditions => bound ++ conditions.flatMap Condition.symbols

namespace Script

/-- The assertion that ground symbols are distinct, if there are any. -/
def distinctness (s : Script Statement) : List Formula :=
  if s.ground.isEmpty then [] else [.distinct (defaultGraphText :: s.ground.map Symbol.text)]

/-- The formulas that a script asserts. -/
def formulas (s : Script Statement) : List Formula :=
  s.distinctness ++ s.assertions.map Statement.formula

def commands (s : Script Statement) : List Command :=
  [.declareSort sortName, .declarePredicate predicateName (List.replicate 4 sortName),
      .declareConstant defaultGraphText sortName]
    ++ s.ground.map (fun g => .declareConstant g.text sortName)
    ++ s.distinctness.map .assert
    ++ (s.ofKind .var).map (fun x => .declareConstant x.text sortName)
    ++ s.assertions.map (fun a => .assert a.formula)
    ++ [.checkSat]

/-- All symbols are plain. -/
structure Plain (s : Script Statement) : Prop where
  declared : ∀ x ∈ s.declared, x.Plain
  assertions : ∀ a ∈ s.assertions, ∀ x ∈ a.symbols, x.Plain

end Script

theorem isSymbolChar_of_nameChar {c : Char} (h : isNameChar c ∨ c = '.') : isSymbolChar c := by
  rcases h with h | rfl
  · simp only [isNameChar, Bool.or_eq_true, beq_iff_eq] at h
    rcases h with h | rfl
    · simp [isSymbolChar, h]
    · decide
  · decide

theorem reads_text {s : Symbol} (h : s.Plain) : Reads wordEnds s.text [.symbol s.text] := by
  refine .symbol (fun c hc => ?_) ?_
  · simp only [Symbol.text, String.toList_append, List.mem_append] at hc
    rcases hc with (hc | hc) | hc
    · obtain rfl : c = '<' := by simpa using hc
      decide
    · exact isSymbolChar_of_nameChar (h c hc)
    · obtain rfl : c = '>' := by simpa using hc
      decide
  · intro he
    have hlength := congrArg String.length he
    simp [Symbol.text] at hlength

theorem plain_defaultGraph : Symbol.Plain ⟨.iri, defaultGraph⟩ := by
  have hname : defaultGraph.toList.all isNameChar := rfl
  exact fun c hc => .inl (List.all_eq_true.1 hname c hc)

theorem reads_defaultGraphText : Reads wordEnds defaultGraphText [.symbol defaultGraphText] :=
  reads_text (s := ⟨.iri, defaultGraph⟩) plain_defaultGraph

theorem reads_sortName : Reads wordEnds sortName [.symbol sortName] :=
  .keyword rfl (by decide)

def Denotes (text : String) (f : Formula) : Prop :=
  ∃ e, Reads wordEnds text [e] ∧ Formula.ofSExpr? e = some f

theorem reads_application (start head : String) {text : String} {es : List SExpr}
    (hstart : start = "(" ++ head ++ " ") (hhead : Reads wordEnds head [.symbol head])
    (h : Reads wordEnds text es) (ends : List Char) :
    Reads ends (start ++ text ++ ")") [.list (.symbol head :: es)] := by
  have hitems := Reads.spaced hhead h
  have hlist := Reads.list hitems ends
  rwa [show "(" ++ (head ++ String.singleton ' ' ++ text) ++ ")" = start ++ text ++ ")" by
    simp [hstart, String.append_assoc]] at hlist

theorem reads_unwords {l : List String} (h : ∀ name ∈ l, Reads wordEnds name [.symbol name]) :
    Reads wordEnds (unwords l) (l.map .symbol) := by
  have hwords : Reads wordEnds (unwords (l.map id)) (l.flatMap fun name => [.symbol name]) :=
    Reads.unwords h
  rwa [List.map_id, ← List.map_eq_flatMap] at hwords

theorem denotes_atomText {a : Atom Symbol} (h : ∀ s ∈ a.toList, s.Plain) :
    Denotes (atomText a) (atomFormula a) := by
  have hgraph : Reads wordEnds ((a.graph.map Symbol.text).getD defaultGraphText)
      [.symbol ((a.graph.map Symbol.text).getD defaultGraphText)] := by
    cases hg : a.graph with
    | none => exact reads_defaultGraphText
    | some g => exact reads_text (h g (Atom.mem_toList.2 (.inr hg)))
  have hplace (s : Symbol) (hs : s ∈ a.places) : Reads wordEnds s.text [.symbol s.text] :=
    reads_text (h s (Atom.mem_toList.2 (.inl hs)))
  have hwords := reads_unwords (l := [predicateName, a.subject.text, a.predicate.text,
    a.object.text, (a.graph.map Symbol.text).getD defaultGraphText]) (by
      simp only [List.forall_mem_cons, List.not_mem_nil, false_implies, implies_true, and_true]
      exact ⟨.keyword rfl (by decide), hplace _ (by simp [Atom.places]),
        hplace _ (by simp [Atom.places]), hplace _ (by simp [Atom.places]), hgraph⟩)
  exact ⟨_, hwords.list wordEnds, rfl⟩

theorem denotes_equalText {left right : Symbol} (hl : left.Plain) (hr : right.Plain) :
    Denotes (equalText left right) (.equal left.text right.text) := by
  have hwords := reads_unwords (l := ["=", left.text, right.text]) (by
    simp only [List.forall_mem_cons, List.not_mem_nil, false_implies, implies_true, and_true]
    exact ⟨.keyword rfl (by decide), reads_text hl, reads_text hr⟩)
  exact ⟨_, hwords.list wordEnds, rfl⟩

theorem denotes_notText {text : String} {f : Formula} (h : Denotes text f) :
    Denotes (notText text) (.not f) := by
  obtain ⟨e, he, hf⟩ := h
  refine ⟨_, reads_application "(not " "not" (by decide) (.keyword rfl (by decide)) he
    wordEnds, ?_⟩
  rw [Formula.ofSExpr?, hf, Option.map_some]

theorem mapM_name? (names : List String) :
    (names.map SExpr.symbol).mapM Formula.name? = some names := by
  induction names with
  | nil => rfl
  | cons name names ih => simp [List.mapM_cons, Formula.name?, ih]

theorem denotes_distinct {names : List String}
    (h : ∀ name ∈ names, Reads wordEnds name [.symbol name]) :
    Denotes ("(distinct " ++ unwords names ++ ")") (.distinct names) := by
  refine ⟨_, reads_application "(distinct " "distinct" (by decide)
    (.keyword rfl (by decide)) (reads_unwords h) wordEnds, ?_⟩
  rw [Formula.ofSExpr?, mapM_name?, Option.map_some]

theorem exists_reads_unwords {α : Type} {text : α → String} {f : α → Formula} {l : List α}
    (h : ∀ a ∈ l, Denotes (text a) (f a)) :
    ∃ es, Reads wordEnds (unwords (l.map text)) es ∧ Formula.allOf? es = some (l.map f) := by
  choose! e he hf using h
  refine ⟨_, Reads.unwords he, ?_⟩
  clear he
  induction l with
  | nil => rfl
  | cons a l ih =>
    have hothers := ih fun b hb => hf b (List.mem_cons_of_mem _ hb)
    simp [Formula.allOf?, hf a List.mem_cons_self, hothers]

theorem denotes_andText {α : Type} {text : α → String} {f : α → Formula} {l : List α}
    (h : ∀ a ∈ l, Denotes (text a) (f a)) : Denotes (andText (l.map text)) (.conj (l.map f)) := by
  match l with
  | [] =>
    have htrue : Reads wordEnds "true" [.symbol "true"] := .keyword rfl (by decide)
    exact ⟨_, htrue, rfl⟩
  | [a] => exact h a List.mem_cons_self
  | a :: b :: l =>
    obtain ⟨es, hes, hfs⟩ := exists_reads_unwords h
    refine ⟨_, reads_application "(and " "and" (by decide) (.keyword rfl (by decide)) hes
      wordEnds, ?_⟩
    rw [Formula.ofSExpr?, hfs, Option.map_some]

def binding (s : Symbol) : SExpr := .list [.symbol s.text, .symbol sortName]

theorem reads_binding {s : Symbol} (h : s.Plain) (ends : List Char) :
    Reads ends ("(" ++ s.text ++ " " ++ sortName ++ ")") [binding s] :=
  reads_application _ _ rfl (reads_text h) reads_sortName ends

theorem mapM_binding? (bound : List Symbol) :
    (bound.map binding).mapM Formula.binding? = some (bound.map Symbol.text) := by
  induction bound with
  | nil => rfl
  | cons s bound ih => simp [List.mapM_cons, binding, Formula.binding?, ih]

theorem denotes_existsText {bound : List Symbol} {text : String} {f : Formula}
    (hbound : ∀ s ∈ bound, s.Plain) (h : Denotes text f) :
    Denotes (existsText bound text) (closed bound f) := by
  by_cases hempty : bound.isEmpty
  · rwa [existsText, closed, if_pos hempty, if_pos hempty]
  · rw [existsText, closed, if_neg hempty, if_neg hempty]
    obtain ⟨e, he, hf⟩ := h
    have hwords := Reads.unwords fun s hs => reads_binding (hbound s hs) wordEnds
    rw [← List.map_eq_flatMap] at hwords
    have hitems := Reads.spaced (hwords.list wordEnds) he
    have hlist := reads_application "(exists " "exists" (by decide)
      (.keyword rfl (by decide)) hitems wordEnds
    -- the bound names stand in a list of their own before the body
    have htext (words : String) : "(exists " ++ ("(" ++ words ++ ")" ++ String.singleton ' ' ++
        text) ++ ")" = "(exists (" ++ words ++ ") " ++ text ++ ")" := by
      apply String.toList_inj.1
      simp
    rw [htext] at hlist
    refine ⟨_, hlist, ?_⟩
    show Formula.ofSExpr? (.list [.symbol "exists", .list (bound.map binding), e]) = _
    rw [Formula.ofSExpr?, mapM_binding?, hf]
    rfl

theorem denotes_condition {c : Condition} (h : ∀ s ∈ c.symbols, s.Plain) :
    Denotes c.text c.formula := by
  cases c with
  | holds a => exact denotes_atomText h
  | equal left right =>
    exact denotes_equalText (h left (by simp [Condition.symbols]))
      (h right (by simp [Condition.symbols]))

theorem denotes_statement {a : Statement} (h : ∀ s ∈ a.symbols, s.Plain) :
    Denotes a.text a.formula := by
  cases a with
  | holds a => exact denotes_atomText h
  | noSolution bound conditions =>
    have hbound : ∀ s ∈ bound, s.Plain := fun s hs => h s (List.mem_append_left _ hs)
    have hconditions : ∀ c ∈ conditions, Denotes c.text c.formula := fun c hc =>
      denotes_condition fun s hs =>
        h s (List.mem_append_right _ (List.mem_flatMap.2 ⟨c, hc, hs⟩))
    exact denotes_notText (denotes_existsText hbound (denotes_andText hconditions))

def Says (line : String) (commands : List Command) : Prop :=
  ∃ es, Reads ['\n'] line es ∧ es.mapM Command.ofSExpr? = some commands

theorem says_heading {title : String} (h : '\n' ∉ title.toList) :
    Says (heading title) [] := by
  have hcomment := Reads.comment (" ------------ " ++ title ++ " " ++
    String.ofList (List.replicate (53 - ("; ------------ " ++ title ++ " ").length) '-')) (by
      simp only [String.toList_append, String.toList_ofList, List.mem_append, not_or]
      refine ⟨⟨⟨by decide, h⟩, by decide⟩, fun hc => ?_⟩
      exact absurd (List.eq_of_mem_replicate hc) (by decide))
  have htext (words : String) : ";" ++ (" ------------ " ++ title ++ " " ++ words) =
      "; ------------ " ++ title ++ " " ++ words := by
    apply String.toList_inj.1
    simp
  rw [htext] at hcomment
  exact ⟨[], hcomment, rfl⟩

theorem says_assertText {text : String} {f : Formula} (h : Denotes text f) :
    Says (assertText text) [.assert f] := by
  obtain ⟨e, he, hf⟩ := h
  refine ⟨_, reads_application "(assert " "assert" (by decide) (.keyword rfl (by decide)) he
    _, ?_⟩
  simp [Command.ofSExpr?, hf]

theorem says_declaration {s : Symbol} (h : s.Plain) :
    Says s.declaration [.declareConstant s.text sortName] := by
  have hitems := Reads.spaced (reads_text h) reads_sortName
  have hlist := reads_application "(declare-const " "declare-const" (by decide)
    (.keyword rfl (by decide)) hitems ['\n']
  have htext : "(declare-const " ++ (s.text ++ String.singleton ' ' ++ sortName) ++ ")" =
      "(declare-const " ++ s.text ++ " " ++ sortName ++ ")" := by simp [String.append_assoc]
  rw [htext] at hlist
  exact ⟨_, hlist, rfl⟩

/-- The lines are read one after the other. -/
inductive SayAll : List String → List Command → Prop where
  | nil : SayAll [] []
  | cons {line : String} {lines : List String} {first others : List Command}
      (h : Says line first) (hl : SayAll lines others) : SayAll (line :: lines) (first ++ others)

namespace SayAll

theorem append {lines lines' : List String} {cs cs' : List Command} (h : SayAll lines cs)
    (h' : SayAll lines' cs') : SayAll (lines ++ lines') (cs ++ cs') := by
  induction h with
  | nil => exact h'
  | cons hfirst _ ih =>
    rw [List.append_assoc]
    exact .cons hfirst ih

theorem map {α : Type} {line : α → String} {command : α → Command} {l : List α}
    (h : ∀ a ∈ l, Says (line a) [command a]) : SayAll (l.map line) (l.map command) := by
  induction l with
  | nil => exact .nil
  | cons a l ih =>
    exact .cons (h a List.mem_cons_self) (ih fun b hb => h b (List.mem_cons_of_mem _ hb))

theorem titled (title : String) (ht : '\n' ∉ title.toList) {lines : List String}
    {cs : List Command} (h : SayAll lines cs) : SayAll (heading title :: lines) cs :=
  .cons (says_heading ht) h

theorem exists_reads {lines : List String} {cs : List Command} (h : SayAll lines cs) :
    ∃ l : List (String × List SExpr), lines = l.map (·.1) ∧ (∀ e ∈ l, Reads ['\n'] e.1 e.2) ∧
      (l.flatMap (·.2)).mapM Command.ofSExpr? = some cs := by
  induction h with
  | nil => exact ⟨[], rfl, by simp, rfl⟩
  | @cons line lines first others hfirst _ ih =>
    obtain ⟨es, hes, hfirst⟩ := hfirst
    obtain ⟨l, rfl, hl, hothers⟩ := ih
    refine ⟨(line, es) :: l, rfl, List.forall_mem_cons.2 ⟨hes, hl⟩, ?_⟩
    rw [List.flatMap_cons, List.mapM_append, hfirst, hothers]
    rfl

theorem commands? {lines : List String} {cs : List Command} (h : SayAll lines cs) :
    commands? ("\n".intercalate lines) = some cs := by
  obtain ⟨l, rfl, hl, hcs⟩ := h.exists_reads
  rw [Smt.commands?, (Reads.lines hl).expressions?, Option.bind_some, hcs]

end SayAll

theorem says_declareSort :
    Says ("(declare-sort " ++ sortName ++ " 0)") [.declareSort sortName] := by
  have hzero : Reads wordEnds "0" [.symbol "0"] := .keyword rfl (by decide)
  have hitems := Reads.spaced reads_sortName hzero
  have hlist := reads_application "(declare-sort " "declare-sort" (by decide)
    (.keyword rfl (by decide)) hitems ['\n']
  have htext : "(declare-sort " ++ (sortName ++ String.singleton ' ' ++ "0") ++ ")" =
      "(declare-sort " ++ sortName ++ " 0)" := by decide
  rw [htext] at hlist
  exact ⟨_, hlist, rfl⟩

theorem says_declarePredicate :
    Says ("(declare-fun " ++ predicateName ++ " (" ++ unwords (List.replicate 4 sortName) ++
      ") Bool)") [.declarePredicate predicateName (List.replicate 4 sortName)] := by
  have hname : Reads wordEnds predicateName [.symbol predicateName] :=
    .keyword rfl (by decide)
  have hbool : Reads wordEnds "Bool" [.symbol "Bool"] := .keyword rfl (by decide)
  have hplaces := reads_unwords (l := List.replicate 4 sortName) fun name hn => by
    rw [List.eq_of_mem_replicate hn]
    exact reads_sortName
  have hsorts := Reads.spaced (hplaces.list wordEnds) hbool
  have hitems := Reads.spaced hname hsorts
  have hlist := reads_application "(declare-fun " "declare-fun" (by decide)
    (.keyword rfl (by decide)) hitems ['\n']
  have htext (name words : String) : "(declare-fun " ++ (name ++ String.singleton ' ' ++
      ("(" ++ words ++ ")" ++ String.singleton ' ' ++ "Bool")) ++ ")" =
      "(declare-fun " ++ name ++ " (" ++ words ++ ") Bool)" := by
    apply String.toList_inj.1
    simp
  rw [htext] at hlist
  exact ⟨_, hlist, rfl⟩

theorem sayAll_preamble : SayAll preamble [.declareSort sortName,
    .declarePredicate predicateName (List.replicate 4 sortName),
    .declareConstant defaultGraphText sortName] := by
  have hgraph : Says (Symbol.declaration ⟨.iri, defaultGraph⟩)
      [.declareConstant defaultGraphText sortName] := says_declaration plain_defaultGraph
  exact .cons says_declareSort (.cons says_declarePredicate (.cons hgraph .nil))

theorem says_checkSat : Says "(check-sat)" [.checkSat] := by
  have hword : Reads wordEnds "check-sat" [.symbol "check-sat"] :=
    .keyword rfl (by decide)
  exact ⟨_, hword.list ['\n'], rfl⟩

theorem sayAll_uniqueNames {s : Script Statement} (h : s.Plain) :
    SayAll s.uniqueNames (s.distinctness.map .assert) := by
  by_cases hempty : s.ground.isEmpty
  · rw [Script.uniqueNames, Script.distinctness, if_pos hempty, if_pos hempty]
    exact .nil
  · rw [Script.uniqueNames, Script.distinctness, if_neg hempty, if_neg hempty]
    have hnames : ∀ name ∈ defaultGraphText :: s.ground.map Symbol.text,
        Reads wordEnds name [.symbol name] := by
      refine List.forall_mem_cons.2 ⟨reads_defaultGraphText, fun name hn => ?_⟩
      obtain ⟨x, hx, rfl⟩ := List.mem_map.1 hn
      have hdeclared : x ∈ s.declared := by
        rcases List.mem_append.1 hx with hx | hx <;> exact (List.mem_filter.1 hx).1
      exact reads_text (h.declared x hdeclared)
    exact .titled _ (by decide) (.cons (says_assertText (denotes_distinct hnames)) .nil)

/-- The text of a script says what the script says. -/
theorem commands?_formulaText {s : Script Statement} (h : s.Plain) :
    commands? (formulaText s) = some s.commands := by
  have hdeclared (kind : SymbolKind) : SayAll ((s.ofKind kind).map Symbol.declaration)
      ((s.ofKind kind).map fun x => .declareConstant x.text sortName) :=
    .map fun x hx => says_declaration (h.declared x (List.mem_filter.1 hx).1)
  have hassertions : SayAll (s.assertions.map (assertText ∘ Statement.text))
      (s.assertions.map fun a => .assert a.formula) :=
    .map fun a ha => says_assertText (denotes_statement (h.assertions a ha))
  -- the sections in the order in which they are written; there is a title for each
  have hlines := ((((((SayAll.titled "Sort and Predicate" (by decide) sayAll_preamble).append
    (.titled "IRIs" (by decide) (hdeclared .iri))).append
    (.titled "Literals" (by decide) (hdeclared .literal))).append
    (sayAll_uniqueNames h)).append
    (.titled "Variables" (by decide) (hdeclared .var))).append
    (.titled "Conjecture" (by decide) hassertions)).append (.cons says_checkSat .nil)
  have hcommands := hlines.commands?
  simp only [List.append_nil] at hcommands
  have htext : formulaText s = "\n".intercalate (s.lines Statement.text) := rfl
  rw [htext, Script.lines, hcommands]
  simp only [Script.commands, Script.ground, List.map_append, List.append_assoc]

/-- The formulas among the commands of a script. -/
theorem formulas_commands (s : Script Statement) :
    s.commands.filterMap Command.formula? = s.formulas := by
  have hdeclared (l : List Symbol) : (l.map fun x =>
      Command.declareConstant x.text sortName).filterMap Command.formula? = [] := by
    induction l with
    | nil => rfl
    | cons x l ih => exact ih
  have hasserted {α : Type} (f : α → Formula) (l : List α) :
      (l.map fun a => Command.assert (f a)).filterMap Command.formula? = l.map f := by
    rw [List.filterMap_map, ← List.filterMap_eq_map]
    rfl
  rw [Script.commands, Script.formulas]
  simp only [List.filterMap_append, hdeclared, hasserted]
  simp [List.filterMap_cons, Command.formula?]

theorem assertions?_formulaText {s : Script Statement} (h : s.Plain) :
    assertions? (formulaText s) = some s.formulas := by
  rw [assertions?, commands?_formulaText h, Option.map_some, formulas_commands]

end Smt

end QueryContainment
