import Mathlib.Logic.Equiv.Defs
import QueryContainment.Proofs.Smt.Countermodel
import QueryContainment.Proofs.Smt.Solvability

namespace QueryContainment

open Naming

/-- The symbol of another name, of the same kind. -/
def Symbol.rename (σ : String → String) (s : Symbol) : Symbol := ⟨s.kind, σ s.name⟩

def PlainName (name : String) : Prop := ∀ c ∈ name.toList, isNameChar c ∨ c = '.'

/--
A renaming of the constants of a formula. The default graph keeps its name, and nothing is renamed
that is no name of a constant.
-/
structure RenamesConstants (σ : Equiv.Perm String) : Prop where
  defaultGraph : σ defaultGraph = defaultGraph
  others : ∀ name, ¬PlainName name → σ name = name

namespace Smt

variable {σ : String → String} {a b c d : String}

def recastFrom (σ : String → String) : Option (List Char) → List Char → List Char
  | none, [] => []
  | none, '<' :: cs => '<' :: recastFrom σ (some []) cs
  | none, c :: cs => c :: recastFrom σ none cs
  | some name, [] => name
  | some name, '>' :: cs => (σ (String.ofList name)).toList ++ '>' :: recastFrom σ none cs
  | some name, c :: cs => recastFrom σ (some (name ++ [c])) cs

/-- Renames all constants in a text. -/
def recast (σ : String → String) (text : String) : String :=
  String.ofList (recastFrom σ none text.toList)

def Recasts (σ : String → String) (text text' : String) : Prop :=
  ∀ rest, recastFrom σ none (text.toList ++ rest) = text'.toList ++ recastFrom σ none rest

namespace Recasts

theorem recast_eq (h : Recasts σ a b) : recast σ a = b := by
  have hall := h []
  rw [List.append_nil] at hall
  rw [recast, hall, recastFrom, List.append_nil, String.ofList_toList]

theorem append (h : Recasts σ a b) (h' : Recasts σ c d) : Recasts σ (a ++ c) (b ++ d) := by
  intro rest
  rw [String.toList_append, String.toList_append, List.append_assoc, h, h', List.append_assoc]

theorem unnamed (h : '<' ∉ a.toList) : Recasts σ a a := by
  have hread (rest : List Char) : ∀ cs : List Char, '<' ∉ cs →
      recastFrom σ none (cs ++ rest) = cs ++ recastFrom σ none rest := by
    intro cs
    induction cs with
    | nil => exact fun _ => rfl
    | cons c cs ih =>
      intro hmem
      have hc : c ≠ '<' := fun he => hmem (by simp [he])
      have hcs : '<' ∉ cs := fun hmem' => hmem (List.mem_cons_of_mem _ hmem')
      simp only [List.cons_append, recastFrom, ih hcs]
  exact fun rest => hread rest a.toList h

theorem name {name : String} (h : '>' ∉ name.toList) :
    Recasts σ ("<" ++ name ++ ">") ("<" ++ σ name ++ ">") := by
  have hread (done rest : List Char) : ∀ cs : List Char, '>' ∉ cs →
      recastFrom σ (some done) (cs ++ '>' :: rest) =
        (σ (String.ofList (done ++ cs))).toList ++ '>' :: recastFrom σ none rest := by
    intro cs
    induction cs generalizing done with
    | nil => simp [recastFrom]
    | cons c cs ih =>
      intro hmem
      have hc : c ≠ '>' := fun he => hmem (by simp [he])
      have hcs : '>' ∉ cs := fun hmem' => hmem (List.mem_cons_of_mem _ hmem')
      simp only [List.cons_append, recastFrom, ih (done ++ [c]) hcs, List.append_assoc,
        List.nil_append]
  intro rest
  have hall := hread [] rest name.toList h
  simpa [recastFrom] using hall

theorem intercalate {separator : String} (hseparator : '<' ∉ separator.toList)
    {l l' : List String} (h : List.Forall₂ (Recasts σ) l l') :
    Recasts σ (separator.intercalate l) (separator.intercalate l') := by
  induction h with
  | nil => exact unnamed (by simp)
  | cons hfirst hrest ih =>
    cases hrest with
    | nil => simpa using hfirst
    | cons hsecond hothers =>
      have hjoined := (hfirst.append (unnamed hseparator)).append ih
      rwa [← String.intercalate_cons_of_ne_nil (by simp),
        ← String.intercalate_cons_of_ne_nil (by simp)] at hjoined

theorem unwords {l l' : List String} (h : List.Forall₂ (Recasts σ) l l') :
    Recasts σ (unwords l) (unwords l') := intercalate (by decide) h

theorem enclosed {front back : String} (hfront : '<' ∉ front.toList) (hback : '<' ∉ back.toList)
    (h : Recasts σ a b) : Recasts σ (front ++ a ++ back) (front ++ b ++ back) :=
  ((unnamed hfront).append h).append (unnamed hback)

theorem forall₂_map {α : Type} {text text' : α → String} {l : List α}
    (h : ∀ a ∈ l, Recasts σ (text a) (text' a)) :
    List.Forall₂ (Recasts σ) (l.map text) (l.map text') :=
  List.forall₂_map_left_iff.2 (List.forall₂_map_right_iff.2 (List.forall₂_same.2 h))

theorem map_recast {l l' : List String} (h : List.Forall₂ (Recasts σ) l l') :
    l' = l.map (recast σ) := by
  induction h with
  | nil => rfl
  | cons hfirst _ ih => rw [List.map_cons, hfirst.recast_eq, ← ih]

end Recasts

theorem recasts_text {s : Symbol} (h : s.Plain) : Recasts σ s.text (s.rename σ).text := by
  apply Recasts.name
  intro hmem
  have hplain := h '>' hmem
  simp [isNameChar] at hplain

theorem recasts_defaultGraphText (hdefault : σ defaultGraph = defaultGraph) :
    Recasts σ defaultGraphText defaultGraphText := by
  have hgraph : Recasts σ defaultGraphText ("<" ++ σ defaultGraph ++ ">") :=
    recasts_text (s := ⟨.iri, defaultGraph⟩) plain_defaultGraph
  rwa [hdefault] at hgraph

theorem recasts_atomText (hdefault : σ defaultGraph = defaultGraph) {a : Atom Symbol}
    (h : ∀ s ∈ a.toList, s.Plain) :
    Recasts σ (atomText a) (atomText (a.map (Symbol.rename σ))) := by
  have hplace (s : Symbol) (hs : s ∈ a.places) : Recasts σ s.text (s.rename σ).text :=
    recasts_text (h s (Atom.mem_toList.2 (.inl hs)))
  have hgraph : Recasts σ ((a.graph.map Symbol.text).getD defaultGraphText)
      (((a.graph.map (Symbol.rename σ)).map Symbol.text).getD defaultGraphText) := by
    cases hg : a.graph with
    | none => exact recasts_defaultGraphText hdefault
    | some g => exact recasts_text (h g (Atom.mem_toList.2 (.inr hg)))
  have hpredicate : Recasts σ predicateName predicateName := .unnamed (by decide)
  refine .enclosed (by decide) (by decide) (.unwords ?_)
  exact .cons hpredicate (.cons (hplace _ (by simp [Atom.places]))
    (.cons (hplace _ (by simp [Atom.places])) (.cons (hplace _ (by simp [Atom.places]))
      (.cons hgraph .nil))))

theorem recasts_equalText {left right : Symbol} (hl : left.Plain) (hr : right.Plain) :
    Recasts σ (equalText left right) (equalText (left.rename σ) (right.rename σ)) := by
  have hequal : Recasts σ "=" "=" := .unnamed (by decide)
  exact .enclosed (by decide) (by decide)
    (.unwords (.cons hequal (.cons (recasts_text hl) (.cons (recasts_text hr) .nil))))

theorem recasts_andText {l l' : List String} (h : List.Forall₂ (Recasts σ) l l') :
    Recasts σ (andText l) (andText l') := by
  cases h with
  | nil => exact .unnamed (by decide)
  | cons hfirst hrest =>
    cases hrest with
    | nil => exact hfirst
    | cons hsecond hothers =>
      exact .enclosed (by decide) (by decide) (.unwords (.cons hfirst (.cons hsecond hothers)))

theorem recasts_existsText {bound : List Symbol} {body body' : String}
    (hbound : ∀ s ∈ bound, s.Plain) (h : Recasts σ body body') :
    Recasts σ (existsText bound body) (existsText (bound.map (Symbol.rename σ)) body') := by
  unfold existsText
  rw [List.isEmpty_map]
  cases bound.isEmpty with
  | true => exact h
  | false =>
    have hbinding (s : Symbol) (hs : s ∈ bound) : Recasts σ ("(" ++ s.text ++ " " ++ sortName ++ ")")
        ("(" ++ (s.rename σ).text ++ " " ++ sortName ++ ")") :=
      ((((Recasts.unnamed (by decide)).append (recasts_text (hbound s hs))).append
        (.unnamed (by decide))).append (.unnamed (by decide))).append (.unnamed (by decide))
    have hbindings := Recasts.unwords (Recasts.forall₂_map hbinding)
    rw [List.map_map]
    exact ((((Recasts.unnamed (by decide)).append hbindings).append (.unnamed (by decide))).append
      h).append (.unnamed (by decide))

def Condition.rename (σ : String → String) : Condition → Condition
  | .holds atom => .holds (atom.map (Symbol.rename σ))
  | .equal left right => .equal (left.rename σ) (right.rename σ)

def Statement.rename (σ : String → String) : Statement → Statement
  | .holds atom => .holds (atom.map (Symbol.rename σ))
  | .noSolution bound conditions =>
    .noSolution (bound.map (Symbol.rename σ)) (conditions.map (Condition.rename σ))

def Script.rename (σ : String → String) (s : Script Statement) : Script Statement :=
  ⟨s.declared.map (Symbol.rename σ), s.assertions.map (Statement.rename σ)⟩

theorem recasts_condition (hdefault : σ defaultGraph = defaultGraph) {c : Condition}
    (h : ∀ s ∈ c.symbols, s.Plain) : Recasts σ c.text (c.rename σ).text := by
  cases c with
  | holds atom => exact recasts_atomText hdefault h
  | equal left right =>
    exact recasts_equalText (h left (by simp [Condition.symbols]))
      (h right (by simp [Condition.symbols]))

theorem recasts_statement (hdefault : σ defaultGraph = defaultGraph) {a : Statement}
    (h : ∀ s ∈ a.symbols, s.Plain) : Recasts σ a.text (a.rename σ).text := by
  cases a with
  | holds atom => exact recasts_atomText hdefault h
  | noSolution bound conditions =>
    have hbound (s : Symbol) (hs : s ∈ bound) : s.Plain := h s (List.mem_append_left _ hs)
    have hconditions (c : Condition) (hc : c ∈ conditions) :
        Recasts σ c.text (c.rename σ).text :=
      recasts_condition hdefault fun s hs =>
        h s (List.mem_append_right _ (List.mem_flatMap.2 ⟨c, hc, hs⟩))
    have hbody := recasts_andText (Recasts.forall₂_map hconditions)
    simp only [Statement.rename, Statement.text, List.map_map]
    exact .enclosed (by decide) (by decide) (recasts_existsText hbound hbody)

theorem recasts_heading {title : String} (h : '<' ∉ title.toList) :
    Recasts σ (heading title) (heading title) := by
  apply Recasts.unnamed
  unfold heading
  simp only [String.toList_append, String.toList_ofList, List.mem_append, not_or]
  refine ⟨⟨⟨by decide, h⟩, by decide⟩, fun hc => ?_⟩
  exact absurd (List.eq_of_mem_replicate hc) (by decide)

theorem recasts_declaration {s : Symbol} (h : s.Plain) :
    Recasts σ s.declaration (s.rename σ).declaration :=
  ((((Recasts.unnamed (by decide)).append (recasts_text h)).append (.unnamed (by decide))).append
    (.unnamed (by decide))).append (.unnamed (by decide))

theorem recasts_assertText (h : Recasts σ a b) : Recasts σ (assertText a) (assertText b) :=
  .enclosed (by decide) (by decide) h

theorem Script.ofKind_rename (s : Script Statement) (kind : SymbolKind) :
    (s.rename σ).ofKind kind = (s.ofKind kind).map (Symbol.rename σ) := by
  rw [ofKind, rename, List.filter_map]
  rfl

theorem Script.ground_rename (s : Script Statement) :
    (s.rename σ).ground = s.ground.map (Symbol.rename σ) := by
  rw [ground, ofKind_rename, ofKind_rename, ground, List.map_append]

theorem Script.mem_declared_of_mem_ground {s : Script Statement} {x : Symbol} (h : x ∈ s.ground) :
    x ∈ s.declared := by
  rcases List.mem_append.1 h with h | h <;> exact (List.mem_filter.1 h).1

theorem recasts_preamble (hdefault : σ defaultGraph = defaultGraph) :
    List.Forall₂ (Recasts σ) preamble preamble := by
  have hgraph : Recasts σ (Symbol.declaration ⟨.iri, defaultGraph⟩)
      (Symbol.declaration ⟨.iri, σ defaultGraph⟩) := recasts_declaration plain_defaultGraph
  rw [hdefault] at hgraph
  exact .cons (.unnamed (by decide)) (.cons (.unnamed (by decide)) (.cons hgraph .nil))

theorem recasts_uniqueNames (hdefault : σ defaultGraph = defaultGraph) {s : Script Statement}
    (h : s.Plain) : List.Forall₂ (Recasts σ) s.uniqueNames (s.rename σ).uniqueNames := by
  unfold Script.uniqueNames
  rw [Script.ground_rename, List.isEmpty_map]
  cases s.ground.isEmpty with
  | true => exact .nil
  | false =>
    have hground (x : Symbol) (hx : x ∈ s.ground) : Recasts σ x.text (x.rename σ).text :=
      recasts_text (h.declared x (Script.mem_declared_of_mem_ground hx))
    have hnames : List.Forall₂ (Recasts σ) (defaultGraphText :: s.ground.map Symbol.text)
        (defaultGraphText :: (s.ground.map (Symbol.rename σ)).map Symbol.text) := by
      rw [List.map_map]
      exact .cons (recasts_defaultGraphText hdefault) (Recasts.forall₂_map hground)
    have hdistinct : Recasts σ _ _ := .enclosed (show '<' ∉ "(distinct ".toList by decide)
      (show '<' ∉ ")".toList by decide) (.unwords hnames)
    exact .cons (recasts_heading (by decide)) (.cons (recasts_assertText hdistinct) .nil)

theorem recasts_lines (hdefault : σ defaultGraph = defaultGraph) {s : Script Statement}
    (h : s.Plain) :
    List.Forall₂ (Recasts σ) (s.lines Statement.text) ((s.rename σ).lines Statement.text) := by
  have hdeclared (kind : SymbolKind) : List.Forall₂ (Recasts σ)
      ((s.ofKind kind).map Symbol.declaration)
      (((s.rename σ).ofKind kind).map Symbol.declaration) := by
    rw [Script.ofKind_rename, List.map_map]
    exact Recasts.forall₂_map fun x hx => recasts_declaration (h.declared x (List.mem_filter.1 hx).1)
  have hassertions : List.Forall₂ (Recasts σ) (s.assertions.map (assertText ∘ Statement.text))
      ((s.rename σ).assertions.map (assertText ∘ Statement.text)) := by
    rw [Script.rename, List.map_map]
    exact Recasts.forall₂_map fun a ha =>
      recasts_assertText (recasts_statement hdefault (h.assertions a ha))
  have hcheck : Recasts σ "(check-sat)" "(check-sat)" := .unnamed (by decide)
  -- the sections in the order in which they are written
  exact List.rel_append (List.rel_append (List.rel_append (List.rel_append (List.rel_append
    (List.rel_append (.cons (recasts_heading (by decide)) (recasts_preamble hdefault))
    (.cons (recasts_heading (by decide)) (hdeclared .iri)))
    (.cons (recasts_heading (by decide)) (hdeclared .literal)))
    (recasts_uniqueNames hdefault h))
    (.cons (recasts_heading (by decide)) (hdeclared .var)))
    (.cons (recasts_heading (by decide)) hassertions)) (.cons hcheck .nil)

theorem lines_rename (hdefault : σ defaultGraph = defaultGraph) {s : Script Statement}
    (h : s.Plain) :
    (s.rename σ).lines Statement.text = (s.lines Statement.text).map (recast σ) :=
  Recasts.map_recast (recasts_lines hdefault h)

theorem formulaText_rename (hdefault : σ defaultGraph = defaultGraph) {s : Script Statement}
    (h : s.Plain) : formulaText (s.rename σ) = recast σ (formulaText s) := by
  have hseparator : '<' ∉ "\n".toList := by decide
  exact (Recasts.intercalate hseparator (recasts_lines hdefault h)).recast_eq.symm

end Smt

end QueryContainment
