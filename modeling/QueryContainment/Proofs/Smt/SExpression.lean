import Mathlib.Data.Option.Basic
import QueryContainment.Smt.Text

namespace QueryContainment.Smt

inductive SExpr where
  | symbol (name : String)
  | list (items : List SExpr)
deriving Inhabited

inductive Token where
  | opening
  | closing
  | symbol (name : String)
deriving DecidableEq

def isSpace (c : Char) : Bool := c == ' ' || c == '\t' || c == '\n' || c == '\r'

def isSymbolChar (c : Char) : Bool := c.isAlphanum || "~!@$%^&*_-+=<>.?/".toList.contains c

/-- Where the reader stands: in a comment, or after a part of a symbol, which may be empty. -/
inductive Mode where
  | comment
  | after (front : List Char)

def ended : List Char → List Token
  | [] => []
  | front => [.symbol (String.ofList front)]

def lex : Mode → List Char → Option (List Token)
  | .comment, [] => some []
  | .comment, c :: rest => lex (if c = '\n' then .after [] else .comment) rest
  | .after front, [] => some (ended front)
  | .after front, c :: rest =>
    if c = '(' then (lex (.after []) rest).map (ended front ++ .opening :: ·)
    else if c = ')' then (lex (.after []) rest).map (ended front ++ .closing :: ·)
    else if c = ';' then (lex .comment rest).map (ended front ++ ·)
    else if isSpace c then (lex (.after []) rest).map (ended front ++ ·)
    else if isSymbolChar c then lex (.after (front ++ [c])) rest
    else none

/--
Groups tokens, given the items before them in the lists that are open, the innermost list last.
-/
def group : List (List SExpr) → List SExpr → List Token → Option (List SExpr)
  | [], items, [] => some items
  | _ :: _, _, [] => none
  | outer, items, .opening :: rest => group (items :: outer) [] rest
  | [], _, .closing :: _ => none
  | before :: outer, items, .closing :: rest => group outer (before ++ [.list items]) rest
  | outer, items, .symbol name :: rest => group outer (items ++ [.symbol name]) rest

/-- The expressions that a text holds. -/
def expressions? (text : String) : Option (List SExpr) :=
  (lex (.after []) text.toList).bind (group [] [])

mutual

def SExpr.tokens : SExpr → List Token
  | .symbol name => [.symbol name]
  | .list items => .opening :: (allTokens items ++ [.closing])

def allTokens : List SExpr → List Token
  | [] => []
  | e :: es => e.tokens ++ allTokens es

end

mutual

theorem group_tokens (e : SExpr) (outer : List (List SExpr)) (items : List SExpr)
    (rest : List Token) : group outer items (e.tokens ++ rest) = group outer (items ++ [e]) rest :=
  match e with
  | .symbol name => by
    simp only [SExpr.tokens, List.cons_append, List.nil_append, group]
  | .list inner => by
    simp only [SExpr.tokens, List.cons_append, List.append_assoc, List.nil_append, group]
    -- the list is read into an empty one, while the items before it wait
    rw [group_allTokens inner]
    rfl

theorem group_allTokens (es : List SExpr) (outer : List (List SExpr)) (items : List SExpr)
    (rest : List Token) :
    group outer items (allTokens es ++ rest) = group outer (items ++ es) rest :=
  match es with
  | [] => by rw [allTokens, List.nil_append, List.append_nil]
  | e :: es => by
    rw [allTokens, List.append_assoc, group_tokens e, group_allTokens es, List.append_assoc]
    rfl

end

theorem allTokens_append (es es' : List SExpr) :
    allTokens (es ++ es') = allTokens es ++ allTokens es' := by
  induction es with
  | nil => rfl
  | cons e es ih => simp only [List.cons_append, allTokens, ih, List.append_assoc]

def Delimited (ends : List Char) : List Char → Prop
  | [] => True
  | c :: _ => c ∈ ends

def wordEnds : List Char := [' ', ')', '\n']

/-- The text is read as some expressions when one of the given characters comes next, or nothing. -/
def Reads (ends : List Char) (text : String) (es : List SExpr) : Prop :=
  ∀ rest, Delimited ends rest →
    lex (.after []) (text.toList ++ rest) = (lex (.after []) rest).map (allTokens es ++ ·)

theorem lex_opening (rest : List Char) :
    lex (.after []) ('(' :: rest) = (lex (.after []) rest).map (.opening :: ·) := by
  simp [lex, ended]

theorem lex_closing (rest : List Char) :
    lex (.after []) (')' :: rest) = (lex (.after []) rest).map (.closing :: ·) := by
  simp [lex, ended]

theorem lex_space {c : Char} (hc : isSpace c) (rest : List Char) :
    lex (.after []) (c :: rest) = lex (.after []) rest := by
  simp only [isSpace, Bool.or_eq_true, beq_iff_eq] at hc
  rcases hc with ((rfl | rfl) | rfl) | rfl <;> simp [lex, ended, isSpace]

theorem lex_after {front rest : List Char} (h : Delimited wordEnds rest) :
    lex (.after front) rest = (lex (.after []) rest).map (ended front ++ ·) := by
  cases rest with
  | nil => simp [lex, ended]
  | cons c rest =>
    simp only [Delimited, wordEnds, List.mem_cons, List.not_mem_nil, or_false] at h
    rcases h with rfl | rfl | rfl <;>
      simp [lex, ended, isSpace, Option.map_map, Function.comp_def]

theorem not_special {c : Char} (h : isSymbolChar c) :
    c ≠ '(' ∧ c ≠ ')' ∧ c ≠ ';' ∧ isSpace c = false := by
  refine ⟨?_, ?_, ?_, ?_⟩
  · rintro rfl
    exact absurd h (by decide)
  · rintro rfl
    exact absurd h (by decide)
  · rintro rfl
    exact absurd h (by decide)
  · by_contra hs
    simp only [isSpace, Bool.not_eq_false, Bool.or_eq_true, beq_iff_eq] at hs
    rcases hs with ((rfl | rfl) | rfl) | rfl <;> exact absurd h (by decide)

theorem lex_symbolChars {word : List Char} (h : ∀ c ∈ word, isSymbolChar c)
    (front rest : List Char) :
    lex (.after front) (word ++ rest) = lex (.after (front ++ word)) rest := by
  induction word generalizing front with
  | nil => simp
  | cons c word ih =>
    obtain ⟨ho, hc, hs, hb⟩ := not_special (h c List.mem_cons_self)
    rw [List.cons_append, lex, if_neg ho, if_neg hc, if_neg hs, if_neg (by simp [hb]),
      if_pos (h c List.mem_cons_self), ih fun d hd => h d (List.mem_cons_of_mem _ hd)]
    simp

theorem lex_comment {text : List Char} (h : '\n' ∉ text) {rest : List Char}
    (hrest : Delimited ['\n'] rest) : lex .comment (text ++ rest) = lex (.after []) rest := by
  induction text with
  | nil =>
    cases rest with
    | nil => rfl
    | cons c rest =>
      obtain rfl : c = '\n' := by simpa [Delimited] using hrest
      rw [List.nil_append, lex, if_pos rfl, lex_space rfl]
  | cons c text ih =>
    obtain ⟨hc, htext⟩ := not_or.1 (mt List.mem_cons.2 h)
    rw [List.cons_append, lex, if_neg (Ne.symm hc)]
    exact ih htext

namespace Reads

theorem mono {ends ends' : List Char} {text : String} {es : List SExpr} (h : Reads ends text es)
    (hends : ∀ c ∈ ends', c ∈ ends) : Reads ends' text es := by
  intro rest hrest
  cases rest with
  | nil => exact h [] trivial
  | cons c rest => exact h (c :: rest) (hends c hrest)

theorem symbol {name : String} (h : ∀ c ∈ name.toList, isSymbolChar c) (hne : name ≠ "") :
    Reads wordEnds name [.symbol name] := by
  intro rest hrest
  rw [lex_symbolChars h, List.nil_append, lex_after hrest]
  have hended : ended name.toList = [.symbol name] := by
    cases hl : name.toList with
    | nil => exact absurd (String.toList_inj.1 (hl.trans String.toList_empty.symm)) hne
    | cons c l =>
      rw [ended, ← hl, String.ofList_toList]
      simp
  rw [hended]
  rfl

theorem keyword {name : String} (h : name.toList.all isSymbolChar) (hne : name ≠ "") :
    Reads wordEnds name [.symbol name] :=
  symbol (List.all_eq_true.1 h) hne

theorem list {text : String} {es : List SExpr} (h : Reads wordEnds text es) (ends : List Char) :
    Reads ends ("(" ++ text ++ ")") [.list es] := by
  intro rest _
  have hdelimited : Delimited wordEnds (')' :: rest) := by simp [Delimited, wordEnds]
  have htext : ("(" ++ text ++ ")").toList ++ rest = '(' :: (text.toList ++ ')' :: rest) := by
    simp
  rw [htext, lex_opening, h _ hdelimited, lex_closing, Option.map_map, Option.map_map]
  congr 1
  funext ts
  simp [allTokens, SExpr.tokens]

theorem comment (text : String) (h : '\n' ∉ text.toList) :
    Reads ['\n'] (";" ++ text) [] := by
  intro rest hrest
  have htext : (";" ++ text).toList ++ rest = ';' :: (text.toList ++ rest) := by simp
  have hstart (l : List Char) : lex (.after []) (';' :: l) = lex .comment l := by
    simp [lex, ended]
  rw [htext, hstart, lex_comment h hrest]
  simp [allTokens]

theorem append {ends : List Char} {c : Char} (hc : isSpace c) (hends : c ∈ ends) {a b : String}
    {es es' : List SExpr} (ha : Reads ends a es) (hb : Reads ends b es') :
    Reads ends (a ++ String.singleton c ++ b) (es ++ es') := by
  intro rest hrest
  have htext : (a ++ String.singleton c ++ b).toList ++ rest =
      a.toList ++ c :: (b.toList ++ rest) := by simp
  have hdelimited : Delimited ends (c :: (b.toList ++ rest)) := hends
  rw [htext, ha _ hdelimited, lex_space hc, hb _ hrest, Option.map_map, allTokens_append]
  congr 1
  funext ts
  simp

theorem spaced {a b : String} {es es' : List SExpr} (ha : Reads wordEnds a es)
    (hb : Reads wordEnds b es') :
    Reads wordEnds (a ++ String.singleton ' ' ++ b) (es ++ es') :=
  append rfl (by simp [wordEnds]) ha hb

/-- Texts that are joined by a blank or a line break are read one after the other. -/
theorem intercalate {α : Type} {ends : List Char} {c : Char} (hc : isSpace c) (hends : c ∈ ends)
    {text : α → String} {es : α → List SExpr} {l : List α}
    (h : ∀ a ∈ l, Reads ends (text a) (es a)) :
    Reads ends ((String.singleton c).intercalate (l.map text)) (l.flatMap es) := by
  induction l with
  | nil =>
    intro rest _
    simp [allTokens]
  | cons a l ih =>
    have hfirst := h a List.mem_cons_self
    have hothers := ih fun b hb => h b (List.mem_cons_of_mem _ hb)
    cases l with
    | nil => simpa using hfirst
    | cons b l =>
      have hjoined := append hc hends hfirst hothers
      rwa [List.map_cons, ← String.intercalate_cons_of_ne_nil (by simp)] at hjoined

theorem unwords {α : Type} {text : α → String} {es : α → List SExpr} {l : List α}
    (h : ∀ a ∈ l, Reads wordEnds (text a) (es a)) :
    Reads wordEnds (unwords (l.map text)) (l.flatMap es) :=
  intercalate (c := ' ') rfl (by simp [wordEnds]) h

theorem lines {α : Type} {text : α → String} {es : α → List SExpr} {l : List α}
    (h : ∀ a ∈ l, Reads ['\n'] (text a) (es a)) :
    Reads ['\n'] ("\n".intercalate (l.map text)) (l.flatMap es) :=
  intercalate (c := '\n') rfl (by simp) h

/-- What a whole text holds. -/
theorem expressions? {ends : List Char} {text : String} {es : List SExpr}
    (h : Reads ends text es) : expressions? text = some es := by
  have hlex : lex (.after []) text.toList = some (allTokens es) := by
    have hend := h [] trivial
    simpa [lex, ended] using hend
  have hgroup := group_allTokens es [] [] []
  simp only [List.append_nil, List.nil_append, group] at hgroup
  rw [Smt.expressions?, hlex, Option.bind_some, hgroup]

end Reads

end QueryContainment.Smt
