import QueryContainment.Rdf.Literal

namespace QueryContainment.Literal

def hexValue (c : Char) : Nat := if c.toNat < 58 then c.toNat - 48 else c.toNat - 55

def readChar : List Char → Option (Char × List Char)
  | '\\' :: 'u' :: a :: b :: c :: d :: rest =>
    some (.ofNat (4096 * hexValue a + 256 * hexValue b + 16 * hexValue c + hexValue d), rest)
  | '\\' :: 'b' :: rest => some ('\x08', rest)
  | '\\' :: 't' :: rest => some ('\t', rest)
  | '\\' :: 'n' :: rest => some ('\n', rest)
  | '\\' :: 'f' :: rest => some ('\x0c', rest)
  | '\\' :: 'r' :: rest => some ('\r', rest)
  | '\\' :: c :: rest => some (c, rest)
  | '"' :: _ => none
  | c :: rest => some (c, rest)
  | [] => none

theorem readChar_quote (rest : List Char) : readChar ('"' :: rest) = none := rfl

theorem readChar_control {n : Nat} (h : n < 0x20 ∨ n = 0x7f) (rest : List Char) :
    readChar ('\\' :: 'u' :: hex4 n ++ rest) = some (.ofNat n, rest) := by
  have hdigits : ∀ m < 128, (m < 0x20 ∨ m = 0x7f) → (hex4 m).map hexValue =
      [0, 0, m / 16 % 16, m % 16] := by decide
  have hn := hdigits n (by omega) h
  simp only [hex4, List.map_cons, List.map_nil, List.cons.injEq, and_true] at hn
  obtain ⟨ha, hb, hc, hd⟩ := hn
  simp only [hex4, List.cons_append, List.nil_append, readChar, ha, hb, hc, hd]
  rw [show 4096 * 0 + 256 * 0 + 16 * (n / 16 % 16) + n % 16 = n by omega]

theorem readChar_escapeChar (c : Char) (rest : List Char) :
    readChar (escapeChar c ++ rest) = some (c, rest) := by
  -- the characters with an escape of their own, then those written by their number, then the rest
  by_cases hb : c = '\x08'
  · subst c; rfl
  by_cases ht : c = '\t'
  · subst c; rfl
  by_cases hn : c = '\n'
  · subst c; rfl
  by_cases hf : c = '\x0c'
  · subst c; rfl
  by_cases hr : c = '\r'
  · subst c; rfl
  by_cases hq : c = '"'
  · subst c; rfl
  by_cases hs : c = '\\'
  · subst c; rfl
  by_cases hc : c.toNat < 0x20 ∨ c.toNat = 0x7f
  · have h : escapeChar c = '\\' :: 'u' :: hex4 c.toNat := by
      simp [escapeChar, hb, ht, hn, hf, hr, hq, hs, hc]
    rw [h, readChar_control hc, Char.ofNat_toNat]
  · have h : escapeChar c = [c] := by
      simp [escapeChar, hb, ht, hn, hf, hr, hq, hs, hc]
    rw [h]
    simp [readChar, hs]

theorem escaped_inj {l l' rest rest' : List Char}
    (h : l.flatMap escapeChar ++ '"' :: rest = l'.flatMap escapeChar ++ '"' :: rest') :
    l = l' ∧ rest = rest' := by
  induction l generalizing l' with
  | nil =>
    cases l' with
    | nil => simpa using h
    | cons c l' =>
      have hr := congrArg readChar h
      simp [List.append_assoc, readChar_escapeChar, readChar_quote] at hr
  | cons c l ih =>
    cases l' with
    | nil =>
      have hr := congrArg readChar h
      simp [List.append_assoc, readChar_escapeChar, readChar_quote] at hr
    | cons d l' =>
      have hr := congrArg readChar h
      simp only [List.flatMap_cons, List.append_assoc, readChar_escapeChar, Option.some.injEq,
        Prod.mk.injEq] at hr
      obtain ⟨hl, hrest⟩ := ih hr.2
      exact ⟨by rw [hr.1, hl], hrest⟩

def suffix : Literal → List Char
  | .tagged _ tag => '@' :: tag.toList
  | .typed _ datatype =>
    if datatype = stringDatatype then [] else '^' :: '^' :: '<' :: datatype.toList ++ ['>']

theorem toList_text (l : Literal) :
    l.text.toList = '"' :: (l.lexical.toList.flatMap escapeChar ++ '"' :: l.suffix) := by
  cases l with
  | tagged lexical tag => simp [text, quote, Literal.lexical, suffix]
  | typed lexical datatype =>
    by_cases h : datatype = stringDatatype <;> simp [text, quote, Literal.lexical, suffix, h]

theorem eq_of_suffix_eq {l l' : Literal} (hl : l.lexical = l'.lexical)
    (hs : l.suffix = l'.suffix) : l = l' := by
  -- a plain string has no suffix, a tag begins with an at sign and a datatype with a caret
  cases l with
  | tagged lexical tag =>
    cases l' with
    | tagged lexical' tag' => simp_all [Literal.lexical, suffix, String.toList_inj]
    | typed lexical' datatype' =>
      by_cases h : datatype' = stringDatatype <;> simp [suffix, h] at hs
  | typed lexical datatype =>
    cases l' with
    | tagged lexical' tag' =>
      by_cases h : datatype = stringDatatype <;> simp [suffix, h] at hs
    | typed lexical' datatype' =>
      by_cases h : datatype = stringDatatype <;> by_cases h' : datatype' = stringDatatype <;>
        simp_all [Literal.lexical, suffix, String.toList_inj]

/-- Two literals with the same written form are the same. -/
theorem text_inj {l l' : Literal} : l.text = l'.text ↔ l = l' := by
  refine ⟨fun h => ?_, congrArg text⟩
  have ht : l.text.toList = l'.text.toList := congrArg String.toList h
  rw [toList_text, toList_text, List.cons.injEq] at ht
  obtain ⟨hl, hs⟩ := escaped_inj ht.2
  exact eq_of_suffix_eq (String.toList_inj.1 hl) hs

end QueryContainment.Literal
