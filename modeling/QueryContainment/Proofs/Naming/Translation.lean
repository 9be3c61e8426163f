import Mathlib.Logic.Equiv.Basic
import QueryContainment.Proofs.Conjunctive.Translation
import QueryContainment.Proofs.Naming.Services
import QueryContainment.Proofs.Smt.Recast

namespace QueryContainment

/-- Of two lists without repetitions, the one is mapped to the other by moving nothing else. -/
theorem exists_perm_map_eq {α : Type} [DecidableEq α] {l l' : List α} (h : l.Nodup)
    (h' : l'.Nodup) (hlength : l.length = l'.length) :
    ∃ σ : Equiv.Perm α, l.map σ = l' ∧ ∀ a, a ∉ l → a ∉ l' → σ a = a := by
  induction l generalizing l' with
  | nil =>
    obtain rfl := List.length_eq_zero_iff.1 hlength.symm
    exact ⟨.refl α, rfl, fun a _ _ => rfl⟩
  | cons a l ih =>
    cases l' with
    | nil => simp at hlength
    | cons b l' =>
      obtain ⟨ha, hl⟩ := List.nodup_cons.1 h
      obtain ⟨hb, hl'⟩ := List.nodup_cons.1 h'
      obtain ⟨σ, hσ, hfix⟩ := ih hl hl' (by simpa using hlength)
      -- the values on the rest of the list are neither of the two that are swapped
      have hrest (x : α) (hx : x ∈ l) : Equiv.swap (σ a) b (σ x) = σ x := by
        have hmem : σ x ∈ l' := hσ ▸ List.mem_map_of_mem hx
        apply Equiv.swap_apply_of_ne_of_ne
        · exact fun he => ha (σ.injective he ▸ hx)
        · exact fun he => hb (he ▸ hmem)
      refine ⟨σ.trans (Equiv.swap (σ a) b), ?_, fun x hx hx' => ?_⟩
      · rw [List.map_cons, Equiv.trans_apply, Equiv.swap_apply_left, ← hσ]
        exact congrArg _ (List.map_congr_left hrest)
      · obtain ⟨hxa, hxl⟩ := not_or.1 (mt List.mem_cons.2 hx)
        obtain ⟨hxb, hxl'⟩ := not_or.1 (mt List.mem_cons.2 hx')
        have hx := hfix x hxl hxl'
        have hne : x ≠ σ a := fun he => hxa (σ.injective (hx.trans he))
        rw [Equiv.trans_apply, hx, Equiv.swap_apply_of_ne_of_ne hne hxb]

namespace Naming

variable {T : Term → Term} {F : Symbol → Symbol} {n n' : Naming}

def Mirrors (T : Term → Term) (F : Symbol → Symbol) (n n' : Naming) : Prop :=
  n'.entries = n.entries.map (Prod.map T F)

theorem Mirrors.symbol? (hT : Function.Injective T) (h : Mirrors T F n n') (t : Term) :
    n'.symbol? (T t) = (n.symbol? t).map F := by
  rw [Naming.symbol?, h, lookup_map hT, Naming.symbol?]

theorem Mirrors.symbol (hT : Function.Injective T) (h : Mirrors T F n n') {t : Term}
    (ht : (n.symbol? t).isSome) : n'.symbol (T t) = F (n.symbol t) := by
  obtain ⟨s, hs⟩ := Option.isSome_iff_exists.1 ht
  have hs' : n'.symbol? (T t) = some (F s) := by rw [h.symbol? hT, hs, Option.map_some]
  rw [symbol_of_symbol? hs', symbol_of_symbol? hs]

/-- The terms in a table, the latest first. -/
def terms (n : Naming) : List Term := n.entries.map Prod.fst

theorem isSome_symbol?_iff {t : Term} : (n.symbol? t).isSome ↔ t ∈ n.terms := by
  rw [← Option.ne_none_iff_isSome, Ne, symbol?, List.lookup_eq_none_iff]
  simp [terms]

theorem terms_add (n : Naming) (t : Term) :
    (n.add t).terms = if t ∈ n.terms then n.terms else t :: n.terms := by
  by_cases h : t ∈ n.terms
  · rw [if_pos h, add, if_pos (isSome_symbol?_iff.2 h)]
  · rw [if_neg h, add, if_neg (mt isSome_symbol?_iff.1 h)]
    rfl

theorem terms_addAll_map (hT : Function.Injective T) (h : n'.terms = n.terms.map T)
    (ts : List Term) : (n'.addAll (ts.map T)).terms = (n.addAll ts).terms.map T := by
  induction ts generalizing n n' with
  | nil => exact h
  | cons t ts ih =>
    apply ih
    rw [terms_add, terms_add, h]
    by_cases ht : t ∈ n.terms
    · rw [if_pos ht, if_pos (List.mem_map_of_mem ht)]
    · rw [if_neg ht, if_neg (mt (List.mem_map_of_injective hT).1 ht), List.map_cons]

/-- The names of the symbols in a table, that of the latest one first. -/
def names (n : Naming) : List String := n.entries.map (·.2.name)

def copyName (name : String) : String := Smt.superScope ++ "." ++ name

/-- All names that formulas have for the symbols of a table. -/
def constants (n : Naming) : List String := n.taken ++ n.names.map copyName

theorem copyName_injective : Function.Injective copyName := by
  intro a b h
  simpa [copyName] using h

theorem nameChars_of_mem_taken (hn : n.Sound) {name : String} (h : name ∈ n.taken) :
    ∀ c ∈ name.toList, isNameChar c := by
  rcases List.mem_cons.1 h with rfl | h
  · have hdefault : defaultGraph.toList.all isNameChar := rfl
    exact List.all_eq_true.1 hdefault
  · obtain ⟨e, he, rfl⟩ := List.mem_map.1 h
    exact hn.nameChars e he

theorem dot_mem_copyName (name : String) : '.' ∈ (copyName name).toList := by simp [copyName]

theorem nodup_constants (hn : n.Sound) : n.constants.Nodup := by
  have htaken := hn.nodup_taken
  have hnames : n.names.Nodup := (List.nodup_cons.1 htaken).2
  refine List.nodup_append.2 ⟨htaken, hnames.map copyName_injective, fun a ha b hb heq => ?_⟩
  -- a copy has a dot in its name, and no symbol has
  obtain ⟨name, -, rfl⟩ := List.mem_map.1 hb
  have hdot := nameChars_of_mem_taken hn ha '.' (heq ▸ dot_mem_copyName name)
  exact absurd hdot (by decide)

theorem plainName_of_mem_constants (hn : n.Sound) {name : String} (h : name ∈ n.constants) :
    PlainName name := by
  intro c hc
  rcases List.mem_append.1 h with h | h
  · exact .inl (nameChars_of_mem_taken hn h c hc)
  · obtain ⟨x, hx, rfl⟩ := List.mem_map.1 h
    simp only [copyName, String.toList_append, List.mem_append] at hc
    rcases hc with (hc | hc) | hc
    · have hscope : Smt.superScope.toList.all isNameChar := rfl
      exact .inl (List.all_eq_true.1 hscope c hc)
    · exact .inr (by simpa using hc)
    · exact .inl (nameChars_of_mem_taken hn (List.mem_cons_of_mem _ hx) c hc)

/-- One renaming of the constants takes the symbols of one table to those of the other. -/
structure RenamedTable (T : Term → Term) (σ : Equiv.Perm String) (n n' : Naming) : Prop where
  renames : RenamesConstants σ
  mirrors : Mirrors T (Symbol.rename σ) n n'
  /-- The copy of a variable in the scope of the super-query is renamed like the variable. -/
  copies : ∀ e ∈ n.entries,
    (e.2.rename σ).within Smt.superScope = (e.2.within Smt.superScope).rename σ

theorem entries_eq_of_names_eq {σ : String → String} (hkind : ∀ t, kindOf (T t) = kindOf t)
    {l l' : List (Term × Symbol)} (hterms : l'.map Prod.fst = (l.map Prod.fst).map T)
    (hnames : l'.map (·.2.name) = (l.map (·.2.name)).map σ)
    (hl : ∀ e ∈ l, e.2.kind = kindOf e.1) (hl' : ∀ e ∈ l', e.2.kind = kindOf e.1) :
    l' = l.map (Prod.map T (Symbol.rename σ)) := by
  induction l generalizing l' with
  | nil => simpa using hterms
  | cons e l ih =>
    cases l' with
    | nil => simp at hterms
    | cons e' l' =>
      obtain ⟨t, kind, name⟩ := e
      obtain ⟨t', kind', name'⟩ := e'
      obtain ⟨ht, hterms⟩ := List.cons.inj hterms
      obtain ⟨hname, hnames⟩ := List.cons.inj hnames
      obtain ⟨hk, hl⟩ := List.forall_mem_cons.1 hl
      obtain ⟨hk', hl'⟩ := List.forall_mem_cons.1 hl'
      have hkinds : kind' = kind := calc
        kind' = kindOf t' := hk'
        _ = kindOf (T t) := congrArg kindOf ht
        _ = kindOf t := hkind t
        _ = kind := hk.symm
      rw [List.map_cons, ih hterms hnames hl hl', hkinds]
      simp only [Prod.map_apply, Symbol.rename]
      rw [show t' = T t from ht, show name' = σ name from hname]

theorem exists_renamedTable (hkind : ∀ t, kindOf (T t) = kindOf t) (hn : n.Sound) (hn' : n'.Sound)
    (hterms : n'.terms = n.terms.map T) : ∃ σ, RenamedTable T σ n n' := by
  have hlength : n.entries.length = n'.entries.length := by
    simpa [terms] using (congrArg List.length hterms).symm
  obtain ⟨σ, hσ, hfix⟩ := exists_perm_map_eq (nodup_constants hn) (nodup_constants hn')
    (by simp [constants, taken, names, hlength])
  -- the default graph, the symbols and the copies are renamed one after the other
  simp only [constants, taken, List.cons_append, List.map_cons, List.map_append,
    List.cons.injEq] at hσ
  obtain ⟨hdefault, hσ⟩ := hσ
  obtain ⟨hnames, hcopies⟩ := List.append_inj hσ (by simp [hlength])
  have hnames' : n'.names = n.names.map σ := hnames.symm
  rw [hnames', List.map_map, List.map_map, List.map_inj_left] at hcopies
  refine ⟨σ, ⟨hdefault, fun name hname => ?_⟩,
    entries_eq_of_names_eq hkind hterms hnames' hn.kind_eq hn'.kind_eq, fun e he => ?_⟩
  · exact hfix name (fun hmem => hname (plainName_of_mem_constants hn hmem))
      fun hmem => hname (plainName_of_mem_constants hn' hmem)
  · have hcopy : σ (copyName e.2.name) = copyName (σ e.2.name) :=
      hcopies e.2.name (List.mem_map_of_mem he)
    have hvar : (e.2.rename σ).isVar = e.2.isVar := rfl
    unfold Symbol.within
    rw [hvar]
    cases e.2.isVar with
    | true => exact congrArg (Symbol.mk e.2.kind) hcopy.symm
    | false => rfl

variable {τ : Translation}

theorem kindOf_translate (t : Term) : kindOf (t.translate τ) = kindOf t := by cases t <;> rfl

theorem countP_of_mirrors (h : Mirrors T F n n') {p : Term × Symbol → Bool}
    (hp : ∀ t s, p (T t, F s) = p (t, s)) : n'.entries.countP p = n.entries.countP p := by
  rw [h, List.countP_map]
  exact List.countP_congr fun e _ => Bool.eq_iff_iff.1 (hp e.1 e.2)

theorem baseName_translate (hvar : τ.var = id) (hiri : τ.iri = id)
    (h : Mirrors (Term.translate τ.read) id n n') (t : Term) :
    n'.baseName (t.translate τ.read) = n.baseName t := by
  have hread : τ.read.var = id := Translation.scopedVar_of_var_eq_id hvar
  cases t with
  | iri value =>
    show iriName (τ.iri value) = iriName value
    rw [hiri]
    rfl
  | literal value =>
    have hcount : n'.literalCount = n.literalCount :=
      countP_of_mirrors h fun t _ => by cases t <;> rfl
    show "l_" ++ toString n'.literalCount = "l_" ++ toString n.literalCount
    rw [hcount]
  | var name =>
    show String.ofList (toNameChars (τ.read.var name).toList) = _
    rw [hread]
    rfl
  | blank label =>
    have hcount : n'.blankCount = n.blankCount :=
      countP_of_mirrors h fun t _ => by cases t <;> rfl
    show "_b" ++ toString n'.blankCount = "_b" ++ toString n.blankCount
    rw [hcount]

theorem taken_of_mirrors (h : Mirrors T id n n') : n'.taken = n.taken := by
  rw [taken, h, List.map_map, taken]
  rfl

/-- The same symbols are handed out, if only literals and blank nodes are replaced. -/
theorem mirrors_addAll (hvar : τ.var = id) (hiri : τ.iri = id) (hτ : τ.read.Injective)
    (h : Mirrors (Term.translate τ.read) id n n') (ts : List Term) :
    Mirrors (Term.translate τ.read) id (n.addAll ts)
      (n'.addAll (ts.map (Term.translate τ.read))) := by
  have hT := Term.translate_injective hτ
  induction ts generalizing n n' with
  | nil => exact h
  | cons t ts ih =>
    apply ih
    have hsymbol? := h.symbol? hT t
    unfold add
    rw [hsymbol?, Option.isSome_map]
    cases hs : n.symbol? t with
    | some s => exact h
    | none =>
      rw [hs, Option.map_none] at hsymbol?
      have hsymbol : n'.symbol (t.translate τ.read) = n.symbol t := by
        rw [symbol_kind_of_new hsymbol?, symbol_kind_of_new hs, kindOf_translate,
          taken_of_mirrors h, baseName_translate hvar hiri h]
      show (_, _) :: n'.entries = List.map _ ((t, n.symbol t) :: n.entries)
      rw [h, hsymbol]
      rfl

end Naming

end QueryContainment
