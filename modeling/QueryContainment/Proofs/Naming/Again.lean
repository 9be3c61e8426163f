import QueryContainment.Proofs.Conjunctive.Later
import QueryContainment.Proofs.Conjunctive.OpenScopes
import QueryContainment.Proofs.Naming.Scoping
import QueryContainment.Proofs.Naming.Translation

namespace QueryContainment

open Naming

namespace Term

variable {t : Term} {lo hi : Nat}

theorem Plain.later_eq (h : t.Plain) (d : Nat) : t.later d = t := by
  cases t with
  | var x => exact later_of_plain (h x rfl)
  | _ => rfl

theorem HiddenIn.later (h : t.HiddenIn lo hi) (d : Nat) :
    (t.later d).HiddenIn (lo + d) (hi + d) := by
  obtain ⟨x, j, rfl, hx, hj, hj'⟩ := h
  exact ⟨x, j + d, later_scoped d x j, hx, Nat.add_le_add_right hj d, Nat.add_lt_add_right hj' d⟩

end Term

namespace Flattened

variable {p : Pattern}

theorem scopes_services_eq_zero {α : Type} {read : Nat → Pattern → Flattened α}
    {l : List (String × Pattern)} (h : ∀ e ∈ l, ∀ k, (read k e.2).scopes = 0) (k : Nat) :
    (services read k l).scopes = 0 := by
  induction l generalizing k with
  | nil => rfl
  | cons e l ih =>
    obtain ⟨url, body⟩ := e
    have hfirst : (read k body).scopes = 0 := h _ List.mem_cons_self k
    have hothers := ih (fun e he => h e (List.mem_cons_of_mem _ he))
    simp only [services]
    cases (read k body).result with
    | error reason => exact hfirst
    | ok q => simp only [hfirst, hothers]

theorem scopes_body_eq_zero {read : Nat → Pattern → Flattened (ConjunctiveQuery Term)}
    (hp : p.ProjectFree) {k : Nat}
    (h : ∀ e ∈ endpoints (p.steps .root k), ∀ j, (read j e.2).scopes = 0)
    (projection : Option (List String)) : (body read k projection p).scopes = 0 := by
  have hsteps : Step.scopes (p.steps .root k) = 0 := hp.scopes_steps .root k
  cases hr : (p.steps .root k).findSome? Step.rejection? with
  | some reason =>
    have hdone : Step.scopes ((p.steps .root k).takeWhile (·.rejection?.isNone)) ≤
        Step.scopes (p.steps .root k) := (List.takeWhile_sublist _).countP_le
    simp only [body, hr]
    omega
  | none =>
    rw [body_eq read k projection hr]
    simp only [hsteps, scopes_services_eq_zero h]

end Flattened

theorem Pattern.ProjectFree.body_of_mem_endpoints {p : Pattern} (hp : p.ProjectFree) {c : Context}
    {k : Nat} {e : String × Pattern} (he : e ∈ Flattened.endpoints (p.steps c k)) :
    e.2.ProjectFree :=
  Flattened.forall_endpoints (fun _ _ => ProjectFree.join)
    (fun _ _ hb node hnode => hp node (nodes_of_mem_steps hb node hnode)) e he

namespace Flattened

theorem scopes_ofPattern_eq_zero {p : Pattern} (hp : p.ProjectFree) (k : Nat) :
    (ofPattern k p).scopes = 0 := by
  induction p using endpoint_induction generalizing k with
  | pattern p ih =>
    have hinner : p.splitProjection.2.ProjectFree := hp.splitProjection.2.1
    rw [ofPattern_eq]
    exact scopes_body_eq_zero hinner (fun e he j => ih k e he (hinner.body_of_mem_endpoints he) j) _

theorem scopes_ofQuery_eq_zero {q : Query} (hq : q.inner.ProjectFree) {k : Nat}
    {r : ConjunctiveQuery Term} (h : (ofQuery k q).result = .ok r) : (ofQuery k q).scopes = 0 := by
  obtain ⟨projection, -, hbody⟩ := exists_body_of_ofQuery h
  rw [hbody]
  exact scopes_body_eq_zero hq
    (fun e he j => scopes_ofPattern_eq_zero (hq.body_of_mem_endpoints he) j) projection

end Flattened

namespace Naming

variable {n n' : Naming} {ts : List Term}

theorem addAll_of_met (h : ∀ t ∈ ts, (n.symbol? t).isSome) : n.addAll ts = n := by
  induction ts with
  | nil => rfl
  | cons t ts ih =>
    obtain ⟨hfirst, hrest⟩ := List.forall_mem_cons.1 h
    have hadd : n.add t = n := if_pos hfirst
    show (n.add t).addAll ts = n
    rw [hadd]
    exact ih hrest

theorem exists_entries_addAll (n : Naming) (ts : List Term) :
    ∃ new, (n.addAll ts).entries = new ++ n.entries ∧
      ∀ e ∈ new, e.1 ∈ ts ∧ n.symbol? e.1 = none := by
  induction ts generalizing n with
  | nil => exact ⟨[], rfl, by simp⟩
  | cons t ts ih =>
    obtain ⟨new, hnew, hterms⟩ := ih (n.add t)
    have hlater : ∀ e ∈ new, e.1 ∈ t :: ts ∧ n.symbol? e.1 = none := by
      intro e he
      obtain ⟨hmem, hnone⟩ := hterms e he
      refine ⟨List.mem_cons_of_mem _ hmem, Option.eq_none_iff_forall_not_mem.2 fun s hs => ?_⟩
      rw [symbol?_add_of_some hs] at hnone
      cases hnone
    show ∃ new, ((n.add t).addAll ts).entries = new ++ n.entries ∧ _
    rw [hnew]
    cases ht : n.symbol? t with
    | some s => exact ⟨new, by rw [add, if_pos (by rw [ht]; rfl)], hlater⟩
    | none =>
      refine ⟨new ++ [(t, n.symbol t)], ?_, fun e he => ?_⟩
      · rw [add, if_neg (by simp [ht]), List.append_assoc]
        rfl
      · rcases List.mem_append.1 he with he | he
        · exact hlater e he
        · obtain rfl := List.mem_singleton.1 he
          exact ⟨List.mem_cons_self, ht⟩

theorem name_again {f : Flattened (ConjunctiveQuery Term)} (hf : f.scopes = 0) :
    (n.name f).2.name f = n.name f := by
  have hmet : (n.name f).2.addAll f.terms = (n.name f).2 :=
    addAll_of_met fun t ht => symbol?_addAll_of_mem (n := n) ht
  rw [name, hmet, hf]
  rfl

def InOpenScopes (n : Naming) : Prop := ∀ e ∈ n.entries, e.1.Within 0 n.scopes

/-- There is no `#` in the names of the variables that a call brings. -/
def Call.PlainNames : Call → Prop
  | .term t => t.Plain
  | .scope => True
  | .pattern p => p.PlainNames
  | .query q => q.pattern.PlainNames

theorem InOpenScopes.name (h : n.InOpenScopes) {f : Flattened (ConjunctiveQuery Term)}
    (hf : f.Within n.scopes) : (n.name f).2.InOpenScopes := by
  obtain ⟨new, hnew, hterms⟩ := exists_entries_addAll n f.terms
  intro e he
  have he : e ∈ new ++ n.entries := hnew ▸ he
  rcases List.mem_append.1 he with he | he
  · exact (hf e.1 (hterms e he).1).mono (Nat.zero_le _) (Nat.le_refl _)
  · exact (h e he).mono (Nat.le_refl _) (Nat.le_add_right _ _)

theorem InOpenScopes.apply (h : n.InOpenScopes) {c : Call} (hc : c.PlainNames) :
    (c.apply n).InOpenScopes := by
  cases c with
  | term t =>
    intro e he
    rw [Call.apply, scopes_add]
    rcases mem_entries_add.1 he with he | rfl
    · exact h e he
    · exact .inl hc
  | scope => exact fun e he => (h e he).mono (Nat.le_refl _) (Nat.le_succ _)
  | pattern p => exact h.name (Flattened.within_ofPattern hc n.scopes)
  | query q => exact h.name (Flattened.within_ofQuery hc n.scopes)

theorem InOpenScopes.after (h : n.InOpenScopes) {calls : List Call}
    (hcalls : ∀ c ∈ calls, c.PlainNames) : (n.after calls).InOpenScopes := by
  induction calls generalizing n with
  | nil => exact h
  | cons c calls ih =>
    obtain ⟨hc, hrest⟩ := List.forall_mem_cons.1 hcalls
    exact ih (h.apply hc) hrest

theorem inOpenScopes_empty : empty.InOpenScopes := fun _ he => nomatch he

/--
If the terms of a table that have moved have counterparts in a later table that are new there, one
renaming takes the symbols of these terms to those of their counterparts, and leaves all others of
the table as they are.
-/
theorem exists_renaming (hn : n.WellFormed) (hn' : n'.WellFormed)
    (hkept : ∀ e ∈ n.entries, e ∈ n'.entries) {T : Term → Term} (hT : Function.Injective T)
    (moved : Term → Prop) (hmet : ∀ e ∈ n.entries, moved e.1 → (n'.symbol? (T e.1)).isSome)
    (hnew : ∀ e ∈ n.entries, moved e.1 → ∀ e' ∈ n.entries, e'.1 ≠ T e.1) :
    ∃ σ : Equiv.Perm Symbol, (∀ e ∈ n.entries, moved e.1 → σ e.2 = n'.symbol (T e.1)) ∧
      ∀ e ∈ n.entries, ¬moved e.1 → σ e.2 = e.2 := by
  classical
  let l := n.entries.filter fun e => moved e.1
  have hl (e : Term × Symbol) : e ∈ l ↔ e ∈ n.entries ∧ moved e.1 := by simp [l]
  have hentries : n.entries.Nodup := .of_map _ hn.nodup_terms
  have hcounterpart (e : Term × Symbol) (he : e ∈ l) :
      (T e.1, n'.symbol (T e.1)) ∈ n'.entries :=
    mem_entries_symbol (hmet e ((hl e).1 he).1 ((hl e).1 he).2)
  have hsymbols : (l.map Prod.snd).Nodup := by
    refine (hentries.filter _).map_on fun e he e' he' heq => ?_
    exact Distinct.eq_of_nodup_map hn.nodup_terms ((hl e).1 he).1 ((hl e').1 he').1
      ((symbol_eq_iff hn ((hl e).1 he).1 ((hl e').1 he').1).1 heq)
  have hcounterparts : (l.map fun e => n'.symbol (T e.1)).Nodup := by
    refine (hentries.filter _).map_on fun e he e' he' heq => ?_
    have hterm := (symbol_eq_iff hn' (hcounterpart e he) (hcounterpart e' he')).1 heq
    exact Distinct.eq_of_nodup_map hn.nodup_terms ((hl e).1 he).1 ((hl e').1 he').1 (hT hterm)
  obtain ⟨σ, hσ, hfix⟩ := exists_perm_map_eq hsymbols hcounterparts (by simp)
  rw [List.map_map, List.map_inj_left] at hσ
  refine ⟨σ, fun e he hmoved => hσ e ((hl e).2 ⟨he, hmoved⟩), fun e he hmoved => hfix _ ?_ ?_⟩
  · intro hmem
    obtain ⟨e', he', heq⟩ := List.mem_map.1 hmem
    have hterm := (symbol_eq_iff hn ((hl e').1 he').1 he).1 heq
    exact hmoved (hterm ▸ ((hl e').1 he').2)
  · intro hmem
    obtain ⟨e', he', heq⟩ := List.mem_map.1 hmem
    have hterm := (symbol_eq_iff hn' (hcounterpart e' he') (hkept e he)).1 heq
    exact hnew e' ((hl e').1 he').1 ((hl e').1 he').2 e he hterm.symm

/-- A query is read, and then it is read again with the table that is left. -/
def readAgain (n : Naming) (q : Query) : Except Rejection (ConjunctiveQuery Symbol) × Naming :=
  (n.readQuery q).2.readQuery q

/--
A query that has been read to `s`, whereby `d` scopes were opened, is read again to `s'`: as many
scopes are opened, nothing is new to the table but variables hidden in these, and the queries differ
only in the symbols of the variables that are hidden in the scopes of the two readings.
-/
structure ReadsAgain (n : Naming) (q : Query) (s s' : ConjunctiveQuery Symbol) (d : Nat) :
    Prop where
  result : (n.readAgain q).1 = .ok s'
  scopes : (n.readQuery q).2.scopes = n.scopes + d
  scopes_again : (n.readAgain q).2.scopes = n.scopes + d + d
  entries : ∃ new, (n.readAgain q).2.entries = new ++ (n.readQuery q).2.entries ∧
    ∀ e ∈ new, e.1.HiddenIn (n.scopes + d) (n.scopes + d + d)
  literalCount : (n.readAgain q).2.literalCount = (n.readQuery q).2.literalCount
  renamed : ∃ σ : Equiv.Perm Symbol, s' = s.map σ ∧
    (∀ e ∈ (n.readQuery q).2.entries, ¬e.1.HiddenIn n.scopes (n.scopes + d) → σ e.2 = e.2) ∧
    ∀ x j symbol, n.scopes ≤ j →
      (.var (scopedName x (scopeName j)), symbol) ∈ (n.readQuery q).2.entries →
        (.var (scopedName x (scopeName (j + d))), σ symbol) ∈ (n.readAgain q).2.entries

variable {q : Query} {s : ConjunctiveQuery Symbol}

def opened (n : Naming) (q : Query) : Nat := (Flattened.ofQuery n.scopes q).scopes

theorem scopes_readQuery (n : Naming) (q : Query) :
    (n.readQuery q).2.scopes = n.scopes + n.opened q := rfl

theorem readAgain_eq (n : Naming) (hq : q.pattern.PlainNames) : n.readAgain q =
    (n.readQuery q).2.name ((Flattened.ofQuery n.scopes q).later (n.opened q)) := by
  rw [← Flattened.ofQuery_later _ n.scopes hq]
  rfl

theorem mem_entries_readAgain {e : Term × Symbol} (he : e ∈ (n.readQuery q).2.entries) :
    e ∈ (n.readAgain q).2.entries := mem_entries_addAll.2 (.inl he)

theorem isSome_symbol?_readQuery {t : Term} (ht : t ∈ (Flattened.ofQuery n.scopes q).terms) :
    ((n.readQuery q).2.symbol? t).isSome := symbol?_addAll_of_mem (n := n) ht

theorem isSome_symbol?_readAgain (hq : q.pattern.PlainNames) {t : Term}
    (ht : t ∈ (Flattened.ofQuery n.scopes q).terms) :
    ((n.readAgain q).2.symbol? (t.later (n.opened q))).isSome := by
  rw [readAgain_eq n hq]
  exact symbol?_addAll_of_mem (List.mem_map_of_mem ht)

theorem entries_readAgain (hq : q.pattern.PlainNames) :
    ∃ new, (n.readAgain q).2.entries = new ++ (n.readQuery q).2.entries ∧
      ∀ e ∈ new, e.1.HiddenIn (n.scopes + n.opened q) (n.scopes + n.opened q + n.opened q) := by
  obtain ⟨new, hnew, hterms⟩ := exists_entries_addAll (n.readQuery q).2
    ((Flattened.ofQuery n.scopes q).later (n.opened q)).terms
  refine ⟨new, by rw [readAgain_eq n hq]; exact hnew, fun e he => ?_⟩
  obtain ⟨hmem, hnone⟩ := hterms e he
  obtain ⟨t, ht, htlater⟩ := List.mem_map.1 hmem
  rw [← htlater] at hnone ⊢
  rcases Flattened.within_ofQuery hq n.scopes t ht with hplain | hhidden
  -- what is plain was met by the first reading
  · have hmet := isSome_symbol?_readQuery ht
    rw [hplain.later_eq] at hnone
    rw [hnone] at hmet
    cases hmet
  · exact hhidden.later (n.opened q)

theorem mem_terms_of_hiddenIn (hopen : n.InOpenScopes) {e : Term × Symbol}
    (he : e ∈ (n.readQuery q).2.entries)
    (hhidden : e.1.HiddenIn n.scopes (n.scopes + n.opened q)) :
    e.1 ∈ (Flattened.ofQuery n.scopes q).terms := by
  obtain ⟨new, hnew, hterms⟩ := exists_entries_addAll n (Flattened.ofQuery n.scopes q).terms
  have he : e ∈ new ++ n.entries := hnew ▸ he
  rcases List.mem_append.1 he with he | he
  · exact (hterms e he).1
  · rcases hopen e he with hplain | hbefore
    · exact absurd hplain hhidden.not_plain
    · exact absurd (hhidden.lt_of_hiddenIn hbefore) (Nat.lt_irrefl _)

theorem exists_renaming_readAgain (hn : n.Sound) (hopen : n.InOpenScopes)
    (hq : q.pattern.PlainNames) :
    ∃ σ : Equiv.Perm Symbol,
      (∀ e ∈ (n.readQuery q).2.entries, e.1.HiddenIn n.scopes (n.scopes + n.opened q) →
        (e.1.later (n.opened q), σ e.2) ∈ (n.readAgain q).2.entries) ∧
      ∀ e ∈ (n.readQuery q).2.entries, ¬e.1.HiddenIn n.scopes (n.scopes + n.opened q) →
        σ e.2 = e.2 := by
  have hread : (n.readQuery q).2.Sound := sound_apply hn (.query q)
  have hagain : (n.readAgain q).2.Sound := sound_apply hread (.query q)
  have hopen' : (n.readQuery q).2.InOpenScopes := hopen.apply (c := .query q) hq
  have hmet : ∀ e ∈ (n.readQuery q).2.entries, e.1.HiddenIn n.scopes (n.scopes + n.opened q) →
      ((n.readAgain q).2.symbol? (e.1.later (n.opened q))).isSome :=
    fun e he hhidden => isSome_symbol?_readAgain hq (mem_terms_of_hiddenIn hopen he hhidden)
  have hfresh : ∀ e ∈ (n.readQuery q).2.entries, e.1.HiddenIn n.scopes (n.scopes + n.opened q) →
      ∀ e' ∈ (n.readQuery q).2.entries, e'.1 ≠ e.1.later (n.opened q) := by
    intro e he hhidden e' he' heq
    have hlater := hhidden.later (n.opened q)
    rw [← heq] at hlater
    rcases hopen' e' he' with hplain | hbefore
    · exact hlater.not_plain hplain
    · exact absurd (hlater.lt_of_hiddenIn hbefore) (Nat.lt_irrefl _)
  obtain ⟨σ, hmoved, hfix⟩ := exists_renaming hread.toWellFormed hagain.toWellFormed
    (fun e => mem_entries_readAgain) (Term.later_injective (n.opened q)) _ hmet hfresh
  refine ⟨σ, fun e he hhidden => ?_, hfix⟩
  rw [hmoved e he hhidden]
  exact mem_entries_symbol (hmet e he hhidden)

theorem map_readAgain (hn : n.Sound) (hq : q.pattern.PlainNames)
    (hs : (n.readQuery q).1 = .ok s) {σ : Equiv.Perm Symbol}
    (hmoved : ∀ e ∈ (n.readQuery q).2.entries, e.1.HiddenIn n.scopes (n.scopes + n.opened q) →
      (e.1.later (n.opened q), σ e.2) ∈ (n.readAgain q).2.entries)
    (hfix : ∀ e ∈ (n.readQuery q).2.entries, ¬e.1.HiddenIn n.scopes (n.scopes + n.opened q) →
      σ e.2 = e.2) : (n.readAgain q).1 = .ok (s.map σ) := by
  have hagain : (n.readAgain q).2.Sound := sound_apply (sound_apply hn (.query q)) (.query q)
  obtain ⟨r, hr, rfl⟩ := name_eq_ok hs
  have hresult : (n.readAgain q).1 =
      .ok ((r.map (Term.later (n.opened q))).map (n.readAgain q).2.symbol) := by
    rw [readAgain_eq n hq, name, Flattened.later, hr]
    rfl
  rw [hresult, ConjunctiveQuery.map_map, ConjunctiveQuery.map_map]
  refine congrArg _ (ConjunctiveQuery.map_congr fun part hpart a ha t ht => ?_)
  have hmet : t ∈ (Flattened.ofQuery n.scopes q).terms :=
    (Flattened.wellDrawn_ofQuery n.scopes q r hr part hpart).met_of_mem a ha t ht
  have hentry := mem_entries_symbol (isSome_symbol?_readQuery hmet)
  show (n.readAgain q).2.symbol (t.later (n.opened q)) = σ ((n.readQuery q).2.symbol t)
  rcases Flattened.within_ofQuery hq n.scopes t hmet with hplain | hhidden
  · rw [hplain.later_eq, hfix _ hentry fun h => h.not_plain hplain]
    exact symbol_of_mem_entries hagain.toWellFormed (mem_entries_readAgain hentry)
  · exact symbol_of_mem_entries hagain.toWellFormed (hmoved _ hentry hhidden)

theorem readsAgain (hn : n.Sound) (hopen : n.InOpenScopes) (hq : q.pattern.PlainNames)
    (hs : (n.readQuery q).1 = .ok s) : ∃ s', n.ReadsAgain q s s' (n.opened q) := by
  have hopen' : (n.readQuery q).2.InOpenScopes := hopen.apply (c := .query q) hq
  obtain ⟨new, hnew, hhidden⟩ := entries_readAgain (n := n) hq
  obtain ⟨σ, hmoved, hfix⟩ := exists_renaming_readAgain hn hopen hq
  refine ⟨s.map σ, map_readAgain hn hq hs hmoved hfix, scopes_readQuery n q, ?_,
    ⟨new, hnew, hhidden⟩, ?_, σ, rfl, hfix, ?_⟩
  · rw [readAgain_eq n hq]
    rfl
  · rw [literalCount, hnew, List.countP_append]
    refine Nat.add_eq_right.2 (List.countP_eq_zero.2 fun e he => ?_)
    obtain ⟨x, j, hvar, -⟩ := hhidden e he
    simp [hvar]
  · intro x j symbol hj hentry
    rw [← Term.later_scoped]
    refine hmoved _ hentry ?_
    rcases hopen' _ hentry with hplain | ⟨y, k, heq, hy, -, hk⟩
    · exact absurd (hash_mem_scopedName x (scopeName j)) (hplain _ rfl)
    · obtain ⟨rfl, rfl⟩ := scopedName_inj (Term.var.inj heq)
      exact ⟨x, j, rfl, hy, hj, hk⟩

/--
Whatever was met and read before, under plain names, a query that can be read can be read again. As
many scopes are opened as before, and only variables that are hidden in these are new to the table.
The second query is the first one, up to a renaming that replaces nothing but the symbols of hidden
variables. Without sub-selects, the second reading leaves the same query and the same table.
-/
theorem read_again {calls : List Call} (hcalls : ∀ c ∈ calls, c.PlainNames) {q : Query}
    (hq : q.pattern.PlainNames) {s : ConjunctiveQuery Symbol}
    (hs : ((empty.after calls).readQuery q).1 = .ok s) :
    (∃ s' d, (empty.after calls).ReadsAgain q s s' d) ∧
    (q.inner.ProjectFree → (empty.after calls).readAgain q = (empty.after calls).readQuery q) := by
  have hsound : (empty.after calls).Sound := sound_after sound_empty calls
  have hopen : (empty.after calls).InOpenScopes := inOpenScopes_empty.after hcalls
  constructor
  · obtain ⟨s', hs'⟩ := readsAgain hsound hopen hq hs
    exact ⟨s', _, hs'⟩
  · intro hfree
    obtain ⟨r, hr, -⟩ := name_eq_ok hs
    have hzero : (empty.after calls).opened q = 0 := Flattened.scopes_ofQuery_eq_zero hfree hr
    have hsame : (Flattened.ofQuery (empty.after calls).scopes q).later 0 =
        Flattened.ofQuery (empty.after calls).scopes q :=
      (Flattened.ofQuery_later 0 _ hq).symm
    rw [readAgain_eq _ hq, hzero, hsame]
    exact name_again hzero

/-- A clause that joins a triple with a sub-select, as its endpoint does in turn. -/
def subSelectInClause : Query :=
  ⟨.select, .service (.iri "e") (.join (.bgp [⟨.var "x", .iri "p", .blank "b"⟩])
    (.project (.bgp [⟨.var "x", .iri "q", .var "y"⟩]) ["x"])), false⟩

/-- The names of the first scopes are taken in part, and some scopes have been opened already. -/
def takenBefore : List Call := [.term (.var "y_sq3"), .query subSelectInClause, .scope]

theorem read_again_subSelectInClause :
    (∃ s s', ((empty.after takenBefore).readQuery subSelectInClause).1 = .ok s ∧
      (empty.after takenBefore).ReadsAgain subSelectInClause s s' 2) ∧
    (empty.after takenBefore).readAgain ⟨.ask, .bgp [⟨.var "z", .iri "p", .var "x"⟩], false⟩ =
      (empty.after takenBefore).readQuery
        ⟨.ask, .bgp [⟨.var "z", .iri "p", .var "x"⟩], false⟩ := by
  have hquery : subSelectInClause.pattern.PlainNames := by
    unfold Pattern.PlainNames
    decide
  have hcalls : ∀ c ∈ takenBefore, c.PlainNames := by
    intro c hc
    simp only [takenBefore, List.mem_cons, List.not_mem_nil, or_false] at hc
    rcases hc with rfl | rfl | rfl
    · intro x hx
      obtain rfl := Term.var.inj hx
      decide
    · exact hquery
    · trivial
  constructor
  · obtain ⟨s', d, h⟩ := (read_again hcalls hquery rfl).1
    have hscopes : 3 + 2 = 3 + d := h.scopes
    obtain rfl : 2 = d := Nat.add_left_cancel hscopes
    exact ⟨_, s', rfl, h⟩
  · refine (read_again hcalls ?_ rfl).2 ?_
    · unfold Pattern.PlainNames
      decide
    · unfold Pattern.ProjectFree
      decide

end Naming

end QueryContainment
