import QueryContainment.Proofs.Check.Evidence
import QueryContainment.Proofs.Check.Relabel
import QueryContainment.Proofs.Check.SideBySide

namespace QueryContainment

open Naming ConjunctiveQuery

/-- Only literals and the labels of blank nodes are replaced. -/
def Translation.ofContents (literal : Literal → Literal) (blank : String → String) : Translation :=
  ⟨id, literal, id, blank⟩

namespace Check

open CheckM

variable {τ : Translation} {F : Symbol → Symbol} {solver : Solver} {n n' a a' : Naming}
  {mode : Multiplicity} {q q' : Query} {s t : ConjunctiveQuery Symbol}

def metTerms (q q' : Query) : List Term :=
  (Flattened.ofQuery 0 q).terms ++ (Flattened.ofQuery (Flattened.ofQuery 0 q).scopes q').terms

theorem entries_table (q q' : Query) :
    (table q q').entries = (Naming.empty.addAll (metTerms q q')).entries := by
  have hscopes : (Naming.empty.readQuery q).2.scopes = (Flattened.ofQuery 0 q).scopes :=
    Nat.zero_add _
  have htable : table q q' = (Naming.empty.through (Flattened.ofQuery 0 q).terms
      (Flattened.ofQuery 0 q).scopes).through
        (Flattened.ofQuery (Naming.empty.readQuery q).2.scopes q').terms
        (Flattened.ofQuery (Naming.empty.readQuery q).2.scopes q').scopes := rfl
  rw [htable, hscopes, through_through]
  rfl

theorem metTerms_translate (hτ : τ.Injective) (hq : τ.var ≠ id → q.pattern.PlainNames)
    (hq' : τ.var ≠ id → q'.pattern.PlainNames) :
    metTerms (q.translate τ) (q'.translate τ) =
      (metTerms q q').map (Term.translate τ.read) := by
  simp only [metTerms, Flattened.ofQuery_translate hτ _ hq, Flattened.ofQuery_translate hτ _ hq',
    Flattened.translate, List.map_append]

theorem terms_table_translate (hτ : τ.Injective) (hread : τ.read.Injective)
    (hq : τ.var ≠ id → q.pattern.PlainNames) (hq' : τ.var ≠ id → q'.pattern.PlainNames) :
    (table (q.translate τ) (q'.translate τ)).terms =
      (table q q').terms.map (Term.translate τ.read) := by
  rw [terms, entries_table, metTerms_translate hτ hq hq', terms, entries_table]
  exact terms_addAll_map (Term.translate_injective hread) rfl (metTerms q q')

theorem readQuery_translate (hτ : τ.Injective) (hread : τ.read.Injective)
    (hq : τ.var ≠ id → q.pattern.PlainNames) (hn : n.WellFormed) (hn' : n'.WellFormed)
    (hmirrors : Mirrors (Term.translate τ.read) F n n') (hs : (a.readQuery q).1 = .ok s)
    (hkeep : ∀ e ∈ (a.readQuery q).2.entries, e ∈ n.entries) (hscopes : a'.scopes = a.scopes)
    (hkeep' : ∀ e ∈ (a'.readQuery (q.translate τ)).2.entries, e ∈ n'.entries) :
    (a'.readQuery (q.translate τ)).1 = .ok (s.relabel τ F) := by
  obtain ⟨r, hr, rfl, hentries⟩ := eq_map_of_readQuery hn hs hkeep
  have hresult : (Flattened.ofQuery a'.scopes (q.translate τ)).result =
      .ok (r.relabel τ (Term.translate τ.read)) := by
    rw [hscopes, Flattened.ofQuery_translate hτ _ hq, Flattened.translate, hr]
    rfl
  obtain ⟨s', hs'⟩ : ∃ s', (a'.readQuery (q.translate τ)).1 = .ok s' :=
    ⟨_, by rw [readQuery, name, hresult]; rfl⟩
  obtain ⟨r', hr', rfl, -⟩ := eq_map_of_readQuery hn' hs' hkeep'
  obtain rfl := Except.ok.inj (hresult.symm.trans hr')
  rw [hs', relabel_map, map_relabel]
  refine congrArg _ (relabel_congr fun part hpart x hx t ht => ?_)
  -- the symbol of a term of the query was handed out, so that its counterpart was as well
  have hmet := (Flattened.wellDrawn_ofQuery a.scopes q r hr part hpart).met_of_mem x hx t ht
  have hsome : (n.symbol? t).isSome := by
    rw [symbol?_of_mem_entries hn (hentries t hmet)]
    rfl
  exact hmirrors.symbol (Term.translate_injective hread) hsome

theorem Reads.translate (h : Reads q q' s t) (hτ : τ.Injective) (hread : τ.read.Injective)
    (hq : τ.var ≠ id → q.pattern.PlainNames) (hq' : τ.var ≠ id → q'.pattern.PlainNames)
    (hmirrors : Mirrors (Term.translate τ.read) F (table q q')
      (table (q.translate τ) (q'.translate τ))) :
    Reads (q.translate τ) (q'.translate τ) (s.relabel τ F) (t.relabel τ F) := by
  have hn := (sound_table q q').toWellFormed
  have hn' := (sound_table (q.translate τ) (q'.translate τ)).toWellFormed
  have hscopes : (Naming.empty.readQuery (q.translate τ)).2.scopes =
      (Naming.empty.readQuery q).2.scopes := by
    show 0 + (Flattened.ofQuery 0 (q.translate τ)).scopes = 0 + (Flattened.ofQuery 0 q).scopes
    rw [Flattened.ofQuery_translate hτ _ hq]
    rfl
  exact ⟨readQuery_translate hτ hread hq hn hn' hmirrors h.sub (fun e => mem_entries_table q') rfl
      fun e => mem_entries_table _,
    readQuery_translate hτ hread hq' hn hn' hmirrors h.sup (fun e he => he) hscopes
      fun e he => he⟩

theorem effective_translate (hτ : τ.Injective) (q : Query) (mode : Multiplicity) :
    effective (q.translate τ) mode = effective q mode := by
  cases mode with
  | bagSet => rw [effective, effective, q.dropsVariable_translate hτ]
  | _ => rfl

theorem mirrors_table (hτ : τ.Injective) (hvar : τ.var = id) (hiri : τ.iri = id) (q q' : Query) :
    Mirrors (Term.translate τ.read) id (table q q')
      (table (q.translate τ) (q'.translate τ)) := by
  have hread : τ.read.Injective := by rwa [Translation.read_of_var_eq_id hvar]
  have hempty : Mirrors (Term.translate τ.read) id .empty .empty := rfl
  have hplain (p : Pattern) : τ.var ≠ id → p.PlainNames := fun hne => absurd hvar hne
  rw [Mirrors, entries_table, metTerms_translate hτ (hplain _) (hplain _), entries_table]
  exact mirrors_addAll hvar hiri hread hempty (metTerms q q')

theorem varSymbol?_table (hτ : τ.Injective) (hvar : τ.var = id) (hiri : τ.iri = id)
    (q q' : Query) :
    (table (q.translate τ) (q'.translate τ)).varSymbol? = (table q q').varSymbol? := by
  funext x
  have hmirrors := mirrors_table hτ hvar hiri q q'
  rw [Translation.read_of_var_eq_id hvar] at hmirrors
  have hx : Term.translate τ (.var x) = .var x := by rw [Term.translate, hvar, id_eq]
  have hsymbol := hmirrors.symbol? (Term.translate_injective hτ) (.var x)
  rwa [hx, Option.map_id] at hsymbol

theorem Reads.translate_eq (h : Reads q q' s t) (hτ : τ.Injective) (hvar : τ.var = id)
    (hiri : τ.iri = id) : Reads (q.translate τ) (q'.translate τ) s t := by
  have hread : τ.read.Injective := by rwa [Translation.read_of_var_eq_id hvar]
  have hplain (p : Pattern) : τ.var ≠ id → p.PlainNames := fun hne => absurd hvar hne
  have hreads := h.translate hτ hread (hplain _) (hplain _) (mirrors_table hτ hvar hiri q q')
  rwa [relabel_id hvar hiri, relabel_id hvar hiri] at hreads

theorem formula_congr (hvars : n'.varSymbol? = n.varSymbol?) (c : Bool)
    (s t : ConjunctiveQuery Symbol) : formula c s t n' = formula c s t n := by
  simp only [formula, Smt.countermodel, hvars]

mutual

theorem queries_congr (hvars : n'.varSymbol? = n.varSymbol?) (solver : Solver)
    (mode : Multiplicity) : ∀ s t : ConjunctiveQuery Symbol,
      queries solver n' mode s t = queries solver n mode s t
  | ⟨atoms, answer, other, services⟩, t => by
    simp only [queries, whole, formula_congr hvars, endpoints_congr hvars solver services]

theorem endpoints_congr (hvars : n'.varSymbol? = n.varSymbol?) (solver : Solver) :
    ∀ (services : List (String × ConjunctiveQuery Symbol))
      (found : List (ConjunctiveQuery Symbol)),
      endpoints solver n' services found = endpoints solver n services found
  | [], found => by
    unfold endpoints
    rfl
  | _ :: _, [] => by
    unfold endpoints
    rfl
  | (url, q) :: rest, r :: found => by
    simp only [endpoints, queries_congr hvars solver .set q r,
      endpoints_congr hvars solver rest found]

end

theorem plan_congr (hvars : n'.varSymbol? = n.varSymbol?) (mode : Multiplicity)
    (s t : ConjunctiveQuery Symbol) : plan n' mode s t = plan n mode s t := by
  have hformulas (l : List Visit) : formulasOf n' l = formulasOf n l := by
    induction l with
    | nil => rfl
    | cons visit l ih =>
      cases visit with
      | missing url => rfl
      | pair mode sub sup => rw [formulasOf, formula_congr hvars, ih, formulasOf]
  exact hformulas _

/--
For any two queries that are read, and any injective replacements of literals and of the labels of
blank nodes in both. The queries become the same conjunctive queries, to the names of the symbols.
So all formulas that a check can ask for are the same texts, in every mode; and whatever the solver
replies, the check asks for the same ones and ends alike: with the same verdict, formulas,
justifications and endpoints, or with the same error.
-/
theorem contents_irrelevant {literal : Literal → Literal} {blank : String → String}
    (hliteral : Function.Injective literal) (hblank : Function.Injective blank)
    (hreads : Reads q q' s t) :
    let τ := Translation.ofContents literal blank
    let n' := table (q.translate τ) (q'.translate τ)
    Reads (q.translate τ) (q'.translate τ) s t ∧
    (∀ mode, plan n' mode s t = plan (table q q') mode s t) ∧
    (∀ solver mode asked, outcome (queries solver n' mode s t) asked =
      outcome (queries solver (table q q') mode s t) asked) ∧
    ∀ solver mode asked, outcome (contained solver mode (q.translate τ) (q'.translate τ)) asked =
      outcome (contained solver mode q q') asked := by
  intro τ n'
  have hτ : τ.Injective := ⟨Function.injective_id, hliteral, Function.injective_id, hblank⟩
  have hreads' : Reads (q.translate τ) (q'.translate τ) s t := hreads.translate_eq hτ rfl rfl
  have hvars : n'.varSymbol? = (table q q').varSymbol? := varSymbol?_table hτ rfl rfl q q'
  have hqueries (solver : Solver) (mode : Multiplicity) :
      queries solver n' mode s t = queries solver (table q q') mode s t :=
    queries_congr hvars solver mode s t
  refine ⟨hreads', fun mode => plan_congr hvars mode s t, fun solver mode asked => ?_,
    fun solver mode asked => ?_⟩
  · rw [hqueries]
  · by_cases hbag : mode = .bag
    · have hrefused (q q' : Query) :
          outcome (contained solver .bag q q') asked = (.error .bagSemantics, asked) := rfl
      rw [hbag, hrefused, hrefused]
    · obtain ⟨m, hm⟩ := exists_effective hbag q
      have hm' : effective (q.translate τ) mode = .ok m := (effective_translate hτ q mode).trans hm
      rw [outcome_contained_of_effective hm hreads, outcome_contained_of_effective hm' hreads',
        hqueries]

/-- A query at an endpoint whose variables are called what a blank node and a literal are. -/
def numberedNames : Query :=
  ⟨.select, .project (.service (.iri "e") (.join
    (.project (.bgp [⟨.var "_b0", .iri "p", .var "l_0"⟩]) ["_b0"])
    (.bgp [⟨.var "_b0", .iri "p", .blank "b"⟩, ⟨.blank "b", .iri "q", .literal (.simple "a")⟩])))
    ["_b0"], false⟩

theorem contents_irrelevant_numberedNames :
    let τ := Translation.ofContents (Equiv.swap (.simple "a") (.simple "b")) ("x" ++ ·)
    (numberedNames.translate τ).pattern ≠ numberedNames.pattern ∧
    ∃ v asked, outcome (contained refutesFirst .set numberedNames numberedNames) [] =
        (.ok v, asked) ∧
      outcome (contained refutesFirst .set (numberedNames.translate τ)
        (numberedNames.translate τ)) [] = (.ok v, asked) := by
  intro τ
  obtain ⟨s, hs⟩ : ∃ s, (Naming.empty.readQuery numberedNames).1 = .ok s := ⟨_, rfl⟩
  obtain ⟨t, ht⟩ : ∃ t,
    ((Naming.empty.readQuery numberedNames).2.readQuery numberedNames).1 = .ok t := ⟨_, rfl⟩
  obtain ⟨v, asked, hv⟩ : ∃ v asked,
    outcome (contained refutesFirst .set numberedNames numberedNames) [] = (.ok v, asked) :=
    ⟨_, _, rfl⟩
  have hblank : Function.Injective ("x" ++ · : String → String) := fun a b h => by simpa using h
  obtain ⟨-, -, -, hall⟩ := contents_irrelevant
    (Equiv.swap (Literal.simple "a") (.simple "b")).injective hblank ⟨hs, ht⟩
  exact ⟨by decide, v, asked, hv, (hall refutesFirst .set []).trans hv⟩

/-- Two checks that go through the same scripts, but for a renaming of the constants. -/
structure SameScripts (σ : String → String) (n n' : Naming) (mode : Multiplicity)
    (s t s' t' : ConjunctiveQuery Symbol) : Prop where
  /-- Line by line, the texts of the scripts are the same. -/
  lines : (scripts n' mode s' t').map (·.lines Smt.Statement.text) =
    (scripts n mode s t).map fun script =>
      (script.lines Smt.Statement.text).map (Smt.recast σ)
  formulas : plan n' mode s' t' = (plan n mode s t).map (Smt.recast σ)
  /-- An endpoint is missing in both or in neither. -/
  cut : planIsCut mode s' t' = planIsCut mode s t

theorem sameScripts_relabel {σ : Equiv.Perm String} (hτ : τ.Injective) (hσ : RenamesConstants σ)
    (h : ∀ visit ∈ visits mode s t, visit.Renamed τ σ n n') :
    SameScripts σ n n' mode s t (s.relabel τ (Symbol.rename σ))
      (t.relabel τ (Symbol.rename σ)) := by
  have hscripts : scripts n' mode (s.relabel τ (Symbol.rename σ))
      (t.relabel τ (Symbol.rename σ)) = (scripts n mode s t).map (Smt.Script.rename σ) := by
    rw [scripts, visits_relabel hτ.iri]
    exact scriptsOf_relabel hτ.var h
  have hplain : ∀ script ∈ scripts n mode s t, script.Plain := plain_scriptsOf h
  refine ⟨?_, ?_, planIsCut_relabel hτ.iri _ mode s t⟩
  · rw [hscripts, List.map_map]
    exact List.map_congr_left fun script hscript =>
      Smt.lines_rename hσ.defaultGraph (hplain script hscript)
  · rw [plan_eq, hscripts, plan_eq, List.map_map, List.map_map]
    exact List.map_congr_left fun script hscript =>
      Smt.formulaText_rename hσ.defaultGraph (hplain script hscript)

theorem ReadAs.plain_answer {k : Nat} {r : ConjunctiveQuery Term} (h : ReadAs n k q r s)
    (hq : q.pattern.PlainNames) : ∀ part ∈ s.parts, ∀ x ∈ part.answer, '#' ∉ x.toList := by
  rw [h.eq_map, parts_map, List.forall_mem_map]
  intro part hpart
  rw [answer_map]
  exact (Flattened.allRegular_ofQuery k hq r h.read part hpart).answer

/-- Each script of a check is renamed, since the symbols of the table are. -/
theorem Reads.renamed {σ : Equiv.Perm String} (h : Reads q q' s t) (hread : τ.read.Injective)
    (hq' : q'.pattern.PlainNames)
    (htable : RenamedTable (Term.translate τ.read) σ (table q q') n') :
    ∀ visit ∈ visits mode s t, visit.Renamed τ σ (table q q') n' := by
  intro visit hvisit
  cases visit with
  | missing url => trivial
  | pair m sub sup =>
    obtain ⟨hsub, hsup⟩ := mem_parts_of_visit hvisit
    obtain ⟨-, k, r, hsecond⟩ := h.exists_readAs
    refine renamed_pair htable (sound_table q q') (h.namedBy_parts.1 sub hsub)
      (h.namedBy_parts.2 sup hsup) (fun x hx => ?_) m
    have hvisible : τ.scopedVar x = τ.var x :=
      (Translation.carries_of_plain (hsecond.plain_answer hq' sup hsup x hx)).visible
    have hsymbol := htable.mirrors.symbol? (Term.translate_injective hread) (.var x)
    rw [← hvisible]
    exact hsymbol

/--
For any two queries that are read, as sets or with repetitions in the super-query, and any injective
replacements of the IRIs, literals, variables and labels of blank nodes in both; names of variables
have no `#`, before and after. The translated queries are read as well, and one renaming of the
constants, which keeps the default graph and the kind of each symbol, takes the table of the one
check to that of the other. Both checks go through the same scripts, but for that renaming. So a
solver that does not mind what the constants are called is asked for the renamed formulas, and comes
to the same verdict or error.
-/
theorem names_irrelevant (hmode : mode ≠ .bag) (hτ : τ.Injective) (hplain : τ.KeepsPlain)
    (hq : q.pattern.PlainNames) (hq' : q'.pattern.PlainNames) (hreads : Reads q q' s t) :
    ∃ (σ : Equiv.Perm String) (m : Multiplicity),
      RenamedTable (Term.translate τ.read) σ (table q q')
        (table (q.translate τ) (q'.translate τ)) ∧
      effective q mode = .ok m ∧ effective (q.translate τ) mode = .ok m ∧
      Reads (q.translate τ) (q'.translate τ) (s.relabel τ (Symbol.rename σ))
        (t.relabel τ (Symbol.rename σ)) ∧
      SameScripts σ (table q q') (table (q.translate τ) (q'.translate τ)) m s t
        (s.relabel τ (Symbol.rename σ)) (t.relabel τ (Symbol.rename σ)) ∧
      ∀ solver : Solver, solver.Insensitive → ∀ asked,
        judged (·.contained) (outcome (contained solver mode (q.translate τ) (q'.translate τ))
            (asked.map (Smt.recast σ))) =
          Prod.map id (List.map (Smt.recast σ))
            (judged (·.contained) (outcome (contained solver mode q q') asked)) := by
  have hread := Translation.read_injective hτ hplain
  obtain ⟨σ, htable⟩ := exists_renamedTable kindOf_translate (sound_table q q')
    (sound_table (q.translate τ) (q'.translate τ))
    (terms_table_translate hτ hread (fun _ => hq) (fun _ => hq'))
  obtain ⟨m, hm⟩ := exists_effective hmode q
  have hm' : effective (q.translate τ) mode = .ok m := (effective_translate hτ q mode).trans hm
  have hmbag := ne_bag_of_effective hm
  have hreads' := hreads.translate hτ hread (fun _ => hq) (fun _ => hq') htable.mirrors
  have hrenamed : ∀ visit ∈ visits m s t, visit.Renamed τ σ (table q q') _ :=
    hreads.renamed hread hq' htable
  refine ⟨σ, m, htable, hm, hm', hreads', sameScripts_relabel hτ htable.renames hrenamed,
    fun solver hsolver asked => ?_⟩
  rw [outcome_contained_of_effective hm' hreads', outcome_contained_of_effective hm hreads,
    judged_queries _ _ m hmbag, judged_queries _ _ m hmbag, visits_relabel hτ.iri]
  exact run_relabel hτ.var htable.renames hsolver hrenamed asked

theorem insensitive_refutesFirst : Solver.Insensitive refutesFirst := by
  intro σ _ asked script _
  simp [refutesFirst]

/-- Other names of all kinds. -/
def otherNames : Translation :=
  ⟨("x" ++ ·), Equiv.swap (.simple "a") (.simple "b"), ("x" ++ ·), ("x" ++ ·)⟩

/-- The endpoint is contained and the query is not, whatever everything is called. -/
theorem names_irrelevant_numberedNames : ∃ σ : Equiv.Perm String, RenamesConstants σ ∧
    ∃ first second,
      judged (·.contained) (outcome (contained refutesFirst .bagSet numberedNames numberedNames)
        []) = (.ok false, [first, second]) ∧
      judged (·.contained) (outcome (contained refutesFirst .bagSet
        (numberedNames.translate otherNames) (numberedNames.translate otherNames)) []) =
          (.ok false, [Smt.recast σ first, Smt.recast σ second]) := by
  obtain ⟨s, hs⟩ : ∃ s, (Naming.empty.readQuery numberedNames).1 = .ok s := ⟨_, rfl⟩
  obtain ⟨t, ht⟩ : ∃ t,
    ((Naming.empty.readQuery numberedNames).2.readQuery numberedNames).1 = .ok t := ⟨_, rfl⟩
  obtain ⟨first, second, hrun⟩ : ∃ first second, judged (·.contained)
      (outcome (contained refutesFirst .bagSet numberedNames numberedNames) []) =
    (.ok false, [first, second]) := ⟨_, _, rfl⟩
  have hx : Function.Injective ("x" ++ · : String → String) := fun a b h => by simpa using h
  have hτ : otherNames.Injective :=
    ⟨hx, (Equiv.swap (Literal.simple "a") (.simple "b")).injective, hx, hx⟩
  have hkeeps : otherNames.KeepsPlain := by
    intro x h
    simpa [otherNames] using h
  have hplain : numberedNames.pattern.PlainNames := by
    unfold Pattern.PlainNames
    decide
  obtain ⟨σ, -, htable, -, -, -, -, hall⟩ := names_irrelevant
    (show Multiplicity.bagSet ≠ .bag by decide) hτ hkeeps hplain hplain ⟨hs, ht⟩
  refine ⟨σ, htable.renames, first, second, hrun, ?_⟩
  have hother := hall refutesFirst insensitive_refutesFirst []
  rw [hrun] at hother
  exact hother

end Check

end QueryContainment
