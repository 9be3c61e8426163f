import QueryContainment.Proofs.Check.SideBySide
import QueryContainment.Proofs.Conjunctive.ProjectedClause

namespace QueryContainment

open Naming ConjunctiveQuery

namespace Check

variable {inner : Pattern} {names : List String} {n n' : Naming} {q q' sup : Query}
  {s s' t t' : ConjunctiveQuery Symbol} {mode : Multiplicity} {plain : Prop}

/-- Two pairs for an endpoint, with the variables of the sub-query exposed in the second one. -/
inductive Visit.Exposed (inner : Pattern) (names : List String) (n n' : Naming) :
    Visit → Visit → Prop
  | pair {s s' t t' : ConjunctiveQuery Symbol}
    (hsub : NamedPair (Flattened.Exposed inner names) n n' s s')
    (hsup : ∀ x, x ∈ t.answer ↔ x ∈ t'.answer) :
    Exposed inner names n n' (pair .set s t) (pair .set s' t')

theorem Visit.Exposed.not_hasMapping {v v' : Visit} (h : v.Exposed inner names n n' v')
    (hkind : v.kind? = v'.kind?) : ¬v.HasMapping n ∧ ¬v'.HasMapping n' := by
  have hdiffer : v.kind? ≠ some true ∨ v'.kind? ≠ some true := by
    obtain ⟨⟨r, r', hexposed, hs, hs'⟩, hsup⟩ := h
    obtain ⟨x, hx⟩ := List.exists_mem_of_ne_nil _ hexposed.binds
    rw [← not_and_or]
    rintro ⟨hcompared, hcompared'⟩
    have hsame := sameAnswer_iff.1 (Option.some.inj hcompared) x
    have hsame' := sameAnswer_iff.1 (Option.some.inj hcompared') x
    rw [hs.eq_map, answer_map, hexposed.answer] at hsame
    rw [hs'.eq_map, answer_map, hexposed.answerOfSubSelect] at hsame'
    exact absurd (hsame.2 ((hsup x).2 (hsame'.1 hx))) List.not_mem_nil
  have hneither : v.kind? ≠ some true := hdiffer.elim id fun h' => hkind ▸ h'
  exact ⟨fun hv => hneither hv.kind?, fun hv' => hneither (hkind.trans hv'.kind?)⟩

/-- Pairs of the same kind that, if names are plain, have a mapping in both checks or in none. -/
structure Visit.Unchanged (plain : Prop) (n n' : Naming) (v v' : Visit) : Prop where
  kind : v.kind? = v'.kind?
  mapping : plain → (v.HasMapping n ↔ v'.HasMapping n')

/-- Where both pairs are of the same kind, both have a mapping or none. -/
theorem Visit.hasMapping_iff {v v' : Visit} (hplain : plain)
    (h : Visit.Unchanged plain n n' v v' ∨ v.Exposed inner names n n' v')
    (hkind : v.kind? = v'.kind?) : v.HasMapping n ↔ v'.HasMapping n' := by
  rcases h with h | h
  · exact h.mapping hplain
  · obtain ⟨hnot, hnot'⟩ := h.not_hasMapping hkind
    exact iff_of_false hnot hnot'

theorem SameAnswers.unchanged (hn : n.Sound) (hn' : n'.Sound) (hs : SameAnswers plain n n' s s')
    (ht : SameAnswers plain n n' t t') (hkind : compatible s t mode = compatible s' t' mode) :
    Visit.Unchanged plain n n' (.pair mode s t) (.pair mode s' t') :=
  ⟨congrArg some hkind, fun hplain => hs.hasMapping_iff hplain hn hn' ht hkind⟩

theorem forall₂_visits_of_projectsClauses (hs : Reads q sup s t) (hs' : Reads q' sup s' t')
    (h : q.ProjectsClauses inner names q') (hnames : ∀ x ∈ inner.bound, x ∈ names)
    (hq : plain → q.pattern.PlainNames) (hsup : plain → sup.pattern.PlainNames)
    (mode : Multiplicity) :
    compatible s t mode = compatible s' t' mode ∧
      List.Forall₂ (fun v v' => Visit.Unchanged plain (table q sup) (table q' sup) v v' ∨
          v.Exposed inner names (table q sup) (table q' sup) v')
        (visits mode s t) (visits mode s' t') := by
  have hn := sound_table q sup
  have hn' := sound_table q' sup
  obtain ⟨⟨r, hr⟩, k, u, hu⟩ := hs.exists_readAs
  obtain ⟨⟨r', hr'⟩, k', u', hu'⟩ := hs'.exists_readAs
  obtain ⟨hroot, hanswer, hother⟩ := h.pairedIf hnames hq hr.read hr'.read
  obtain ⟨hsupRoot, hsupAnswer, hsupOther⟩ :=
    (Query.ProjectsClauses.refl sup).pairedIf hnames hsup hu.read hu'.read
  have hkind : compatible s t mode = compatible s' t' mode := by
    rw [hr.eq_map, hr'.eq_map, hu.eq_map, hu'.eq_map]
    apply compatible_congr <;> simp only [answer_map, other_map, *]
  have hwhole : Visit.Unchanged plain (table q sup) (table q' sup) (.pair mode s t)
      (.pair mode s' t') := by
    have hsub : NamedPair (Flattened.PairedIf plain) (table q sup) (table q' sup) s s' :=
      ⟨r, r', hroot, hr.namedFrom, hr'.namedFrom⟩
    have hsup : NamedPair (Flattened.PairedIf plain) (table q sup) (table q' sup) t t' :=
      ⟨u, u', hsupRoot, hu.namedFrom, hu'.namedFrom⟩
    exact (sameAnswers_of_paired hn hn' hsub).unchanged hn hn' (sameAnswers_of_paired hn hn' hsup)
      hkind
  refine ⟨hkind, forall₂_visits (fun url => .inl ⟨rfl, fun _ => Iff.rfl⟩) ?_
    (hr.throughoutServices hr' (h.throughoutServices hnames hq hr.read hr'.read))
    (hu.throughoutServices hu' (Query.throughoutServices_pairedIf hsup hu.read hu'.read))
    (.inl hwhole)⟩
  rintro a a' b b' ⟨c, c', hpaired | hexposed, ha, ha'⟩ hb
  all_goals
    have hb := sameAnswers_of_paired hn hn' hb
  · have ha : NamedPair (Flattened.PairedIf plain) _ _ a a' := ⟨c, c', hpaired, ha, ha'⟩
    have ha := sameAnswers_of_paired hn hn' ha
    exact .inl (ha.unchanged hn hn' hb (ha.sameAnswer hb))
  · exact .inr (.pair ⟨c, c', hexposed, ha, ha'⟩ hb.answer)

theorem effective_of_projectsClauses (h : q.ProjectsClauses inner names q')
    (hnames : ∀ x, x ∈ names ↔ x ∈ inner.inScope) (mode : Multiplicity) :
    effective q' mode = effective q mode := by
  have hdrops : q'.dropsVariable = q.dropsVariable := h.pattern.dropsVariable hnames
  cases mode with
  | bagSet => rw [effective, effective, hdrops]
  | _ => rfl

/--
For any two queries that are read: if in the sub-query some clauses with the body `inner` have it in
a sub-select of the variables that are in scope there, then it is read as well and checked in the
same mode. What is asked about the queries as a whole is of the same kind, and so is what is asked
about the endpoints, one after the other, unless the variables of an endpoint are exposed. If all is
of the same kind, so is the verdict, for any solver that tells formulas with a model from those
without one, provided that names are plain.
-/
theorem projectsClauses_check (hreads : Reads q sup s t) (h : q.ProjectsClauses inner names q')
    (hnames : ∀ x, x ∈ names ↔ x ∈ inner.inScope) (hmode : mode ≠ .bag) :
    ∃ s' t' m, Reads q' sup s' t' ∧ effective q mode = .ok m ∧ effective q' mode = .ok m ∧
      compatible s t m = compatible s' t' m ∧
      List.Forall₂ (fun v v' => v.kind? = v'.kind? ∨
          v.Exposed inner names (table q sup) (table q' sup) v')
        (visits m s t) (visits m s' t') ∧
      ((visits m s t).map Visit.kind? = (visits m s' t').map Visit.kind? →
        q.pattern.PlainNames → sup.pattern.PlainNames →
        ∀ solver : Solver, solver.Decides → ∀ asked asked', ∃ v v',
          (CheckM.outcome (contained solver mode q sup) asked).1 = .ok v ∧
          (CheckM.outcome (contained solver mode q' sup) asked').1 = .ok v' ∧
          v.contained = v'.contained) := by
  have hbound : ∀ x ∈ inner.bound, x ∈ names :=
    fun x hx => (hnames x).2 (Pattern.mem_inScope_of_mem_bound hx)
  obtain ⟨⟨r, hr⟩, k, u, hu⟩ := hreads.exists_readAs
  obtain ⟨s', t', hreads'⟩ := exists_reads (h.exists_ofQuery hbound hr.read) ⟨u, hu.read⟩
  obtain ⟨m, hm⟩ := exists_effective hmode q
  have hm' : effective q' mode = .ok m := (effective_of_projectsClauses h hnames mode).trans hm
  have hleft : q.pattern.PlainNames ∧ sup.pattern.PlainNames → q.pattern.PlainNames := And.left
  obtain ⟨hkind, hvisits⟩ :=
    forall₂_visits_of_projectsClauses hreads hreads' h hbound hleft And.right m
  refine ⟨s', t', m, hreads', hm, hm', hkind, hvisits.imp fun v v' hv => hv.imp_left (·.kind),
    fun hkinds hq hsup solver hsolver asked asked' => ?_⟩
  have hmapping := forall_hasMapping_congr
    (hvisits.imp fun v v' hv => Visit.hasMapping_iff ⟨hq, hsup⟩ hv) hkinds
  obtain ⟨v, hv, hiff⟩ := hreads.contained_iff hsolver hm asked
  obtain ⟨v', hv', hiff'⟩ := hreads'.contained_iff hsolver hm' asked'
  exact ⟨v, v', hv, hv', by rw [Bool.eq_iff_iff, hiff, hiff', hmapping]⟩

/-- The values of two properties of a subject at an endpoint, asked for by two clauses. -/
def remoteValues (first : Pattern) : Query :=
  ⟨.select, .project (.join (.service (.iri "e") first)
    (.service (.iri "e") (.bgp [⟨.var "x", .iri "q", .var "z"⟩]))) ["x"], false⟩

/-- One of two clauses for an endpoint may have a sub-select. -/
theorem remoteValues_check : ∃ v v',
    (CheckM.outcome (contained .oracle .set (remoteValues (.bgp [⟨.var "x", .iri "p", .var "y"⟩]))
      remoteSubjects) []).1 = .ok v ∧
    (CheckM.outcome (contained .oracle .set (remoteValues
      (.project (.bgp [⟨.var "x", .iri "p", .var "y"⟩]) ["x", "y"])) remoteSubjects) []).1 =
        .ok v' ∧
    v.contained = v'.contained := by
  let inner : Pattern := .bgp [⟨.var "x", .iri "p", .var "y"⟩]
  have hclauses : (remoteValues inner).ProjectsClauses inner ["x", "y"]
      (remoteValues (.project inner ["x", "y"])) :=
    ⟨rfl, rfl, .project _ (.join (.clause "e") (.refl _))⟩
  obtain ⟨s, hs⟩ : ∃ s, (Naming.empty.readQuery (remoteValues inner)).1 = .ok s := ⟨_, rfl⟩
  obtain ⟨t, ht⟩ : ∃ t,
    ((Naming.empty.readQuery (remoteValues inner)).2.readQuery remoteSubjects).1 = .ok t := ⟨_, rfl⟩
  have hmode : Multiplicity.set ≠ .bag := by decide
  obtain ⟨s', t', m, hreads', hm, -, -, -, hverdict⟩ :=
    projectsClauses_check ⟨hs, ht⟩ hclauses (fun x => by simp [inner, Pattern.inScope,
      TriplePattern.vars, PatternTerm.vars, IriOrVar.vars]) hmode
  have hplain : (remoteValues inner).pattern.PlainNames := by
    unfold Pattern.PlainNames
    decide
  have hplain' : remoteSubjects.pattern.PlainNames := by
    unfold Pattern.PlainNames
    decide
  refine hverdict ?_ hplain hplain' .oracle Solver.decides_oracle [] []
  obtain rfl := Except.ok.inj hm
  obtain rfl := Except.ok.inj hs
  obtain rfl := Except.ok.inj ht
  obtain rfl := Except.ok.inj hreads'.sub
  obtain rfl := Except.ok.inj hreads'.sup
  decide

/-- The clause of `remoteSubjects` with a sub-select of all its variables. -/
def remoteSubjectsListed : Query :=
  ⟨.select, .project (.service (.iri "e")
    (.project (.bgp [⟨.var "x", .iri "p", .var "y"⟩]) ["x", "y"])) ["x"], false⟩

/-- A variable whose name is that of a hidden variable, if no other sub-select comes before. -/
def joinedByName (remote : Pattern) : Query :=
  ⟨.ask, .join (.service (.iri "e") remote) (.join (.bgp [⟨.iri "a", .iri "p", .var "z#sq0"⟩])
    (.project (.bgp [⟨.iri "a", .iri "q", .var "z"⟩]) [])), false⟩

/-- The same value of two properties, and an endpoint that is asked for nothing. -/
def joinedValues : Query :=
  ⟨.ask, .join (.service (.iri "e") (.bgp []))
    (.bgp [⟨.iri "a", .iri "p", .var "z"⟩, ⟨.iri "a", .iri "q", .var "z"⟩]), false⟩

def valueAtom (property value : String) : Atom Symbol :=
  ⟨⟨.iri, "a"⟩, ⟨.iri, property⟩, ⟨.var, value⟩, none⟩

def valuesRead (value value' : String) (other : List String) : ConjunctiveQuery Symbol :=
  ⟨[valueAtom "p" value, valueAtom "q" value'], [], other, [("e", ⟨[], [], [], []⟩)]⟩

theorem not_contained_remoteSubjectsListed : ∃ v,
    (CheckM.outcome (contained .oracle .set remoteSubjectsListed remoteSubjects) []).1 = .ok v ∧
      v.contained = false := by
  obtain ⟨s, hs⟩ : ∃ s, (Naming.empty.readQuery remoteSubjectsListed).1 = .ok s := ⟨_, rfl⟩
  obtain ⟨t, ht⟩ : ∃ t,
    ((Naming.empty.readQuery remoteSubjectsListed).2.readQuery remoteSubjects).1 = .ok t := ⟨_, rfl⟩
  have hreads : Reads remoteSubjectsListed remoteSubjects s t := ⟨hs, ht⟩
  obtain ⟨v, hv, hiff⟩ := hreads.contained_set_iff Solver.decides_oracle []
  refine ⟨v, hv, Bool.eq_false_iff.2 fun hc => ?_⟩
  have hkinds : (visits .set s t).map Visit.kind? = [some false, some true] := by
    obtain rfl := Except.ok.inj hs
    obtain rfl := Except.ok.inj ht
    decide
  obtain ⟨visit, hvisit, hkind⟩ : ∃ visit ∈ visits .set s t, visit.kind? = some false :=
    List.mem_map.1 (hkinds ▸ List.mem_cons_self)
  have hcompared := (hiff.1 hc visit hvisit).kind?
  rw [hkind] at hcompared
  cases hcompared

theorem contained_remoteSubjects : ∃ v,
    (CheckM.outcome (contained .oracle .set remoteSubjects remoteSubjects) []).1 = .ok v ∧
      v.contained := by
  obtain ⟨s, hs⟩ : ∃ s, (Naming.empty.readQuery remoteSubjects).1 = .ok s := ⟨_, rfl⟩
  obtain ⟨t, ht⟩ : ∃ t, ((Naming.empty.readQuery remoteSubjects).2.readQuery remoteSubjects).1 =
    .ok t := ⟨_, rfl⟩
  have hreads : Reads remoteSubjects remoteSubjects s t := ⟨hs, ht⟩
  have hflat : remoteSubjects.Flat := by
    refine ⟨?_, by decide⟩
    unfold Pattern.ProjectFree
    decide
  have hapart : remoteSubjects.pattern.BlanksApart := by
    unfold Pattern.BlanksApart
    decide
  have hnames := hflat.namesApart hapart
  obtain ⟨v, hv, hiff⟩ := hreads.contained_set_iff Solver.decides_oracle []
  obtain ⟨hsends, hsends', hwithin⟩ := hreads.sendsAtoms hflat hflat
  refine ⟨v, hv, hiff.2 ((forall_hasMapping_iff (sound_table _ _) hsends hsends').2
    ⟨hwithin.2 fun _ => id, ?_⟩)⟩
  exact (hreads.hasMapping_iff hnames hnames).2 fun D => subset_rfl

theorem contained_joinedByName : ∃ v,
    (CheckM.outcome (contained .oracle .set (joinedByName (.bgp [])) joinedValues) []).1 = .ok v ∧
      v.contained := by
  have hreads : Reads (joinedByName (.bgp [])) joinedValues (valuesRead "z_sq0" "z_sq0" ["z#sq0"])
      (valuesRead "z" "z" ["z"]) := ⟨rfl, rfl⟩
  obtain ⟨v, hv, hiff⟩ := hreads.contained_set_iff Solver.decides_oracle []
  let f (u : Symbol) : Symbol := if u.isVar then ⟨.var, "z_sq0"⟩ else u
  have hground (u : Symbol) (hu : u.isVar = false) : f u = u := by simp [f, hu]
  refine ⟨v, hv, hiff.2 fun visit hvisit => ?_⟩
  obtain rfl | rfl : visit = .pair .set ⟨[], [], [], []⟩ ⟨[], [], [], []⟩ ∨
      visit = .pair .set (valuesRead "z_sq0" "z_sq0" ["z#sq0"]) (valuesRead "z" "z" ["z"]) := by
    simpa [visits, endpointVisits, valuesRead, partners, lookupLast, Except.map] using hvisit
  · exact ⟨rfl, f, hground, by simp, by simp⟩
  · refine ⟨rfl, f, hground, by simp [valuesRead], ?_⟩
    simp [valuesRead, valueAtom, Atom.map, f, Symbol.isVar]

theorem not_contained_joinedByName : ∃ v,
    (CheckM.outcome (contained .oracle .set (joinedByName (.project (.bgp []) [])) joinedValues)
      []).1 = .ok v ∧ v.contained = false := by
  have hreads : Reads (joinedByName (.project (.bgp []) [])) joinedValues
      (valuesRead "z_sq0" "z_sq1" ["z#sq0"]) (valuesRead "z" "z" ["z"]) := ⟨rfl, rfl⟩
  obtain ⟨v, hv, hiff⟩ := hreads.contained_set_iff Solver.decides_oracle []
  refine ⟨v, hv, Bool.eq_false_iff.2 fun hc => ?_⟩
  obtain ⟨-, f, hf⟩ := ((forall_visits_iff Visit.not_hasMapping_missing).1 (hiff.1 hc)).2
  have hfirst := hf.atoms (valueAtom "p" "z") (by simp [valuesRead])
  have hsecond := hf.atoms (valueAtom "q" "z") (by simp [valuesRead])
  have hq : f ⟨.iri, "q"⟩ = ⟨.iri, "q"⟩ := hf.ground _ rfl
  have hp : f ⟨.iri, "p"⟩ = ⟨.iri, "p"⟩ := hf.ground _ rfl
  simp only [valuesRead, valueAtom, Atom.map, hp, hq, List.mem_cons, Atom.mk.injEq,
    Symbol.mk.injEq] at hfirst hsecond
  simp_all

/--
A sub-select of all variables in scope, put around the body of a clause, can change the kind of the
formula for an endpoint and with it the verdict: the queries for the endpoint are compared at first,
and then they are not. The verdict can also change where a name is that of a hidden variable.
-/
theorem projectsClauses_changes_verdict :
    (remoteSubjects.ProjectsClauses (.bgp [⟨.var "x", .iri "p", .var "y"⟩]) ["x", "y"]
        remoteSubjectsListed ∧
      (∀ x, x ∈ ["x", "y"] ↔ x ∈ Pattern.inScope (.bgp [⟨.var "x", .iri "p", .var "y"⟩])) ∧
      (∃ v, (CheckM.outcome (contained .oracle .set remoteSubjects remoteSubjects) []).1 = .ok v ∧
        v.contained) ∧
      ∃ v, (CheckM.outcome (contained .oracle .set remoteSubjectsListed remoteSubjects) []).1 =
        .ok v ∧ v.contained = false) ∧
    (joinedByName (.bgp [])).ProjectsClauses (.bgp []) [] (joinedByName (.project (.bgp []) [])) ∧
    (∃ v, (CheckM.outcome (contained .oracle .set (joinedByName (.bgp [])) joinedValues) []).1 =
      .ok v ∧ v.contained) ∧
    ∃ v, (CheckM.outcome (contained .oracle .set (joinedByName (.project (.bgp []) []))
      joinedValues) []).1 = .ok v ∧ v.contained = false := by
  refine ⟨⟨⟨rfl, rfl, .project _ (.clause "e")⟩, fun x => ?_, contained_remoteSubjects,
    not_contained_remoteSubjectsListed⟩, ⟨rfl, rfl, .join (.clause "e") (.refl _)⟩,
    contained_joinedByName, not_contained_joinedByName⟩
  simp [Pattern.inScope, TriplePattern.vars, PatternTerm.vars, IriOrVar.vars]

end Check

end QueryContainment
