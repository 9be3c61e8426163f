import QueryContainment.Proofs.Check.Evidence
import QueryContainment.Proofs.Check.SideBySide
import QueryContainment.Proofs.Conjunctive.ProjectedClause

namespace QueryContainment

open Naming ConjunctiveQuery

namespace Check

variable {solver : Solver} {n n' n₁ n₂ n₃ : Naming} {q : Query}
  {s s' t t' : ConjunctiveQuery Symbol}

def Covers (n : Naming) (s t : ConjunctiveQuery Symbol) : Prop :=
  ∀ visit ∈ visits .set s t, visit.HasMapping n

theorem covers_iff : Covers n s t ↔
    (∀ e ∈ s.services, ∃ p, lookupLast e.1 t.services = some p ∧ Covers n e.2 p) ∧
      (Visit.pair .set s t).HasMapping n :=
  forall_visits_iff Visit.not_hasMapping_missing

theorem hasMapping_set_iff (hn : n.Sound) (hs : s.NamedBy n) (ht : t.NamedBy n) :
    (Visit.pair .set s t).HasMapping n ↔ ∀ D, s.answers n D ⊆ t.answers n D :=
  (answers_subset_iff_mapped hn hs ht).symm

theorem exists_partner {N : ConjunctiveQuery Symbol → ConjunctiveQuery Symbol → Prop}
    (h : Throughout N s s') {url : String} {p : ConjunctiveQuery Symbol}
    (hp : lookupLast url s.services = some p) :
    ∃ p', lookupLast url s'.services = some p' ∧ Throughout N p p' := by
  have hrel := rel_lookup (List.forall₂_reverse_iff.2 (throughout_iff.1 h).2) url
  rw [show s.services.reverse.lookup url = some p from hp] at hrel
  cases hp' : s'.services.reverse.lookup url with
  | none =>
    rw [hp'] at hrel
    cases hrel
  | some p' =>
    rw [hp'] at hrel
    cases hrel with
    | some hpp => exact ⟨p', hp', hpp⟩

/--
Two steps of containment make one. The sub-query of the one, the queries in the middle and the
super-query of the other one may be named by different tables, as long as their answers are the
same.
-/
theorem Covers.trans (hn₁ : n₁.Sound) (hn₂ : n₂.Sound) (hn₃ : n₃.Sound)
    {a a' b b' c c' : ConjunctiveQuery Symbol} (ha : Throughout (SameAnswers True n₃ n₁) a' a)
    (hb : Throughout (SameAnswers True n₁ n₂) b b') (hc : Throughout (SameAnswers True n₂ n₃) c c')
    (hab : Covers n₁ a b) (hbc : Covers n₂ b' c) : Covers n₃ a' c' := by
  induction a' using services_induction generalizing a b b' c c' with
  | h a' ih =>
    obtain ⟨hendpoints, hmapped⟩ := covers_iff.1 hab
    obtain ⟨hendpoints', hmapped'⟩ := covers_iff.1 hbc
    obtain ⟨hsa, hservices⟩ := throughout_iff.1 ha
    have hsb := (throughout_iff.1 hb).1
    have hsc := (throughout_iff.1 hc).1
    refine covers_iff.2 ⟨fun e he => ?_, ?_⟩
    · obtain ⟨e₁, he₁, hurl, hae⟩ := exists_of_mem_forall₂ hservices he
      obtain ⟨p, hp, hcovers⟩ := hendpoints e₁ he₁
      obtain ⟨p', hp', hpp⟩ := exists_partner hb hp
      obtain ⟨r, hr, hcovers'⟩ := hendpoints' _ (mem_of_lookupLast hp')
      obtain ⟨r', hr', hrr⟩ := exists_partner hc hr
      exact ⟨r', hurl ▸ hr', ih e he hae hpp hrr hcovers hcovers'⟩
    · rw [hasMapping_set_iff hn₁ hsa.right hsb.left] at hmapped
      rw [hasMapping_set_iff hn₂ hsb.right hsc.left] at hmapped'
      rw [hasMapping_set_iff hn₃ hsa.left hsc.right]
      intro D
      calc a'.answers n₃ D = a.answers n₁ D := hsa.answers trivial D
        _ ⊆ b.answers n₁ D := hmapped D
        _ = b'.answers n₂ D := hsb.answers trivial D
        _ ⊆ c.answers n₂ D := hmapped' D
        _ = c'.answers n₃ D := hsc.answers trivial D

theorem ReadAs.throughout {N : ConjunctiveQuery Term → ConjunctiveQuery Term → Prop} {k k' : Nat}
    {q q' : Query} {r r' : ConjunctiveQuery Term} (h : ReadAs n k q r s)
    (h' : ReadAs n' k' q' r' s') (hN : Throughout N r r') : Throughout (NamedPair N n n') s s' := by
  obtain ⟨hroot, hservices⟩ := throughout_iff.1 hN
  exact throughout_iff.2 ⟨⟨r, r', hroot, h.namedFrom, h'.namedFrom⟩,
    throughoutServices_iff.1 (h.throughoutServices h' (throughoutServices_iff.2 hservices))⟩

theorem ReadAs.sameAnswers (hn : n.Sound) (hn' : n'.Sound) (hq : q.pattern.PlainNames)
    {k k' : Nat} {r r' : ConjunctiveQuery Term} (h : ReadAs n k q r s) (h' : ReadAs n' k' q r' s') :
    Throughout (SameAnswers True n n') s s' := by
  have hpaired : Throughout (Flattened.PairedIf True) r r' :=
    Query.throughout_pairedIf (fun _ => hq) h.read h'.read
  exact (h.throughout h' hpaired).imp_mem fun _ _ _ _ hpair => sameAnswers_of_paired hn hn' hpair

variable {a b c : Query} {asked asked' : List String} {v w : Verdict}

theorem covers_of_contained (hsolver : solver.Decides)
    (h : (CheckM.outcome (contained solver .set a b) asked).1 = .ok v) (hv : v.contained) :
    ∃ s t, Reads a b s t ∧ Covers (table a b) s t := by
  have hrun : CheckM.outcome (contained solver .set a b) asked = (.ok v, _) := Prod.ext h rfl
  obtain ⟨s, t, -, hreads, -⟩ := reads_of_contained hrun
  obtain ⟨v', hv', hiff⟩ := hreads.contained_set_iff hsolver asked
  obtain rfl := Except.ok.inj (h.symm.trans hv')
  exact ⟨s, t, hreads, hiff.1 hv⟩

theorem Reads.exists_positive (hsolver : solver.Decides) (hreads : Reads a b s t)
    (hcovers : Covers (table a b) s t) (asked : List String) : ∃ v,
      (CheckM.outcome (contained solver .set a b) asked).1 = .ok v ∧ v.Throughout Positive s t := by
  obtain ⟨v, hv, hiff⟩ := hreads.contained_set_iff hsolver asked
  have hrun : CheckM.outcome (contained solver .set a b) asked = (.ok v, _) := Prod.ext hv rfl
  rw [outcome_contained_set hreads] at hrun
  obtain ⟨new, -, -, hconsistent⟩ := accounted_of_outcome hreads.nodup_services hrun
  exact ⟨v, hv, throughout_positive hconsistent (hiff.2 hcovers)⟩

/-- Two containments of queries that are read make one, whichever tables they are read with. -/
theorem Reads.exists_covers {s₁ t₁ s₂ t₂ : ConjunctiveQuery Symbol} (ha : a.pattern.PlainNames)
    (hb : b.pattern.PlainNames) (hc : c.pattern.PlainNames) (hreads₁ : Reads a b s₁ t₁)
    (hcovers₁ : Covers (table a b) s₁ t₁) (hreads₂ : Reads b c s₂ t₂)
    (hcovers₂ : Covers (table b c) s₂ t₂) : ∃ s t, Reads a c s t ∧ Covers (table a c) s t := by
  obtain ⟨⟨_, ha₁⟩, _, _, hb₁⟩ := hreads₁.exists_readAs
  obtain ⟨⟨_, hb₂⟩, _, _, hc₂⟩ := hreads₂.exists_readAs
  obtain ⟨s, t, hreads⟩ := exists_reads ⟨_, ha₁.read⟩ ⟨_, hc₂.read⟩
  obtain ⟨⟨_, ha₃⟩, _, _, hc₃⟩ := hreads.exists_readAs
  have hn₁ := sound_table a b
  have hn₂ := sound_table b c
  have hn₃ := sound_table a c
  -- each query has been read in two of the checks, with the same answers
  exact ⟨s, t, hreads, Covers.trans hn₁ hn₂ hn₃ (ha₃.sameAnswers hn₃ hn₁ ha ha₁)
    (hb₁.sameAnswers hn₁ hn₂ hb hb₂) (hc₂.sameAnswers hn₂ hn₃ hc hc₃) hcovers₁ hcovers₂⟩

/--
For any three queries and any solver that tells formulas with a model from those without one,
whatever it was asked before: if two checks of sets of solutions find the first query contained in
the second one and the second one in the third, the check of the first and the third query ends with
a positive verdict. So do the checks of all its endpoints, at every depth, one for each service.
-/
theorem contained_trans (hsolver : solver.Decides) (ha : a.pattern.PlainNames)
    (hb : b.pattern.PlainNames) (hc : c.pattern.PlainNames)
    (hab : (CheckM.outcome (contained solver .set a b) asked).1 = .ok v) (hv : v.contained)
    (hbc : (CheckM.outcome (contained solver .set b c) asked').1 = .ok w) (hw : w.contained)
    (asked'' : List String) : ∃ u,
      (CheckM.outcome (contained solver .set a c) asked'').1 = .ok u ∧ u.contained ∧
      (∀ node ∈ u.nodes, node.contained) ∧
      ∃ s t, Reads a c s t ∧ u.Throughout Positive s t := by
  obtain ⟨s₁, t₁, hreads₁, hcovers₁⟩ := covers_of_contained hsolver hab hv
  obtain ⟨s₂, t₂, hreads₂, hcovers₂⟩ := covers_of_contained hsolver hbc hw
  obtain ⟨s₃, t₃, hreads₃, hcovers₃⟩ :=
    hreads₁.exists_covers ha hb hc hcovers₁ hreads₂ hcovers₂
  obtain ⟨u, hu, hpositive⟩ := hreads₃.exists_positive hsolver hcovers₃ asked''
  refine ⟨u, hu, (Verdict.throughout_iff.1 hpositive).1.1, fun node hnode => ?_,
    s₃, t₃, hreads₃, hpositive⟩
  obtain ⟨_, _, hcontained, -⟩ := hpositive.exists_of_mem_nodes node hnode
  exact hcontained

def Visit.isWithin : Visit → Bool
  | pair mode s t => compatible s t mode && t.atoms.all (s.atoms.contains ·)
  | missing _ => false

theorem Visit.hasMapping_of_isWithin {visit : Visit} (h : visit.isWithin) :
    visit.HasMapping n := by
  cases visit with
  | missing url => cases h
  | pair mode s t =>
    simp only [isWithin, Bool.and_eq_true, List.all_eq_true, List.contains_iff_mem] at h
    refine ⟨h.1, id, fun _ _ => rfl, fun _ _ => rfl, fun atom hatom => ?_⟩
    have hid : atom.map id = atom := by
      cases atom
      simp [Atom.map]
    rw [hid]
    exact h.2 atom hatom

def isWithin (a b : Query) : Bool :=
  match (Naming.empty.readQuery a).1, ((Naming.empty.readQuery a).2.readQuery b).1 with
  | .ok s, .ok t => (visits .set s t).all Visit.isWithin
  | _, _ => false

theorem contained_of_isWithin (h : isWithin a b) : ∃ v,
    (CheckM.outcome (contained .oracle .set a b) []).1 = .ok v ∧ v.contained := by
  unfold isWithin at h
  split at h
  · next s t hs ht =>
    have hreads : Reads a b s t := ⟨hs, ht⟩
    obtain ⟨v, hv, hiff⟩ := hreads.contained_set_iff Solver.decides_oracle []
    exact ⟨v, hv, hiff.2 fun visit hvisit =>
      Visit.hasMapping_of_isWithin (List.all_eq_true.1 h visit hvisit)⟩
  · cases h

def nestedPaths : Pattern :=
  .service (.iri "e") (.join (.bgp [⟨.var "x", .iri "p", .var "y"⟩])
    (.service (.iri "f") (.bgp [⟨.var "y", .iri "p", .var "z"⟩])))

def pathStarts : Query := ⟨.select, .distinct (.project nestedPaths ["x"]), false⟩

/-- Those that have a value here. -/
def valuedStarts : Query :=
  ⟨.select, .project (.join nestedPaths (.bgp [⟨.var "x", .iri "q", .var "v"⟩])) ["x"], false⟩

/-- Those that have another value as well, which a sub-select hides. -/
def doublyValuedStarts : Query :=
  ⟨.select, .project (.join (.join nestedPaths (.bgp [⟨.var "x", .iri "q", .var "v"⟩]))
    (.project (.bgp [⟨.var "x", .iri "r", .var "v"⟩]) ["x"])) ["x"], false⟩

theorem contained_trans_starts : ∃ u,
    (CheckM.outcome (contained .oracle .set doublyValuedStarts pathStarts) ["asked"]).1 = .ok u ∧
      u.contained ∧ ∃ s t, Reads doublyValuedStarts pathStarts s t ∧
        u.Throughout Positive s t := by
  have hwithin : isWithin doublyValuedStarts valuedStarts ∧ isWithin valuedStarts pathStarts := by
    decide +kernel
  obtain ⟨v, hab, hv⟩ := contained_of_isWithin hwithin.1
  obtain ⟨w, hbc, hw⟩ := contained_of_isWithin hwithin.2
  have ha : doublyValuedStarts.pattern.PlainNames := by
    unfold Pattern.PlainNames
    decide
  have hb : valuedStarts.pattern.PlainNames := by
    unfold Pattern.PlainNames
    decide
  have hc : pathStarts.pattern.PlainNames := by
    unfold Pattern.PlainNames
    decide
  obtain ⟨u, hu, hpositive, -, hnodes⟩ :=
    contained_trans Solver.decides_oracle ha hb hc hab hv hbc hw ["asked"]
  exact ⟨u, hu, hpositive, hnodes⟩

end Check

end QueryContainment
