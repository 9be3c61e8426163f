import QueryContainment.Proofs.Check.Evidence

namespace QueryContainment

namespace Check

section Lists

variable {α : Type} {url : String} {a : α} {l l' sub sup sup' : List (String × α)} {found : List α}

def IsLastFor (url : String) (l : List (String × α)) (service : String × α) : Prop :=
  service.1 = url ∧ ∃ before after, l = before ++ service :: after ∧ url ∉ after.map Prod.fst

/-- The pairs of services, in the order of the sub-query. -/
structure Pairs (sub sup : List (String × α)) (pairs : List ((String × α) × (String × α))) :
    Prop where
  /-- Each service of the sub-query is in one pair; if it is repeated, so is the pair. -/
  map_fst : pairs.map Prod.fst = sub
  last : ∀ pair ∈ pairs, IsLastFor pair.1.1 sup pair.2

/-- The services for the endpoints of the sub-query. -/
def addressedBy (sub sup : List (String × α)) : List (String × α) :=
  sup.filter fun e => e.1 ∈ sub.map Prod.fst

theorem lookupLast_eq_some_iff : lookupLast url l = some a ↔ IsLastFor url l (url, a) := by
  rw [lookupLast, List.lookup_eq_some_iff]
  constructor
  · rintro ⟨before, after, heq, hne⟩
    refine ⟨rfl, after.reverse, before.reverse, ?_, fun hmem => ?_⟩
    · rw [← List.reverse_reverse l, heq]
      simp
    · obtain ⟨e, he, rfl⟩ := List.mem_map.1 hmem
      simpa using hne e (List.mem_reverse.1 he)
  · rintro ⟨-, before, after, rfl, hlast⟩
    refine ⟨after.reverse, before.reverse, by simp, fun e he => ?_⟩
    have hmem : e.1 ∈ after.map Prod.fst := List.mem_map_of_mem (List.mem_reverse.1 he)
    exact bne_iff_ne.2 fun heq => hlast (heq ▸ hmem)

theorem lookupLast_eq_none_iff : lookupLast url l = none ↔ url ∉ l.map Prod.fst := by
  rw [lookupLast, List.lookup_eq_none_iff, List.mem_map]
  constructor
  · rintro h ⟨e, he, rfl⟩
    simpa using h e (List.mem_reverse.2 he)
  · exact fun h e he => bne_iff_ne.2 fun heq => h ⟨e, List.mem_reverse.1 he, heq.symm⟩

theorem IsLastFor.eq {service : String × α} (h : IsLastFor url l service) :
    lookupLast url l = some service.2 :=
  lookupLast_eq_some_iff.2 (h.1 ▸ h)

theorem partners_of_pairs {pairs : List ((String × α) × (String × α))} (h : Pairs sub sup pairs) :
    partners sub sup = .ok (pairs.map (·.2.2)) := by
  rw [← h.map_fst]
  exact partners_of_lookupLast fun pair hpair => (h.last pair hpair).eq

theorem exists_pairs (h : partners sub sup = .ok found) :
    ∃ pairs, Pairs sub sup pairs ∧ found = pairs.map (·.2.2) := by
  induction sub generalizing found with
  | nil =>
    obtain rfl := Except.ok.inj h
    exact ⟨[], ⟨rfl, List.forall_mem_nil _⟩, rfl⟩
  | cons e sub ih =>
    obtain ⟨partner, rest, hlast, hrest, rfl⟩ := of_partners_cons h
    obtain ⟨pairs, hpairs, rfl⟩ := ih hrest
    exact ⟨(e, e.1, partner) :: pairs, ⟨congrArg (e :: ·) hpairs.map_fst,
      List.forall_mem_cons.2 ⟨lookupLast_eq_some_iff.1 hlast, hpairs.last⟩⟩, rfl⟩

theorem partners_eq_error_iff : partners sub sup = .error url ↔ ∃ before a after,
    sub = before ++ (url, a) :: after ∧ (∀ e ∈ before, e.1 ∈ sup.map Prod.fst) ∧
      url ∉ sup.map Prod.fst := by
  constructor
  · intro h
    induction sub with
    | nil => cases h
    | cons e sub ih =>
      cases hlast : lookupLast e.1 sup with
      | none =>
        obtain rfl : e.1 = url := by simpa [partners, hlast] using h
        exact ⟨[], e.2, sub, rfl, List.forall_mem_nil _, lookupLast_eq_none_iff.1 hlast⟩
      | some partner =>
        have hrest : partners sub sup = .error url := by
          cases hrest : partners sub sup with
          | error first => simpa [partners, hlast, hrest, Except.map] using h
          | ok found => simp [partners, hlast, hrest, Except.map] at h
        obtain ⟨before, a, after, rfl, hbefore, hmissing⟩ := ih hrest
        have he : e.1 ∈ sup.map Prod.fst :=
          List.mem_map.2 ⟨_, mem_of_lookupLast hlast, rfl⟩
        exact ⟨e :: before, a, after, rfl, List.forall_mem_cons.2 ⟨he, hbefore⟩, hmissing⟩
  · rintro ⟨before, a, after, rfl, hbefore, hmissing⟩
    induction before with
    | nil => simp [partners, lookupLast_eq_none_iff.2 hmissing]
    | cons e before ih =>
      obtain ⟨he, hrest⟩ := List.forall_mem_cons.1 hbefore
      cases hlast : lookupLast e.1 sup with
      | none => exact absurd he (lookupLast_eq_none_iff.1 hlast)
      | some partner => simp [partners, hlast, ih hrest, Except.map]

theorem exists_partners_iff :
    (∃ found, partners sub sup = .ok found) ↔ ∀ e ∈ sub, e.1 ∈ sup.map Prod.fst := by
  constructor
  · rintro ⟨found, h⟩ e he
    obtain ⟨pairs, hpairs, -⟩ := exists_pairs h
    rw [← hpairs.map_fst] at he
    obtain ⟨pair, hpair, rfl⟩ := List.mem_map.1 he
    exact List.mem_map.2 ⟨_, mem_of_lookupLast (hpairs.last pair hpair).eq, rfl⟩
  · intro h
    cases hp : partners sub sup with
    | ok found => exact ⟨found, rfl⟩
    | error url =>
      obtain ⟨before, a, after, rfl, -, hmissing⟩ := partners_eq_error_iff.1 hp
      exact absurd (h _ (List.mem_append_right _ List.mem_cons_self)) hmissing

theorem lookup_filter_key {p : String → Bool} (h : p url = true) (l : List (String × α)) :
    (l.filter fun e => p e.1).lookup url = l.lookup url := by
  induction l with
  | nil => rfl
  | cons e l ih =>
    obtain ⟨url', a⟩ := e
    by_cases he : url = url'
    · subst he
      simp [h]
    · cases hp : p url' <;> simp [hp, List.lookup_cons, beq_false_of_ne he, ih]

theorem lookupLast_addressedBy (h : url ∈ sub.map Prod.fst) :
    lookupLast url (addressedBy sub sup) = lookupLast url sup := by
  rw [lookupLast, addressedBy, ← List.filter_reverse, lookupLast]
  exact lookup_filter_key (p := fun url => url ∈ sub.map Prod.fst) (decide_eq_true h) _

theorem partners_congr (h : ∀ e ∈ sub, lookupLast e.1 sup = lookupLast e.1 sup') :
    partners sub sup = partners sub sup' := by
  induction sub with
  | nil => rfl
  | cons e sub ih =>
    obtain ⟨he, hrest⟩ := List.forall_mem_cons.1 h
    rw [partners, partners, he, ih hrest]

theorem partners_of_addressedBy_eq (h : addressedBy sub sup' = addressedBy sub sup) :
    partners sub sup' = partners sub sup := by
  refine partners_congr fun e he => ?_
  have hurl : e.1 ∈ sub.map Prod.fst := List.mem_map_of_mem he
  rw [← lookupLast_addressedBy hurl, h, lookupLast_addressedBy hurl]

theorem Pairs.map_url {pairs : List ((String × α) × (String × α))} (h : Pairs sub sup pairs) :
    pairs.map (·.1.1) = sub.map Prod.fst ∧ pairs.map (·.2.1) = sub.map Prod.fst := by
  have hsub : pairs.map (·.1.1) = sub.map Prod.fst := by
    rw [← h.map_fst, List.map_map]
    rfl
  refine ⟨hsub, ?_⟩
  rw [← hsub]
  exact List.map_congr_left fun pair hpair => (h.last pair hpair).1

end Lists

theorem nodup_services_of_made {n : Naming} {calls : List Naming.Call}
    {part : ConjunctiveQuery Symbol} (h : part ∈ n.made calls) :
    (part.services.map Prod.fst).Nodup := by
  induction calls generalizing n with
  | nil => cases h
  | cons c calls ih =>
    rcases List.mem_append.1 h with hc | hrest
    · cases c with
      | term t => cases hc
      | scope => cases hc
      | pattern p =>
        cases hs : (n.readPattern p).1 with
        | error reason => simp [Naming.Call.made, hs, Except.toOption] at hc
        | ok s =>
          rw [Naming.Call.made, hs] at hc
          exact nodup_services_of_readPattern hs part hc
      | query q =>
        cases hs : (n.readQuery q).1 with
        | error reason => simp [Naming.Call.made, hs, Except.toOption] at hc
        | ok s =>
          rw [Naming.Call.made, hs] at hc
          exact nodup_services_of_readQuery hs part hc
    · exact ih hrest

theorem queries_of_addressedBy_eq (solver : Solver) (n : Naming) (mode : Multiplicity)
    {sub sup : ConjunctiveQuery Symbol} {services : List (String × ConjunctiveQuery Symbol)}
    (h : addressedBy sub.services services = addressedBy sub.services sup.services) :
    queries solver n mode sub { sup with services } = queries solver n mode sub sup := by
  obtain ⟨atoms, answer, other, subServices⟩ := sub
  obtain ⟨supAtoms, supAnswer, supOther, supServices⟩ := sup
  have hpartners : partners subServices services = partners subServices supServices :=
    partners_of_addressedBy_eq h
  rw [queries, queries, hpartners]
  cases mode <;> rfl

/--
Services are paired if and only if the super-query has one for each endpoint of the sub-query; each
service of the sub-query, in order and with repetitions, then has for partner the last one of the
super-query for its endpoint. Otherwise the endpoint of the first service without a partner is
reported. Services of the super-query for other endpoints change neither this nor the check as a
whole. No two pairs of queries that were made have a service in common, on either side.
-/
theorem partners_paired :
    (∀ {α : Type} (sub sup : List (String × α)),
      ((∃ found, partners sub sup = .ok found) ↔ ∀ e ∈ sub, e.1 ∈ sup.map Prod.fst) ∧
      (∀ found, partners sub sup = .ok found ↔
        ∃ pairs, Pairs sub sup pairs ∧ found = pairs.map (·.2.2)) ∧
      (∀ url, partners sub sup = .error url ↔ ∃ (before : List (String × α)) (a : α)
        (after : List (String × α)), sub = before ++ (url, a) :: after ∧
          (∀ e ∈ before, e.1 ∈ sup.map Prod.fst) ∧ url ∉ sup.map Prod.fst) ∧
      ∀ sup', addressedBy sub sup' = addressedBy sub sup → partners sub sup' = partners sub sup) ∧
    (∀ (n n' : Naming) (calls calls' : List Naming.Call) (s t : ConjunctiveQuery Symbol),
      s ∈ n.made calls → t ∈ n'.made calls' → ∀ pairs, Pairs s.services t.services pairs →
        (pairs.map (·.1.1)).Nodup ∧ (pairs.map (·.2.1)).Nodup) ∧
    ∀ (solver : Solver) (n : Naming) (mode : Multiplicity) (sub sup : ConjunctiveQuery Symbol)
      (services : List (String × ConjunctiveQuery Symbol)),
      addressedBy sub.services services = addressedBy sub.services sup.services →
        queries solver n mode sub { sup with services } = queries solver n mode sub sup := by
  refine ⟨fun sub sup => ⟨exists_partners_iff, fun found => ⟨exists_pairs, ?_⟩,
    fun url => partners_eq_error_iff, fun sup' => partners_of_addressedBy_eq⟩,
    fun n n' calls calls' s t hs _ pairs hpairs => ?_,
    fun solver n mode sub sup services => queries_of_addressedBy_eq solver n mode⟩
  · rintro ⟨pairs, hpairs, rfl⟩
    exact partners_of_pairs hpairs
  · obtain ⟨hsub, hsup⟩ := hpairs.map_url
    rw [hsub, hsup]
    exact ⟨nodup_services_of_made hs, nodup_services_of_made hs⟩

/-- Two endpoints, the second of which is addressed twice. -/
def doubledEndpoint : Query :=
  ⟨.ask, .join (.service (.iri "e") (.bgp []))
    (.join (.service (.iri "f") (.bgp [])) (.service (.iri "f") (.bgp []))), false⟩

/-- Three endpoints, the first of which is addressed inside a clause for the last. -/
def nestedEndpoint : Query :=
  ⟨.ask, .join (.service (.iri "f") (.bgp []))
    (.service (.iri "g") (.service (.iri "e") (.bgp []))), false⟩

theorem partners_paired_repeated :
    (∃ pairs, Pairs [("a", 1), ("b", 2), ("a", 3)]
      [("a", 10), ("b", 20), ("a", 30), ("c", 40)] pairs ∧ [30, 20, 30] = pairs.map (·.2.2)) ∧
    partners [("a", 1), ("b", 2), ("a", 3)] [("a", 10), ("b", 20), ("a", 30)] = .ok [30, 20, 30] ∧
    ∃ s t pairs, s ∈ Naming.empty.made [.query doubledEndpoint] ∧
      t ∈ Naming.empty.made [.query nestedEndpoint] ∧ Pairs s.services t.services pairs ∧
      pairs.map (·.1.1) = ["e", "f"] ∧ (pairs.map (·.2.1)).Nodup ∧
      ∀ solver n mode, queries solver n mode s
        { t with services := addressedBy s.services t.services } = queries solver n mode s t := by
  obtain ⟨s, hs, hurls⟩ : ∃ s, s ∈ Naming.empty.made [.query doubledEndpoint] ∧
      s.services.map Prod.fst = ["e", "f"] := ⟨_, List.mem_cons_self, rfl⟩
  obtain ⟨t, ht, hurls'⟩ : ∃ t, t ∈ Naming.empty.made [.query nestedEndpoint] ∧
      t.services.map Prod.fst = ["f", "g", "e"] := ⟨_, List.mem_cons_self, rfl⟩
  have hwithin : ∀ url ∈ s.services.map Prod.fst, url ∈ t.services.map Prod.fst := by
    rw [hurls, hurls']
    decide
  have haddressed : ∀ e ∈ s.services, e.1 ∈ t.services.map Prod.fst :=
    fun e he => hwithin e.1 (List.mem_map_of_mem he)
  obtain ⟨hlists, hmade, hcheck⟩ := partners_paired
  obtain ⟨found, hfound⟩ := (hlists s.services t.services).1.2 haddressed
  obtain ⟨pairs, hpairs, -⟩ := ((hlists s.services t.services).2.1 found).1 hfound
  refine ⟨((hlists _ _).2.1 _).1 rfl, ((hlists _ _).2.2.2 _ rfl).trans
    (rfl : partners [("a", 1), ("b", 2), ("a", 3)] [("a", 10), ("b", 20), ("a", 30), ("c", 40)] =
      .ok [30, 20, 30]), s, t, pairs, hs, ht, hpairs, hpairs.map_url.1.trans hurls,
    (hmade _ _ _ _ s t hs ht pairs hpairs).2, fun solver n mode => hcheck solver n mode s t _ ?_⟩
  simp [addressedBy]

end Check

end QueryContainment
