import QueryContainment.Proofs.Conjunctive.Occurrences
import QueryContainment.Proofs.Naming.Services

namespace QueryContainment

open Naming

namespace ConjunctiveQuery

variable {α β : Type}

/-- What a query sends to the last one of a chain of endpoints, each addressed by the one before. -/
inductive SentAlong : ConjunctiveQuery α → List String → ConjunctiveQuery α → Prop
  | self (q : ConjunctiveQuery α) : SentAlong q [] q
  | service {q s part : ConjunctiveQuery α} {url : String} {chain : List String}
    (service : (url, s) ∈ q.services) (rest : SentAlong s chain part) :
    SentAlong q (url :: chain) part

theorem sentAlong_map {f : α → β} {q : ConjunctiveQuery α} {chain : List String}
    {part : ConjunctiveQuery β} :
    (q.map f).SentAlong chain part ↔ ∃ r, q.SentAlong chain r ∧ part = r.map f := by
  induction chain generalizing q with
  | nil =>
    constructor
    · rintro ⟨⟩
      exact ⟨q, .self q, rfl⟩
    · rintro ⟨r, ⟨⟩, rfl⟩
      exact .self _
  | cons url chain ih =>
    constructor
    · rintro ⟨⟩
      next s hs h =>
      rw [services_map] at hs
      obtain ⟨⟨url', s'⟩, hs', he⟩ := List.mem_map.1 hs
      obtain ⟨rfl, rfl⟩ := Prod.mk.inj he
      obtain ⟨r, hr, rfl⟩ := ih.1 h
      exact ⟨r, .service hs' hr, rfl⟩
    · rintro ⟨r, h, rfl⟩
      cases h with
      | @service _ s _ _ _ hs h =>
        refine .service ?_ (ih.2 ⟨r, h, rfl⟩)
        rw [services_map]
        exact List.mem_map.2 ⟨_, hs, rfl⟩

/-- What is sent along a chain is one of the parts. -/
theorem SentAlong.mem_parts {q part : ConjunctiveQuery α} {chain : List String}
    (h : q.SentAlong chain part) : part ∈ q.parts := by
  induction h with
  | self q => exact q.self_mem_parts
  | service hs _ ih => exact mem_parts_of_service hs ih

end ConjunctiveQuery

namespace Flattened

variable {α : Type} {read : Nat → Pattern → Flattened α} {l : List (String × Pattern)}
  {k i j : Nat} {found : List (String × α)} {e : String × Pattern}

theorem services_cons_eq_ok (h : (services read k (e :: l)).result = .ok found) :
    ∃ q others, (read k e.2).result = .ok q ∧ found = (e.1, q) :: others ∧
      (services read (k + (read k e.2).scopes) l).result = .ok others := by
  simp only [services] at h
  cases hr : (read k e.2).result with
  | error reason => simp [hr] at h
  | ok q =>
    simp only [hr] at h
    cases ho : (services read (k + (read k e.2).scopes) l).result with
    | error reason => simp [ho, Except.map] at h
    | ok others => exact ⟨q, others, rfl, by simpa [ho, Except.map, eq_comm] using h, rfl⟩

theorem scopes_services_cons {q : α} (h : (read k e.2).result = .ok q)
    (l : List (String × Pattern)) : (services read k (e :: l)).scopes =
      (read k e.2).scopes + (services read (k + (read k e.2).scopes) l).scopes := by
  simp only [services, h]

theorem getElem?_services (h : (services read k l).result = .ok found) (he : l[i]? = some e) :
    ∃ q, found[i]? = some (e.1, q) ∧
      (read (k + (services read k (l.take i)).scopes) e.2).result = .ok q := by
  induction l generalizing k found i with
  | nil => simp at he
  | cons first l ih =>
    obtain ⟨q, others, hfirst, rfl, hothers⟩ := services_cons_eq_ok h
    cases i with
    | zero =>
      obtain rfl := Option.some.inj he
      exact ⟨q, rfl, hfirst⟩
    | succ i =>
      obtain ⟨r, hr, hread⟩ := ih hothers he
      refine ⟨r, hr, ?_⟩
      rwa [List.take_succ_cons, scopes_services_cons hfirst, ← Nat.add_assoc]

theorem scopes_services_take_le (h : (services read k l).result = .ok found)
    (he : l[i]? = some e) (hij : i < j) : (services read k (l.take i)).scopes +
      (read (k + (services read k (l.take i)).scopes) e.2).scopes ≤
        (services read k (l.take j)).scopes := by
  induction l generalizing k found i j with
  | nil => simp at he
  | cons first l ih =>
    obtain ⟨q, others, hfirst, rfl, hothers⟩ := services_cons_eq_ok h
    obtain ⟨j, rfl⟩ := Nat.exists_eq_succ_of_ne_zero (Nat.ne_zero_of_lt hij)
    rw [Nat.succ_eq_add_one, List.take_succ_cons, scopes_services_cons hfirst]
    cases i with
    | zero =>
      obtain rfl := Option.some.inj he
      simp [services]
    | succ i =>
      have hrest := ih hothers he (Nat.lt_of_succ_lt_succ hij)
      rw [List.take_succ_cons, scopes_services_cons hfirst, ← Nat.add_assoc k]
      omega

end Flattened

/-- What is read in one go: a pattern, and the names that its final projection lists. -/
structure Traversal where
  projection : Option (List String)
  body : Pattern

namespace Traversal

open Flattened Pattern

/-- The outermost projection of a pattern is the final one. -/
def ofPattern (p : Pattern) : Traversal := ⟨p.splitProjection.1, p.splitProjection.2⟩

/-- An `ASK` has no final projection. -/
def ofQuery (q : Query) : Traversal :=
  match q.form with
  | .ask => ⟨none, q.pattern⟩
  | _ => .ofPattern q.pattern

def next? (t : Traversal) (url : String) : Option Traversal :=
  if url ∈ t.body.endpointUrls then some (.ofPattern (joinAll (t.body.bodiesAt url))) else none

/-- The traversal for the last one of a chain of endpoints. -/
def along? : Traversal → List String → Option Traversal
  | t, [] => some t
  | t, url :: chain => (t.next? url).bind (·.along? chain)

/-- What is read when `k` scopes are open. -/
def read (t : Traversal) (k : Nat) : Flattened (ConjunctiveQuery Term) :=
  Flattened.body Flattened.ofPattern k t.projection t.body

def width (t : Traversal) : Nat := t.body.subSelectPlaces.length

/-- The endpoints whose turn comes before that of another one. -/
def before (t : Traversal) (url : String) : List (String × Pattern) :=
  t.body.endpoints.take ((Distinct.ofList t.body.endpointUrls).idxOf url)

def turn (t : Traversal) (k : Nat) (url : String) : Nat :=
  k + t.width + (services Flattened.ofPattern (k + t.width) (t.before url)).scopes

/-- How many scopes are open when it is the turn of the last one of a chain of endpoints. -/
def start : Traversal → Nat → List String → Nat
  | _, k, [] => k
  | t, k, url :: chain => ((t.next? url).map (·.start (t.turn k url) chain)).getD k

variable {t t' : Traversal} {k : Nat} {url url' : String} {chain chain' : List String}
  {r s part : ConjunctiveQuery Term}

theorem read_ofPattern (p : Pattern) (k : Nat) :
    (Traversal.ofPattern p).read k = Flattened.ofPattern k p := (ofPattern_eq k p).symm

theorem read_ofQuery {q : Query} (h : (Flattened.ofQuery k q).result = .ok r) :
    (Traversal.ofQuery q).read k = Flattened.ofQuery k q := by
  obtain ⟨form, p, hasDataset⟩ := q
  cases form with
  | select =>
    cases hasDataset with
    | true => simp [Flattened.ofQuery] at h
    | false => exact read_ofPattern p k
  | ask =>
    cases hasDataset with
    | true => simp [Flattened.ofQuery] at h
    | false => exact (ofAsk_eq k p).symm
  | construct => simp [Flattened.ofQuery] at h
  | describe => simp [Flattened.ofQuery] at h

theorem wellDrawn_read (t : Traversal) (k : Nat) : (t.read k).WellDrawn :=
  wellDrawn_body fun e _ j => wellDrawn_ofPattern j e.2

/-- What a traversal comes to: its own atoms and variables, and what is read for its endpoints. -/
theorem of_read (h : (t.read k).result = .ok r) : t.body.Readable ∧
    r.atoms = (t.body.steps .root k).filterMap Step.atom? ∧
    (services Flattened.ofPattern (k + t.width) t.body.endpoints).result = .ok r.services ∧
    (t.read k).scopes =
      t.width + (services Flattened.ofPattern (k + t.width) t.body.endpoints).scopes := by
  have hp : t.body.Readable := readable_of_body h
  have hscopes : Step.scopes (t.body.steps .root k) = t.width := hp.scopes_steps .root k
  obtain ⟨hnone, found, hfound, rfl⟩ := body_result h
  rw [hscopes, endpoints_steps] at hfound
  refine ⟨hp, rfl, hfound, ?_⟩
  rw [read, body_eq Flattened.ofPattern k t.projection hnone, hscopes, endpoints_steps]

theorem getElem?_endpoints (hp : t.body.Readable) (i : Nat) : t.body.endpoints[i]? =
    (Distinct.ofList t.body.endpointUrls)[i]?.map fun url =>
      (url, joinAll (t.body.bodiesAt url)) := by
  rw [hp.endpoints_eq_map, List.getElem?_map]

theorem next?_eq_some_iff : t.next? url = some t' ↔
    url ∈ t.body.endpointUrls ∧ t' = .ofPattern (joinAll (t.body.bodiesAt url)) := by
  unfold next?
  split <;> simp_all [eq_comm]

theorem getElem?_idxOf_endpoints (hp : t.body.Readable) (h : url ∈ t.body.endpointUrls) :
    t.body.endpoints[(Distinct.ofList t.body.endpointUrls).idxOf url]? =
      some (url, joinAll (t.body.bodiesAt url)) := by
  rw [getElem?_endpoints hp, List.getElem?_idxOf (Distinct.mem_ofList.2 h)]
  rfl

theorem exists_service (h : (t.read k).result = .ok r) (hnext : t.next? url = some t') :
    ∃ s, (url, s) ∈ r.services ∧ (t'.read (t.turn k url)).result = .ok s := by
  obtain ⟨hp, -, hservices, -⟩ := of_read h
  obtain ⟨hurl, rfl⟩ := next?_eq_some_iff.1 hnext
  obtain ⟨s, hs, hread⟩ := getElem?_services hservices (getElem?_idxOf_endpoints hp hurl)
  exact ⟨s, List.mem_of_getElem? hs, by rwa [read_ofPattern]⟩

theorem mem_services_iff (h : (t.read k).result = .ok r) : (url, s) ∈ r.services ↔
    ∃ t', t.next? url = some t' ∧ (t'.read (t.turn k url)).result = .ok s := by
  obtain ⟨hp, -, hservices, -⟩ := of_read h
  have hkeys : r.services.map Prod.fst = Distinct.ofList t.body.endpointUrls := by
    rw [map_fst_services hservices, hp.endpoints_eq_map, List.map_map]
    exact List.map_id _
  constructor
  · intro hmem
    have hurl : url ∈ t.body.endpointUrls := by
      rw [← Distinct.mem_ofList, ← hkeys]
      exact List.mem_map_of_mem hmem
    have hnext := next?_eq_some_iff.2 ⟨hurl, rfl⟩
    obtain ⟨s', hs', hread⟩ := exists_service h hnext
    -- no endpoint has two services
    have hnodup : (r.services.map Prod.fst).Nodup := hkeys ▸ Distinct.nodup_ofList _
    obtain ⟨-, rfl⟩ := Prod.mk.inj (Distinct.eq_of_nodup_map hnodup hmem hs' rfl)
    exact ⟨_, hnext, hread⟩
  · rintro ⟨t', hnext, hread⟩
    obtain ⟨s', hs', hread'⟩ := exists_service h hnext
    rwa [Except.ok.inj (hread.symm.trans hread')]

theorem start_cons (h : t.next? url = some t') :
    t.start k (url :: chain) = t'.start (t.turn k url) chain := by
  rw [start, h, Option.map_some, Option.getD_some]

/-- There is a query for each chain of endpoints that clauses address. -/
theorem exists_sentAlong (h : (t.read k).result = .ok r) (ht' : t.along? chain = some t') :
    ∃ part, r.SentAlong chain part ∧ (t'.read (t.start k chain)).result = .ok part := by
  induction chain generalizing t k r with
  | nil =>
    obtain rfl := Option.some.inj ht'
    exact ⟨r, .self r, h⟩
  | cons url chain ih =>
    obtain ⟨next, hnext, ht'⟩ := Option.bind_eq_some_iff.1 ht'
    obtain ⟨s, hs, hread⟩ := exists_service h hnext
    obtain ⟨part, hpart, hread'⟩ := ih hread ht'
    exact ⟨part, .service hs hpart, by rwa [start_cons hnext]⟩

/-- What is sent along a chain is what is read in the traversal for that chain. -/
theorem exists_along?_of_sentAlong (h : (t.read k).result = .ok r)
    (hpart : r.SentAlong chain part) :
    ∃ t', t.along? chain = some t' ∧ (t'.read (t.start k chain)).result = .ok part := by
  induction chain generalizing t k r with
  | nil =>
    cases hpart
    exact ⟨t, rfl, h⟩
  | cons url chain ih =>
    cases hpart with
    | service hs hrest =>
      obtain ⟨next, hnext, hread⟩ := (mem_services_iff h).1 hs
      obtain ⟨t', ht', hpart⟩ := ih hread hrest
      exact ⟨t', by rw [along?, hnext, Option.bind_some, ht'], by rwa [start_cons hnext]⟩

/-- An atom stands for a triple of the pattern, with its terms resolved. -/
theorem exists_placed (h : (t.read k).result = .ok r) {i : Nat} {a : Atom Term}
    (ha : r.atoms[i]? = some a) : ∃ place triple terms,
      t.body.placedTriples[i]? = some (place, triple) ∧ triple.terms = .ok terms ∧
        a.triple = terms.map (t.body.resolved .root k place) := by
  obtain ⟨hp, hatoms, -, -⟩ := of_read h
  have hget := congrArg (·[i]?) (hp.triples_steps .root k)
  simp only [← hatoms, List.getElem?_map, ha, Option.map_some] at hget
  obtain ⟨⟨place, triple⟩, hplaced, hresolved⟩ := Option.map_eq_some_iff.1 hget.symm
  obtain ⟨terms, hterms, heq⟩ := Option.map_eq_some_iff.1 hresolved
  cases hok : triple.terms with
  | error reason => simp [hok, Except.toOption] at hterms
  | ok terms' =>
    simp only [hok, Except.toOption, Option.some.injEq] at hterms
    subst hterms
    exact ⟨place, triple, terms', hplaced, hok, heq.symm⟩

/-- Each triple of the pattern that has terms has an atom. -/
theorem exists_atom (h : (t.read k).result = .ok r) {i : Nat} {e : Place × TriplePattern}
    (he : t.body.placedTriples[i]? = some e) : ∃ a, r.atoms[i]? = some a := by
  obtain ⟨hp, hatoms, -, -⟩ := of_read h
  have hget := congrArg (·[i]?) (hp.triples_steps .root k)
  simp only [← hatoms, List.getElem?_map, he, Option.map_some] at hget
  obtain ⟨a, ha, -⟩ := Option.map_eq_some_iff.1 hget
  exact ⟨a, ha⟩

theorem width_le (h : (t.read k).result = .ok r) : t.width ≤ (t.read k).scopes := by
  obtain ⟨-, -, -, hscopes⟩ := of_read h
  omega

theorem le_turn (t : Traversal) (k : Nat) (url : String) : k + t.width ≤ t.turn k url :=
  Nat.le_add_right ..

theorem le_start (t : Traversal) (k : Nat) (chain : List String) : k ≤ t.start k chain := by
  induction chain generalizing t k with
  | nil => exact Nat.le_refl k
  | cons url chain ih =>
    cases hnext : t.next? url with
    | none => simp [start, hnext]
    | some next =>
      rw [start_cons hnext]
      have hturn := t.le_turn k url
      have hstart := ih next (t.turn k url)
      omega

theorem turn_add_le (h : (t.read k).result = .ok r) (hnext : t.next? url = some t')
    (hlt : (Distinct.ofList t.body.endpointUrls).idxOf url <
      (Distinct.ofList t.body.endpointUrls).idxOf url') :
    t.turn k url + (t'.read (t.turn k url)).scopes ≤ t.turn k url' := by
  obtain ⟨hp, -, hservices, -⟩ := of_read h
  obtain ⟨hurl, rfl⟩ := next?_eq_some_iff.1 hnext
  have hle := scopes_services_take_le hservices (getElem?_idxOf_endpoints hp hurl) hlt
  rw [← read_ofPattern] at hle
  calc t.turn k url + _
      ≤ k + t.width + _ := by
        rw [turn, Nat.add_assoc]
        exact Nat.add_le_add_left hle _
    _ = t.turn k url' := rfl

theorem turn_add_le_scopes (h : (t.read k).result = .ok r) (hnext : t.next? url = some t') :
    t.turn k url + (t'.read (t.turn k url)).scopes ≤ k + (t.read k).scopes := by
  obtain ⟨hp, -, hservices, hscopes⟩ := of_read h
  obtain ⟨hurl, rfl⟩ := next?_eq_some_iff.1 hnext
  have hget := getElem?_idxOf_endpoints hp hurl
  have hle := scopes_services_take_le hservices hget (List.getElem?_eq_some_iff.1 hget).1
  rw [List.take_length, ← read_ofPattern] at hle
  rw [hscopes, ← Nat.add_assoc, turn, Nat.add_assoc (k + t.width)]
  exact Nat.add_le_add_left hle _

theorem start_add_width_le (h : (t.read k).result = .ok r) (ht' : t.along? chain = some t') :
    t.start k chain + t'.width ≤ k + (t.read k).scopes := by
  induction chain generalizing t k r with
  | nil =>
    obtain rfl := Option.some.inj ht'
    exact Nat.add_le_add_left (width_le h) k
  | cons url chain ih =>
    obtain ⟨next, hnext, ht'⟩ := Option.bind_eq_some_iff.1 ht'
    obtain ⟨s, -, hread⟩ := exists_service h hnext
    rw [start_cons hnext]
    exact (ih hread ht').trans (turn_add_le_scopes h hnext)

/-- No two traversals open the same scope. -/
theorem start_add_width_le_or (h : (t.read k).result = .ok r) {t₁ t₂ : Traversal}
    (h₁ : t.along? chain = some t₁) (h₂ : t.along? chain' = some t₂) (hne : chain ≠ chain') :
    t.start k chain + t₁.width ≤ t.start k chain' ∨
      t.start k chain' + t₂.width ≤ t.start k chain := by
  induction chain generalizing t k r chain' with
  | nil =>
    cases chain' with
    | nil => exact absurd rfl hne
    | cons url' chain' =>
      obtain rfl := Option.some.inj h₁
      obtain ⟨next, hnext, -⟩ := Option.bind_eq_some_iff.1 h₂
      have hturn := t.le_turn k url'
      have hstart := next.le_start (t.turn k url') chain'
      rw [start_cons hnext, start]
      omega
  | cons url chain ih =>
    obtain ⟨next, hnext, h₁⟩ := Option.bind_eq_some_iff.1 h₁
    cases chain' with
    | nil =>
      obtain rfl := Option.some.inj h₂
      have hturn := t.le_turn k url
      have hstart := next.le_start (t.turn k url) chain
      rw [start_cons hnext, start]
      omega
    | cons url' chain' =>
      obtain ⟨next', hnext', h₂⟩ := Option.bind_eq_some_iff.1 h₂
      obtain ⟨s, -, hread⟩ := exists_service h hnext
      obtain ⟨s', -, hread'⟩ := exists_service h hnext'
      have hlast := start_add_width_le hread h₁
      have hlast' := start_add_width_le hread' h₂
      have hfirst := next.le_start (t.turn k url) chain
      have hfirst' := next'.le_start (t.turn k url') chain'
      rw [start_cons hnext, start_cons hnext']
      have hmem : url ∈ Distinct.ofList t.body.endpointUrls :=
        Distinct.mem_ofList.2 (next?_eq_some_iff.1 hnext).1
      rcases Nat.lt_trichotomy ((Distinct.ofList t.body.endpointUrls).idxOf url)
        ((Distinct.ofList t.body.endpointUrls).idxOf url') with hlt | heq | hlt
      · have hturn := turn_add_le h hnext hlt
        omega
      · obtain rfl := (List.idxOf_inj hmem).1 heq
        obtain rfl := Option.some.inj (hnext.symm.trans hnext')
        exact ih hread h₁ h₂ fun he => hne (congrArg _ he)
      · have hturn := turn_add_le h hnext' hlt
        omega

end Traversal

end QueryContainment
