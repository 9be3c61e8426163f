import QueryContainment.Proofs.Conjunctive.Throughout
import QueryContainment.Proofs.Naming.Run

namespace QueryContainment

open Naming

theorem Distinct.ofList_append_singleton {α : Type} [DecidableEq α] (l : List α) (a : α) :
    ofList (l ++ [a]) = add (ofList l) a := addAll_append [] l [a]

/-- The elements come in the order of their first occurrences. -/
theorem Distinct.pairwise_idxOf_ofList {α : Type} [DecidableEq α] (l : List α) :
    (ofList l).Pairwise fun a b => l.idxOf a < l.idxOf b := by
  induction l using List.reverseRecOn with
  | nil => exact .nil
  | append_singleton l a ih =>
    -- what occurs already has its first occurrence where it was
    have hkept {b : α} (hb : b ∈ ofList l) : (l ++ [a]).idxOf b = l.idxOf b :=
      List.idxOf_append_of_mem (mem_ofList.1 hb)
    have hbefore : (ofList l).Pairwise fun b c => (l ++ [a]).idxOf b < (l ++ [a]).idxOf c :=
      ih.imp_of_mem fun hb hc h => by rwa [hkept hb, hkept hc]
    rw [ofList_append_singleton, add]
    split
    · exact hbefore
    · next ha =>
      refine List.pairwise_append.2 ⟨hbefore, List.pairwise_singleton _ _, fun b hb c hc => ?_⟩
      obtain rfl := List.mem_singleton.1 hc
      have hlast : (l ++ [c]).idxOf c = l.length := by
        rw [List.idxOf_append_of_notMem fun hmem => ha (mem_ofList.2 hmem)]
        simp
      rw [hkept hb, hlast]
      exact List.idxOf_lt_length_of_mem (mem_ofList.1 hb)

namespace Pattern

variable {p : Pattern}

def bodiesAt (p : Pattern) (url : String) : List Pattern :=
  p.nodes.filterMap fun
    | service (.iri url') body => if url' = url then some body else none
    | _ => none

def joinAll : List Pattern → Pattern
  | [] => bgp []
  | p :: rest => rest.foldl join p

theorem joinAll_append_singleton {bodies : List Pattern} (h : bodies ≠ []) (b : Pattern) :
    joinAll (bodies ++ [b]) = join (joinAll bodies) b := by
  obtain ⟨first, rest, rfl⟩ := List.exists_cons_of_ne_nil h
  exact List.foldl_append

/-- The endpoint of a clause, with the body of the clause. -/
def clause? : Pattern → Option (String × Pattern)
  | service (.iri url) body => some (url, body)
  | _ => none

theorem clause?_eq_some_iff {url : String} {body : Pattern} :
    p.clause? = some (url, body) ↔ p = service (.iri url) body := by
  cases p with
  | service name inner => cases name <;> simp [clause?]
  | _ => simp [clause?]

theorem Readable.clauses_eq (hp : p.Readable) : p.clauses = p.nodes.filterMap clause? := by
  induction hp using Readable.induction with
  | bgp triples h => exact clauses_bgp triples
  | join left right hl hr ihl ihr =>
    rw [clauses_join, ihl, ihr]
    exact List.filterMap_append.symm
  | distinct inner h ih => exact ih
  | reduced inner h ih => exact ih
  | orderBy inner h ih => exact ih
  | project inner names h ih =>
    rw [clauses_project]
    exact ih
  | service url inner h ih =>
    rw [clauses_service, ih]
    rfl

theorem endpointUrls_eq (p : Pattern) :
    p.endpointUrls = (p.nodes.filterMap clause?).map Prod.fst := by
  rw [endpointUrls, List.map_filterMap]
  refine List.filterMap_congr fun node _ => ?_
  cases node with
  | service name inner => cases name <;> rfl
  | _ => rfl

theorem mem_endpointUrls {url : String} :
    url ∈ p.endpointUrls ↔ ∃ body, service (.iri url) body ∈ p.nodes := by
  simp [endpointUrls_eq, clause?_eq_some_iff]

def bodiesOf (clauses : List (String × Pattern)) (url : String) : List Pattern :=
  clauses.filterMap fun c => if c.1 = url then some c.2 else none

theorem bodiesOf_append_singleton (clauses : List (String × Pattern)) (c : String × Pattern)
    (url : String) : bodiesOf (clauses ++ [c]) url =
      bodiesOf clauses url ++ if c.1 = url then [c.2] else [] := by
  rw [bodiesOf, List.filterMap_append]
  split <;> simp_all [bodiesOf]

theorem bodiesOf_eq_nil_iff {clauses : List (String × Pattern)} {url : String} :
    bodiesOf clauses url = [] ↔ url ∉ clauses.map Prod.fst := by
  rw [bodiesOf, List.filterMap_eq_nil_iff, List.mem_map]
  constructor
  · rintro h ⟨c, hc, rfl⟩
    simpa using h c hc
  · exact fun h c hc => if_neg fun he => h ⟨c, hc, he⟩

theorem bodiesAt_eq (p : Pattern) (url : String) :
    p.bodiesAt url = bodiesOf (p.nodes.filterMap clause?) url := by
  rw [bodiesOf, List.filterMap_filterMap]
  refine List.filterMap_congr fun node _ => ?_
  cases node with
  | service name inner => cases name <;> rfl
  | _ => rfl

theorem mem_bodiesAt {url : String} {body : Pattern} :
    body ∈ p.bodiesAt url ↔ service (.iri url) body ∈ p.nodes := by
  simp [bodiesAt_eq, bodiesOf, clause?_eq_some_iff]

theorem serviceDepth_le_iff {d : Nat} : p.serviceDepth ≤ d ↔
    ∀ name body, service name body ∈ p.nodes → body.serviceDepth < d := by
  induction p with
  | join left right ihl ihr => simp [serviceDepth, nodes, ihl, ihr, or_imp, forall_and]
  | leftJoin left right ihl ihr => simp [serviceDepth, nodes, ihl, ihr, or_imp, forall_and]
  | union left right ihl ihr => simp [serviceDepth, nodes, ihl, ihr, or_imp, forall_and]
  | minus left right ihl ihr => simp [serviceDepth, nodes, ihl, ihr, or_imp, forall_and]
  | service name inner ih =>
    simp only [serviceDepth, nodes, List.mem_cons, service.injEq]
    constructor
    · rintro h name' body (⟨-, rfl⟩ | hmem)
      · exact h
      · exact ih.1 (Nat.le_of_lt h) name' body hmem
    · exact fun h => h name inner (.inl ⟨rfl, rfl⟩)
  | _ => simp_all [serviceDepth, nodes]

theorem serviceDepth_joinAll_lt {bodies : List Pattern} (h : bodies ≠ []) {d : Nat} :
    (joinAll bodies).serviceDepth < d ↔ ∀ b ∈ bodies, b.serviceDepth < d := by
  induction bodies using List.reverseRecOn with
  | nil => exact absurd rfl h
  | append_singleton bodies b ih =>
    cases bodies with
    | nil => simp [joinAll]
    | cons first rest =>
      rw [joinAll_append_singleton (List.cons_ne_nil _ _), serviceDepth, Nat.max_lt,
        ih (List.cons_ne_nil _ _)]
      simp [or_imp, forall_and, and_assoc]

end Pattern

open Pattern

namespace Flattened

variable {urls : List String} {joined : String → Pattern} {clause : String × Pattern}

theorem addClause_of_mem (hurls : urls.Nodup) (h : clause.1 ∈ urls) :
    addClause clause (urls.map fun url => (url, joined url)) = urls.map fun url =>
      (url, if clause.1 = url then .join (joined url) clause.2 else joined url) := by
  induction urls with
  | nil => simp at h
  | cons url urls ih =>
    obtain ⟨hurl, hnodup⟩ := List.nodup_cons.1 hurls
    rw [List.map_cons, List.map_cons, addClause]
    by_cases heq : clause.1 = url
    · rw [if_pos heq.symm, if_pos heq]
      refine congrArg _ (List.map_congr_left fun other hother => ?_)
      have hne : clause.1 ≠ other := fun he => hurl (heq ▸ he ▸ hother)
      rw [if_neg hne]
    · rw [if_neg (Ne.symm heq), if_neg heq, ih hnodup ((List.mem_cons.1 h).resolve_left heq)]

theorem addClause_of_not_mem {l : List (String × Pattern)} (h : clause.1 ∉ l.map Prod.fst) :
    addClause clause l = l ++ [clause] := by
  induction l with
  | nil => rfl
  | cons e l ih =>
    obtain ⟨hne, hrest⟩ := not_or.1 (List.mem_cons.not.1 h)
    rw [addClause, if_neg (Ne.symm hne), ih hrest, List.cons_append]

/-- Clauses for different endpoints are not joined. -/
theorem foldl_addClause_of_nodup {clauses : List (String × Pattern)}
    (h : (clauses.map Prod.fst).Nodup) :
    clauses.foldl (fun l c => addClause c l) [] = clauses := by
  induction clauses using List.reverseRecOn with
  | nil => rfl
  | append_singleton clauses c ih =>
    rw [List.map_append, List.nodup_append] at h
    have hnew : c.1 ∉ clauses.map Prod.fst := fun hmem => h.2.2 _ hmem c.1 (by simp) rfl
    rw [List.foldl_append, ih h.1, List.foldl_cons, List.foldl_nil, addClause_of_not_mem hnew]

theorem foldl_addClause_eq (clauses : List (String × Pattern)) :
    clauses.foldl (fun l c => addClause c l) [] =
      (Distinct.ofList (clauses.map Prod.fst)).map fun url =>
        (url, joinAll (bodiesOf clauses url)) := by
  induction clauses using List.reverseRecOn with
  | nil => rfl
  | append_singleton clauses c ih =>
    have hurls := Distinct.nodup_ofList (clauses.map Prod.fst)
    have hnil (url : String) (hurl : url ∈ Distinct.ofList (clauses.map Prod.fst)) :
        bodiesOf clauses url ≠ [] := fun h =>
      bodiesOf_eq_nil_iff.1 h (Distinct.mem_ofList.1 hurl)
    rw [List.foldl_append, ih, List.map_append, List.map_singleton,
      Distinct.ofList_append_singleton, List.foldl_cons, List.foldl_nil]
    simp only [bodiesOf_append_singleton]
    by_cases h : c.1 ∈ Distinct.ofList (clauses.map Prod.fst)
    · rw [addClause_of_mem hurls h, Distinct.add, if_pos h]
      refine List.map_congr_left fun url hurl => congrArg (url, ·) ?_
      split
      · exact (joinAll_append_singleton (hnil url hurl) c.2).symm
      · rw [List.append_nil]
    · have hfst : c.1 ∉ ((Distinct.ofList (clauses.map Prod.fst)).map fun url =>
          (url, joinAll (bodiesOf clauses url))).map Prod.fst := by
        simpa only [List.map_map, Function.comp_def, List.map_id'] using h
      rw [addClause_of_not_mem hfst, Distinct.add, if_neg h, List.map_append]
      have hnew : bodiesOf clauses c.1 = [] :=
        bodiesOf_eq_nil_iff.2 fun hmem => h (Distinct.mem_ofList.2 hmem)
      have hold : (Distinct.ofList (clauses.map Prod.fst)).map (fun url =>
          (url, joinAll (bodiesOf clauses url ++ if c.1 = url then [c.2] else []))) =
          (Distinct.ofList (clauses.map Prod.fst)).map fun url =>
            (url, joinAll (bodiesOf clauses url)) :=
        List.map_congr_left fun url hurl => by
          have hne : c.1 ≠ url := fun he => h (he ▸ hurl)
          rw [if_neg hne, List.append_nil]
      rw [hold, List.map_singleton, hnew, if_pos rfl]
      rfl

end Flattened

/-- The endpoints of a pattern, each with the join of the bodies of all its clauses. -/
theorem Pattern.Readable.endpoints_eq_map {p : Pattern} (hp : p.Readable) :
    p.endpoints = (Distinct.ofList p.endpointUrls).map fun url =>
      (url, joinAll (p.bodiesAt url)) := by
  rw [endpoints_eq, hp.clauses_eq, Flattened.foldl_addClause_eq, endpointUrls_eq]
  simp only [bodiesAt_eq]

theorem Pattern.Readable.serviceDepth_le_iff {p : Pattern} (hp : p.Readable) {d : Nat} :
    p.serviceDepth ≤ d ↔ ∀ e ∈ p.endpoints, e.2.serviceDepth < d := by
  rw [Pattern.serviceDepth_le_iff, hp.endpoints_eq_map, List.forall_mem_map]
  constructor
  · intro h url hurl
    obtain ⟨body, hbody⟩ := mem_endpointUrls.1 (Distinct.mem_ofList.1 hurl)
    have hne := List.ne_nil_of_mem (mem_bodiesAt.2 hbody)
    exact (serviceDepth_joinAll_lt hne).2 fun b hb => h _ b (mem_bodiesAt.1 hb)
  · intro h name body hbody
    cases name with
    | var name => exact absurd (hp _ hbody) (by simp [nodeRejection?])
    | iri url =>
      have hurl := Distinct.mem_ofList.2 (mem_endpointUrls.2 ⟨body, hbody⟩)
      have hmem := mem_bodiesAt.2 hbody
      exact (serviceDepth_joinAll_lt (List.ne_nil_of_mem hmem)).1 (h url hurl) body hmem

namespace ConjunctiveQuery

variable {α : Type}

mutual

/-- How deep the services of a query are nested in each other. -/
def depth : ConjunctiveQuery α → Nat
  | ⟨_, _, _, services⟩ => depthOf services

def depthOf : List (String × ConjunctiveQuery α) → Nat
  | [] => 0
  | (_, q) :: rest => max (q.depth + 1) (depthOf rest)

end

theorem depth_le_iff {q : ConjunctiveQuery α} {d : Nat} :
    q.depth ≤ d ↔ ∀ s ∈ q.services, s.2.depth < d := by
  obtain ⟨atoms, answer, other, services⟩ := q
  show depthOf services ≤ d ↔ ∀ s ∈ services, s.2.depth < d
  induction services with
  | nil => simp [depthOf]
  | cons s services ih => rw [depthOf, Nat.max_le, ih, List.forall_mem_cons, Nat.succ_le_iff]

end ConjunctiveQuery

namespace Naming

/-- The table once some terms have been met and some scopes opened. -/
def through (n : Naming) (terms : List Term) (scopes : Nat) : Naming :=
  { n.addAll terms with scopes := n.scopes + scopes }

theorem addAll_scopes (n : Naming) (k : Nat) (ts : List Term) :
    { n with scopes := k }.addAll ts = { n.addAll ts with scopes := k } := by
  induction ts generalizing n with
  | nil => rfl
  | cons t ts ih =>
    have hadd : { n with scopes := k }.add t = { n.add t with scopes := k } := by
      have hsame : { n with scopes := k }.symbol? t = n.symbol? t := rfl
      rw [add, add, hsame]
      cases n.symbol? t <;> rfl
    show ({ n with scopes := k }.add t).addAll ts = _
    rw [hadd, ih]
    rfl

theorem through_through (n : Naming) (ts us : List Term) (j k : Nat) :
    (n.through ts j).through us k = n.through (ts ++ us) (j + k) := by
  have hmore : (n.addAll ts).addAll us = n.addAll (ts ++ us) := List.foldl_append.symm
  rw [through, through, addAll_scopes, hmore, through, Nat.add_assoc]

/-- What has a symbol keeps it. -/
theorem symbol_through (n : Naming) {ts : List Term} (us : List Term) (j k : Nat) {t : Term}
    (ht : t ∈ ts) : ((n.through ts j).through us k).symbol t = (n.through ts j).symbol t := by
  obtain ⟨s, hs⟩ := Option.isSome_iff_exists.1 (symbol?_addAll_of_mem (n := n) ht)
  have hnow : (n.through ts j).symbol? t = some s := hs
  rw [symbol_of_symbol? hnow]
  exact symbol_of_symbol? (symbol?_addAll_of_some (n := n.through ts j) us hnow)

def past {α : Type} (n : Naming) (f : Flattened α) : Naming := n.through f.terms f.scopes

/-- The table once the nodes of a pattern have been met, before it is the turn of its endpoints. -/
def collect (n : Naming) (p : Pattern) : Naming :=
  n.through ((p.steps .root n.scopes).flatMap Step.terms) (Step.scopes (p.steps .root n.scopes))

/-- Patterns are read one after the other, each with the table that the one before has left. -/
inductive ReadInTurn : Naming → List (String × Pattern) → List (String × ConjunctiveQuery Symbol) →
    Naming → Prop
  | done (n : Naming) : ReadInTurn n [] [] n
  | next {n n' : Naming} {url : String} {p : Pattern} {s : ConjunctiveQuery Symbol}
      {rest : List (String × Pattern)} {services : List (String × ConjunctiveQuery Symbol)}
      (first : (n.readPattern p).1 = .ok s)
      (others : ReadInTurn (n.readPattern p).2 rest services n') :
      ReadInTurn n ((url, p) :: rest) ((url, s) :: services) n'

variable {n n' : Naming} {l : List (String × Pattern)}

theorem ReadInTurn.map_fst {services : List (String × ConjunctiveQuery Symbol)}
    (h : ReadInTurn n l services n') : services.map Prod.fst = l.map Prod.fst := by
  induction h with
  | done => rfl
  | next _ _ ih => rw [List.map_cons, List.map_cons, ih]

theorem ReadInTurn.map_depth {services : List (String × ConjunctiveQuery Symbol)}
    (h : ReadInTurn n l services n') (hdepth : ∀ e ∈ l, ∀ (m : Naming) (s : ConjunctiveQuery Symbol),
      (m.readPattern e.2).1 = .ok s → s.depth = e.2.serviceDepth) :
    services.map (·.2.depth) = l.map (·.2.serviceDepth) := by
  induction h with
  | done => rfl
  | next first _ ih =>
    rw [List.map_cons, List.map_cons, ih fun e he => hdepth e (List.mem_cons_of_mem _ he)]
    exact congrArg (· :: _) (hdepth _ List.mem_cons_self _ _ first)

theorem readInTurn_services {found : List (String × ConjunctiveQuery Term)}
    (h : (Flattened.services Flattened.ofPattern n.scopes l).result = .ok found) :
    ReadInTurn n l
      (found.map fun e =>
        (e.1, e.2.map (n.past (Flattened.services Flattened.ofPattern n.scopes l)).symbol))
      (n.past (Flattened.services Flattened.ofPattern n.scopes l)) := by
  induction l generalizing n found with
  | nil =>
    obtain rfl : [] = found := by simpa [Flattened.services] using h
    exact .done n
  | cons e l ih =>
    obtain ⟨url, p⟩ := e
    simp only [Flattened.services] at h ⊢
    cases hr : (Flattened.ofPattern n.scopes p).result with
    | error reason => simp [hr] at h
    | ok q =>
      simp only [hr] at h ⊢
      set first := Flattened.ofPattern n.scopes p
      set others := Flattened.services Flattened.ofPattern (n.scopes + first.scopes) l
      cases ho : others.result with
      | error reason => simp [ho, Except.map] at h
      | ok services =>
        obtain rfl : (url, q) :: services = found := by simpa [ho, Except.map] using h
        have hpast : n.past (α := List (String × ConjunctiveQuery Term))
            ⟨first.terms ++ others.terms, first.scopes + others.scopes,
              others.result.map ((url, q) :: ·)⟩ = (n.past first).past others :=
          (n.through_through _ _ _ _).symm
        -- the symbols of the first query are there once it has been read
        have hq : q.map ((n.past first).past others).symbol = q.map (n.past first).symbol := by
          refine ConjunctiveQuery.map_congr fun part hpart a ha t ht => n.symbol_through _ _ _ ?_
          exact (Flattened.wellDrawn_ofPattern n.scopes p q hr part hpart).met_of_mem a ha t ht
        rw [← ho, hpast, List.map_cons, hq]
        refine .next ?_ (ih (n := n.past first) ho)
        rw [readPattern, name, hr]
        rfl

/-- Without a rejection, the nodes of a pattern are met and then the endpoints are read. -/
theorem readInTurn_body {projection : Option (List String)} {p : Pattern}
    {r : ConjunctiveQuery Term}
    (h : (Flattened.body Flattened.ofPattern n.scopes projection p).result = .ok r) :
    ReadInTurn (n.collect p) p.endpoints
      (r.map (n.past (Flattened.body Flattened.ofPattern n.scopes projection p)).symbol).services
      (n.past (Flattened.body Flattened.ofPattern n.scopes projection p)) := by
  obtain ⟨hnone, services, hs, rfl⟩ := Flattened.body_result h
  have hpast : n.past (Flattened.body Flattened.ofPattern n.scopes projection p) =
      (n.collect p).past (Flattened.services Flattened.ofPattern (n.collect p).scopes
        (Flattened.endpoints (p.steps .root n.scopes))) := by
    rw [Flattened.body_eq Flattened.ofPattern n.scopes projection hnone]
    exact (n.through_through _ _ _ _).symm
  rw [hpast, ConjunctiveQuery.services_map, ← p.endpoints_steps .root n.scopes]
  exact readInTurn_services hs

theorem readInTurn_readPattern {p : Pattern} {s : ConjunctiveQuery Symbol}
    (h : (n.readPattern p).1 = .ok s) :
    ReadInTurn (n.collect p.splitProjection.2) p.endpoints s.services (n.readPattern p).2 := by
  obtain ⟨r, hr, rfl⟩ := name_eq_ok h
  rw [Flattened.ofPattern_eq] at hr
  have hread := readInTurn_body hr
  rw [← Flattened.ofPattern_eq, endpoints_splitProjection] at hread
  exact hread

theorem readInTurn_readQuery {q : Query} {s : ConjunctiveQuery Symbol}
    (h : (n.readQuery q).1 = .ok s) :
    ReadInTurn (n.collect q.inner) q.pattern.endpoints s.services (n.readQuery q).2 := by
  obtain ⟨r, hr, rfl⟩ := name_eq_ok h
  obtain ⟨projection, -, hbody⟩ := Flattened.exists_body_of_ofQuery hr
  rw [hbody] at hr
  have hread := readInTurn_body hr
  rw [← hbody, q.endpoints_inner] at hread
  exact hread

theorem readable_of_readPattern {p : Pattern} {s : ConjunctiveQuery Symbol}
    (h : (n.readPattern p).1 = .ok s) : p.Readable := by
  obtain ⟨r, hr, -⟩ := name_eq_ok h
  exact Flattened.ofPattern_eq_ok_iff.1 ⟨r, hr⟩

theorem depth_of_readInTurn {p : Pattern} (hp : p.Readable) {s : ConjunctiveQuery Symbol}
    (h : ReadInTurn n p.endpoints s.services n')
    (hdepth : ∀ e ∈ p.endpoints, ∀ (m : Naming) (s : ConjunctiveQuery Symbol),
      (m.readPattern e.2).1 = .ok s → s.depth = e.2.serviceDepth) : s.depth = p.serviceDepth := by
  refine eq_of_forall_ge_iff fun d => ?_
  have hservices : s.depth ≤ d ↔ ∀ k ∈ s.services.map (·.2.depth), k < d := by
    rw [ConjunctiveQuery.depth_le_iff, List.forall_mem_map]
  rw [hservices, h.map_depth hdepth, List.forall_mem_map, hp.serviceDepth_le_iff]

theorem depth_of_readPattern {p : Pattern} {s : ConjunctiveQuery Symbol}
    (h : (n.readPattern p).1 = .ok s) : s.depth = p.serviceDepth := by
  induction p using Flattened.endpoint_induction generalizing n s with
  | pattern p ih =>
    refine depth_of_readInTurn (readable_of_readPattern h) (readInTurn_readPattern h) ?_
    intro e he m s hs
    rw [← endpoints_splitProjection, ← endpoints_steps _ .root 0] at he
    exact ih 0 e he hs

/--
The services of what is read from a pattern that is a projection of `inner`, with the table that is
there before and the table that is there in the end.
-/
structure ServesEndpoints (n : Naming) (p inner : Pattern) (s : ConjunctiveQuery Symbol)
    (n' : Naming) : Prop where
  /-- There is one service for each endpoint of a clause anywhere in the pattern. -/
  nodup : (s.services.map Prod.fst).Nodup
  mem_iff : ∀ url, url ∈ s.services.map Prod.fst ↔ ∃ body, .service (.iri url) body ∈ p.nodes
  /-- They come in the order of the first clauses. -/
  ordered : (s.services.map Prod.fst).Pairwise fun url url' =>
    p.endpointUrls.idxOf url < p.endpointUrls.idxOf url'
  /-- Each is what is read from the join of all clauses for its endpoint. -/
  read : ReadInTurn (n.collect inner)
    ((s.services.map Prod.fst).map fun url => (url, joinAll (p.bodiesAt url))) s.services n'
  depth : s.depth = p.serviceDepth

theorem servesEndpoints_of_readInTurn {p inner : Pattern} (hp : p.Readable)
    {s : ConjunctiveQuery Symbol} (h : ReadInTurn (n.collect inner) p.endpoints s.services n') :
    n.ServesEndpoints p inner s n' := by
  have hurls : s.services.map Prod.fst = Distinct.ofList p.endpointUrls := by
    rw [h.map_fst, hp.endpoints_eq_map, List.map_map]
    exact List.map_id _
  refine ⟨?_, fun url => ?_, ?_, ?_, ?_⟩
  · rw [hurls]
    exact Distinct.nodup_ofList _
  · rw [hurls, Distinct.mem_ofList]
    exact mem_endpointUrls
  · rw [hurls]
    exact Distinct.pairwise_idxOf_ofList _
  · rwa [hurls, ← hp.endpoints_eq_map]
  · exact depth_of_readInTurn hp h fun e _ m s hs => depth_of_readPattern hs

/--
Whatever was read before: what is read from a pattern, and from a query, has one service for each
endpoint of a clause anywhere in it, in the order of the first clauses. Each is what is read, with
the table that is there when it is its turn, from the join of the bodies of all clauses for the
endpoint. The services are nested as deeply as the clauses.
-/
theorem servesEndpoints (n : Naming) :
    (∀ (p : Pattern) (s : ConjunctiveQuery Symbol), (n.readPattern p).1 = .ok s →
      n.ServesEndpoints p p.splitProjection.2 s (n.readPattern p).2) ∧
    ∀ (q : Query) (s : ConjunctiveQuery Symbol), (n.readQuery q).1 = .ok s →
      n.ServesEndpoints q.pattern q.inner s (n.readQuery q).2 := by
  refine ⟨fun p s h => ?_, fun q s h => ?_⟩
  · exact servesEndpoints_of_readInTurn (readable_of_readPattern h) (readInTurn_readPattern h)
  · obtain ⟨r, hr, -⟩ := name_eq_ok h
    obtain ⟨-, -, hp⟩ := Flattened.ofQuery_eq_ok_iff.1 ⟨r, hr⟩
    exact servesEndpoints_of_readInTurn hp (readInTurn_readQuery h)

/-- Two endpoints, each addressed in a clause for the other one, the first time in a sub-select. -/
def crossedClauses : Pattern :=
  .join
    (.service (.iri "e") (.project (.join (.bgp [⟨.var "x", .iri "p", .var "y"⟩])
      (.service (.iri "f") (.bgp [⟨.var "y", .iri "q", .var "z"⟩]))) ["x"]))
    (.service (.iri "f") (.service (.iri "e") (.bgp [⟨.var "x", .iri "r", .blank "b"⟩])))

theorem servesEndpoints_crossed :
    ∃ s, ((empty.add (.iri "f")).readQuery ⟨.select, .project crossedClauses ["x"], false⟩).1 =
        .ok s ∧
      (empty.add (.iri "f")).ServesEndpoints (.project crossedClauses ["x"]) crossedClauses s
        ((empty.add (.iri "f")).readQuery ⟨.select, .project crossedClauses ["x"], false⟩).2 ∧
      s.services.map Prod.fst = ["e", "f"] ∧ s.depth = 2 := by
  let q : Query := ⟨.select, .project crossedClauses ["x"], false⟩
  obtain ⟨s, hs, hurls⟩ : ∃ s, ((empty.add (.iri "f")).readQuery q).1 = .ok s ∧
      s.services.map Prod.fst = ["e", "f"] := ⟨_, rfl, rfl⟩
  have hserves := (servesEndpoints (empty.add (.iri "f"))).2 q s hs
  exact ⟨s, hs, hserves, hurls, hserves.depth⟩

end Naming

end QueryContainment
