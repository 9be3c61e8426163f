import QueryContainment.Proofs.Conjunctive.Traversal

namespace QueryContainment

/-- A position in a triple. -/
inductive Role where
  | subject
  | predicate
  | object
deriving DecidableEq

namespace Triple

variable {α β : Type}

def inRole (t : Triple α) : Role → α
  | .subject => t.subject
  | .predicate => t.predicate
  | .object => t.object

theorem inRole_map (f : α → β) (t : Triple α) (role : Role) :
    (t.map f).inRole role = f (t.inRole role) := by
  cases role <;> rfl

theorem inRole_mem_toList (t : Triple α) (role : Role) : t.inRole role ∈ t.toList := by
  cases role <;> simp [inRole, toList]

end Triple

namespace Naming

variable {n : Naming} {calls : List Call} {c : Call} {i j : Nat}

def Call.traversal? : Call → Option Traversal
  | pattern p => some (.ofPattern p)
  | query q => some (.ofQuery q)
  | term _ | scope => none

/-- How many scopes a call opens, if `k` are open already. -/
def Call.scopes (k : Nat) : Call → Nat
  | .scope => 1
  | c => (c.reads k).elim 0 (·.scopes)

/-- What each of a sequence of calls makes. -/
def results : Naming → List Call → List (Option (ConjunctiveQuery Symbol))
  | _, [] => []
  | n, c :: calls => c.made n :: (c.apply n).results calls

theorem getElem?_results : (n.results calls)[i]? =
    calls[i]?.map fun c => c.made (n.after (calls.take i)) := by
  induction calls generalizing n i with
  | nil => rfl
  | cons c calls ih =>
    cases i with
    | zero => rfl
    | succ i => exact ih

theorem after_take_succ (h : calls[i]? = some c) :
    n.after (calls.take (i + 1)) = c.apply (n.after (calls.take i)) := by
  rw [List.take_add_one, h, after_append]
  rfl

theorem scopes_add (n : Naming) (t : Term) : (n.add t).scopes = n.scopes := by
  unfold add
  split <;> rfl

theorem scopes_apply (n : Naming) (c : Call) :
    (c.apply n).scopes = n.scopes + c.scopes n.scopes := by
  cases c with
  | term t => exact scopes_add n t
  | scope => rfl
  | pattern p => rfl
  | query q => rfl

theorem scopes_le_apply (n : Naming) (c : Call) : n.scopes ≤ (c.apply n).scopes := by
  rw [scopes_apply]
  exact Nat.le_add_right ..

theorem scopes_le_after (n : Naming) (calls : List Call) : n.scopes ≤ (n.after calls).scopes := by
  induction calls generalizing n with
  | nil => exact Nat.le_refl _
  | cons c calls ih => exact (scopes_le_apply n c).trans (ih (c.apply n))

theorem scopes_after_take_le (h : i ≤ j) :
    (n.after (calls.take i)).scopes ≤ (n.after (calls.take j)).scopes := by
  obtain ⟨more, hmore⟩ := List.take_prefix_take_left (l := calls) h
  rw [← hmore, after_append]
  exact scopes_le_after _ more

theorem mem_entries_of_take {e : Term × Symbol} (h : e ∈ (n.after (calls.take i)).entries) :
    e ∈ (n.after calls).entries := by
  rw [← List.take_append_drop i calls, after_append]
  exact (mem_entries_after _).2 (.inl h)

theorem exists_read_of_made {n' : Naming} (hn' : n'.WellFormed) {q : ConjunctiveQuery Symbol}
    (hq : c.made n = some q) (hkeep : ∀ e ∈ (c.apply n).entries, e ∈ n'.entries) :
    ∃ t r, c.traversal? = some t ∧ (t.read n.scopes).result = .ok r ∧ q = r.map n'.symbol ∧
      (c.apply n).scopes = n.scopes + (t.read n.scopes).scopes ∧
      ∀ u ∈ (t.read n.scopes).terms, (u, n'.symbol u) ∈ n'.entries := by
  cases c with
  | term t => cases hq
  | scope => cases hq
  | pattern p =>
    have hread : (n.readPattern p).1 = .ok q := by
      cases hp : (n.readPattern p).1 <;> simp_all [Call.made, Except.toOption]
    obtain ⟨r, hr, hmap, hentries⟩ :=
      eq_map_of_name hn' (Flattened.wellDrawn_ofPattern _ p) hread hkeep
    refine ⟨.ofPattern p, r, rfl, ?_⟩
    rw [Traversal.read_ofPattern]
    exact ⟨hr, hmap, rfl, hentries⟩
  | query query =>
    have hread : (n.readQuery query).1 = .ok q := by
      cases hp : (n.readQuery query).1 <;> simp_all [Call.made, Except.toOption]
    obtain ⟨r, hr, hmap, hentries⟩ := eq_map_of_readQuery hn' hread hkeep
    refine ⟨.ofQuery query, r, rfl, ?_⟩
    rw [Traversal.read_ofQuery hr]
    exact ⟨hr, hmap, rfl, hentries⟩

theorem exists_read_of_results {q : ConjunctiveQuery Symbol}
    (hq : (empty.results calls)[i]? = some (some q)) :
    ∃ t r, calls[i]?.bind Call.traversal? = some t ∧
      (t.read (empty.after (calls.take i)).scopes).result = .ok r ∧
      q = r.map (empty.after calls).symbol ∧
      (empty.after (calls.take (i + 1))).scopes = (empty.after (calls.take i)).scopes +
        (t.read (empty.after (calls.take i)).scopes).scopes ∧
      ∀ u ∈ (t.read (empty.after (calls.take i)).scopes).terms,
        (u, (empty.after calls).symbol u) ∈ (empty.after calls).entries := by
  rw [getElem?_results, Option.map_eq_some_iff] at hq
  obtain ⟨c, hc, hmade⟩ := hq
  have hn := (sound_after sound_empty calls).toWellFormed
  have hkeep : ∀ e ∈ (c.apply (empty.after (calls.take i))).entries,
      e ∈ (empty.after calls).entries := by
    rw [← after_take_succ hc]
    exact fun e => mem_entries_of_take
  obtain ⟨t, r, ht, hread, hmap, hscopes, hentries⟩ := exists_read_of_made hn hmade hkeep
  exact ⟨t, r, by rw [hc, Option.bind_some, ht], hread, hmap, by rw [after_take_succ hc, hscopes],
    hentries⟩

end Naming

open Naming

/--
Where a term occurs in a run: in which call, in the query for the last one of which chain of
endpoints, in which of its triples and in which position.
-/
structure Occurrence where
  call : Nat
  chain : List String
  triple : Nat
  role : Role

namespace Occurrence

variable {calls : List Call} {o o' : Occurrence} {s s' : Symbol}

def traversal? (calls : List Call) (o : Occurrence) : Option Traversal :=
  (calls[o.call]?.bind Call.traversal?).bind (·.along? o.chain)

/-- The term as it stands in the pattern. -/
def term? (calls : List Call) (o : Occurrence) : Option Term := do
  let t ← o.traversal? calls
  let (_, triple) ← t.body.placedTriples[o.triple]?
  let terms ← triple.terms.toOption
  return terms.inRole o.role

/-- The sub-select that hides a variable where it occurs. -/
def hiddenBy? (calls : List Call) (o : Occurrence) (x : String) : Option Place := do
  let t ← o.traversal? calls
  let (place, _) ← t.body.placedTriples[o.triple]?
  t.body.hiddenBy? x place

/-- The symbol that stands for the term in the query that is made. -/
def HasSymbol (calls : List Call) (o : Occurrence) (s : Symbol) : Prop :=
  ∃ q part a, (empty.results calls)[o.call]? = some (some q) ∧ q.SentAlong o.chain part ∧
    part.atoms[o.triple]? = some a ∧ a.triple.inRole o.role = s

/--
The same IRI, literal or blank node, or a variable of one name, which in both places is visible or
is hidden by one sub-select in one traversal.
-/
def Shares (calls : List Call) (o o' : Occurrence) : Prop :=
  ∃ t, o.term? calls = some t ∧ o'.term? calls = some t ∧ ∀ x, t = .var x →
    o.hiddenBy? calls x = none ∧ o'.hiddenBy? calls x = none ∨
    ∃ place, o.hiddenBy? calls x = some place ∧ o'.hiddenBy? calls x = some place ∧
      o.call = o'.call ∧ o.chain = o'.chain

/-- What is known of an occurrence that has a symbol. -/
structure Met (calls : List Call) (o : Occurrence) (s : Symbol) (root t : Traversal)
    (place : Place) (u : Term) (k : Nat) : Prop where
  root_eq : calls[o.call]?.bind Call.traversal? = some root
  scopes_eq : (empty.after (calls.take o.call)).scopes = k
  accepted : ∃ r, (root.read k).result = .ok r
  scopes_le : k + (root.read k).scopes ≤ (empty.after (calls.take (o.call + 1))).scopes
  along_eq : root.along? o.chain = some t
  placed : ∃ triple terms, t.body.placedTriples[o.triple]? = some (place, triple) ∧
    triple.terms = .ok terms ∧ terms.inRole o.role = u
  entry : (t.body.resolved .root (root.start k o.chain) place u, s) ∈ (empty.after calls).entries

theorem HasSymbol.met (h : o.HasSymbol calls s) :
    ∃ root t place u k, o.Met calls s root t place u k := by
  obtain ⟨q, part, a, hq, hpart, ha, hs⟩ := h
  obtain ⟨root, r, hroot, hread, rfl, hscopes, hentries⟩ := exists_read_of_results hq
  obtain ⟨r', hr', rfl⟩ := ConjunctiveQuery.sentAlong_map.1 hpart
  obtain ⟨t, ht, hread'⟩ := Traversal.exists_along?_of_sentAlong hread hr'
  rw [ConjunctiveQuery.atoms_map, List.getElem?_map, Option.map_eq_some_iff] at ha
  obtain ⟨b, hb, rfl⟩ := ha
  obtain ⟨place, triple, terms, hplaced, hterms, hresolved⟩ := Traversal.exists_placed hread' hb
  refine ⟨root, t, place, terms.inRole o.role, _, hroot, rfl, ⟨r, hread⟩, hscopes.ge, ht,
    ⟨triple, terms, hplaced, hterms, rfl⟩, ?_⟩
  -- the terms of an atom have been met
  have hover := root.wellDrawn_read _ r hread r' hr'.mem_parts
  have hplace : b.triple.inRole o.role ∈ b.places := b.triple.inRole_mem_toList o.role
  have hmet := hover.met_of_mem b (List.mem_of_getElem? hb) _ (Atom.mem_toList.2 (.inl hplace))
  have hentry := hentries _ hmet
  rwa [← Triple.inRole_map (empty.after calls).symbol, ← Atom.triple_map, hs, hresolved,
    Triple.inRole_map] at hentry

variable {root root' t t' : Traversal} {place place' : Place} {u u' : Term} {k k' i j : Nat}

theorem Met.traversal?_eq (h : o.Met calls s root t place u k) : o.traversal? calls = some t := by
  rw [traversal?, h.root_eq, Option.bind_some, h.along_eq]

theorem Met.term?_eq (h : o.Met calls s root t place u k) : o.term? calls = some u := by
  obtain ⟨triple, terms, hplaced, hterms, hu⟩ := h.placed
  simp [term?, h.traversal?_eq, hplaced, hterms, Except.toOption, hu]

theorem Met.hiddenBy?_eq (h : o.Met calls s root t place u k) (x : String) :
    o.hiddenBy? calls x = t.body.hiddenBy? x place := by
  obtain ⟨triple, terms, hplaced, -, -⟩ := h.placed
  simp [hiddenBy?, h.traversal?_eq, hplaced]

theorem Met.eq_of_call_eq (h : o.Met calls s root t place u k)
    (h' : o'.Met calls s' root' t' place' u' k') (hcall : o.call = o'.call) :
    root = root' ∧ k = k' := by
  have hroot := h.root_eq
  have hscopes := h.scopes_eq
  rw [hcall, h'.root_eq] at hroot
  rw [hcall, h'.scopes_eq] at hscopes
  exact ⟨(Option.some.inj hroot).symm, hscopes.symm⟩

theorem Met.same_traversal (h : o.Met calls s root t place u k)
    (h' : o'.Met calls s' root' t' place' u' k') (hi : i < t.width) (hj : j < t'.width)
    (heq : root.start k o.chain + i = root'.start k' o'.chain + j) :
    o.call = o'.call ∧ o.chain = o'.chain := by
  obtain ⟨r, hr⟩ := h.accepted
  obtain ⟨r', hr'⟩ := h'.accepted
  have hfirst := root.le_start k o.chain
  have hfirst' := root'.le_start k' o'.chain
  have hlast := Traversal.start_add_width_le hr h.along_eq
  have hlast' := Traversal.start_add_width_le hr' h'.along_eq
  have hscopes := h.scopes_le
  have hscopes' := h'.scopes_le
  rcases Nat.lt_trichotomy o.call o'.call with hlt | hcall | hlt
  · have hnext : o.call + 1 ≤ o'.call := hlt
    have hle : (empty.after (calls.take (o.call + 1))).scopes ≤
        (empty.after (calls.take o'.call)).scopes := scopes_after_take_le hnext
    rw [h'.scopes_eq] at hle
    omega
  · obtain ⟨rfl, rfl⟩ := h.eq_of_call_eq h' hcall
    refine ⟨hcall, Classical.byContradiction fun hne => ?_⟩
    have hapart := Traversal.start_add_width_le_or hr h.along_eq h'.along_eq hne
    omega
  · have hnext : o'.call + 1 ≤ o.call := hlt
    have hle : (empty.after (calls.take (o'.call + 1))).scopes ≤
        (empty.after (calls.take o.call)).scopes := scopes_after_take_le hnext
    rw [h.scopes_eq] at hle
    omega

/-- The terms of two symbols in the table are the same if the symbols are. -/
theorem Met.symbol_eq_iff (h : o.Met calls s root t place u k)
    (h' : o'.Met calls s' root' t' place' u' k') : s = s' ↔
      t.body.resolved .root (root.start k o.chain) place u =
        t'.body.resolved .root (root'.start k' o'.chain) place' u' := by
  have hn := (sound_after sound_empty calls).toWellFormed
  refine ⟨fun heq => (name_eq_iff hn h.entry h'.entry).1 (congrArg Symbol.name heq), fun heq => ?_⟩
  have hs := symbol_of_mem_entries hn h.entry
  have hs' := symbol_of_mem_entries hn h'.entry
  exact hs.symm.trans ((congrArg _ heq).trans hs')

/-- No two symbols in the table have one name. -/
theorem Met.eq_of_name_eq (h : o.Met calls s root t place u k)
    (h' : o'.Met calls s' root' t' place' u' k') (hname : s.name = s'.name) : s = s' := by
  have hn := (sound_after sound_empty calls).toWellFormed
  exact (h.symbol_eq_iff h').2 ((name_eq_iff hn h.entry h'.entry).1 hname)

theorem Met.same_scope_iff (h : o.Met calls s root t place u k)
    (h' : o'.Met calls s' root' t' place' u' k') (x : String) :
    (∃ q q', t.body.hiddenBy? x place = some q ∧ t'.body.hiddenBy? x place' = some q' ∧
      root.start k o.chain + t.body.subSelectPlaces.idxOf q =
        root'.start k' o'.chain + t'.body.subSelectPlaces.idxOf q') ↔
    ∃ q, t.body.hiddenBy? x place = some q ∧ t'.body.hiddenBy? x place' = some q ∧
      o.call = o'.call ∧ o.chain = o'.chain := by
  have hwidth {b : Traversal} {place q : Place} (hq : b.body.hiddenBy? x place = some q) :
      b.body.subSelectPlaces.idxOf q < b.width :=
    List.idxOf_lt_length_of_mem (Pattern.mem_subSelectPlaces_of_hiddenBy? hq)
  have hsame (hcall : o.call = o'.call) (hchain : o.chain = o'.chain) :
      t = t' ∧ root.start k o.chain = root'.start k' o'.chain := by
    obtain ⟨rfl, rfl⟩ := h.eq_of_call_eq h' hcall
    have halong := h.along_eq
    rw [hchain, h'.along_eq] at halong
    exact ⟨(Option.some.inj halong).symm, by rw [hchain]⟩
  constructor
  · rintro ⟨q, q', hq, hq', heq⟩
    obtain ⟨hcall, hchain⟩ := h.same_traversal h' (hwidth hq) (hwidth hq') heq
    obtain ⟨rfl, hstart⟩ := hsame hcall hchain
    have hidx : t.body.subSelectPlaces.idxOf q = t.body.subSelectPlaces.idxOf q' := by omega
    obtain rfl := (List.idxOf_inj (Pattern.mem_subSelectPlaces_of_hiddenBy? hq)).1 hidx
    exact ⟨q, hq, hq', hcall, hchain⟩
  · rintro ⟨q, hq, hq', hcall, hchain⟩
    obtain ⟨rfl, hstart⟩ := hsame hcall hchain
    exact ⟨q, q, hq, hq', by rw [hstart]⟩

/-- Of terms with symbols, the symbols are the same exactly if the terms are shared. -/
theorem Met.symbol_eq_iff_shares (h : o.Met calls s root t place u k)
    (h' : o'.Met calls s' root' t' place' u' k') (hu : ∀ x, u = .var x → '#' ∉ x.toList)
    (hu' : ∀ x, u' = .var x → '#' ∉ x.toList) : s = s' ↔ o.Shares calls o' := by
  rw [h.symbol_eq_iff h', Pattern.resolved_root_eq_iff hu hu']
  simp only [h.same_scope_iff h', Shares, h.term?_eq, h'.term?_eq, h.hiddenBy?_eq,
    h'.hiddenBy?_eq, Option.some.injEq]
  constructor
  · rintro ⟨rfl, hvar⟩
    exact ⟨u, rfl, rfl, hvar⟩
  · rintro ⟨w, rfl, rfl, hvar⟩
    exact ⟨rfl, hvar⟩

theorem exists_hasSymbol_iff : (∃ s, o.HasSymbol calls s) ↔
    (∃ q, (empty.results calls)[o.call]? = some (some q)) ∧ (o.term? calls).isSome := by
  constructor
  · rintro ⟨s, hs⟩
    obtain ⟨root, t, place, u, k, hmet⟩ := hs.met
    obtain ⟨q, part, a, hq, -⟩ := hs
    exact ⟨⟨q, hq⟩, by rw [hmet.term?_eq]; rfl⟩
  · rintro ⟨⟨q, hq⟩, hterm⟩
    obtain ⟨u, hu⟩ := Option.isSome_iff_exists.1 hterm
    obtain ⟨t, ht, hu⟩ := Option.bind_eq_some_iff.1 hu
    obtain ⟨e, he, -⟩ := Option.bind_eq_some_iff.1 hu
    obtain ⟨root, r, hroot, hread, rfl, -⟩ := exists_read_of_results hq
    rw [traversal?, hroot, Option.bind_some] at ht
    obtain ⟨part, hpart, hread'⟩ := Traversal.exists_sentAlong hread ht
    obtain ⟨a, ha⟩ := Traversal.exists_atom hread' he
    refine ⟨_, _, _, a.map (empty.after calls).symbol, hq,
      ConjunctiveQuery.sentAlong_map.2 ⟨part, hpart, rfl⟩, ?_, rfl⟩
    rw [ConjunctiveQuery.atoms_map, List.getElem?_map, ha, Option.map_some]

/--
In every run that begins with an empty table, a term has a symbol in a query that is made if it
occurs in the pattern that is read for that query. Two of them, whatever calls, endpoints and
triples they come from, have the same symbol if and only if they are the same IRI, literal or blank
node, or variables of one name that are both visible, or both hidden by one sub-select in one
traversal. The names of the variables must be names of the language, without a `#`. Different
symbols have different names.
-/
theorem symbols_shared (calls : List Call) :
    (∀ o : Occurrence, (∃ s, o.HasSymbol calls s) ↔
      (∃ q, (empty.results calls)[o.call]? = some (some q)) ∧ (o.term? calls).isSome) ∧
    ∀ (o o' : Occurrence) (s s' : Symbol), o.HasSymbol calls s → o'.HasSymbol calls s' →
      (∀ x, o.term? calls = some (.var x) → '#' ∉ x.toList) →
      (∀ x, o'.term? calls = some (.var x) → '#' ∉ x.toList) →
      (s = s' ↔ o.Shares calls o') ∧ (s.name = s'.name → s = s') := by
  refine ⟨fun o => exists_hasSymbol_iff, fun o o' s s' hs hs' hplain hplain' => ?_⟩
  obtain ⟨root, t, place, u, k, hmet⟩ := hs.met
  obtain ⟨root', t', place', u', k', hmet'⟩ := hs'.met
  refine ⟨hmet.symbol_eq_iff_shares hmet' (fun x hx => hplain x ?_) fun x hx => hplain' x ?_,
    hmet.eq_of_name_eq hmet'⟩
  · rw [hmet.term?_eq, hx]
  · rw [hmet'.term?_eq, hx]

/-- A clause with a sub-select that is all the endpoint is sent, beside a triple of both names. -/
def remoteSubSelect : Pattern :=
  .join (.service (.iri "e") (.project (.bgp [⟨.var "x", .iri "p", .var "y"⟩]) ["x"]))
    (.bgp [⟨.var "y", .iri "p", .var "x"⟩])

/--
Read twice, the variable that the clause hides has one symbol in each reading, but that which the
endpoint itself shows is the one beside the clause.
-/
theorem symbols_shared_remoteSubSelect :
    let twice : List Call := [.pattern remoteSubSelect, .pattern remoteSubSelect]
    ∃ hidden hidden' shown shown',
      HasSymbol twice ⟨0, [], 0, .object⟩ hidden ∧ HasSymbol twice ⟨1, [], 0, .object⟩ hidden' ∧
      HasSymbol twice ⟨0, [], 1, .subject⟩ shown ∧ HasSymbol twice ⟨1, ["e"], 0, .object⟩ shown' ∧
      hidden.name ≠ hidden'.name ∧ hidden.name ≠ shown.name ∧ shown = shown' := by
  intro twice
  obtain ⟨hex, hshared⟩ := symbols_shared twice
  obtain ⟨hidden, hh⟩ := (hex ⟨0, [], 0, .object⟩).2 ⟨⟨_, rfl⟩, rfl⟩
  obtain ⟨hidden', hh'⟩ := (hex ⟨1, [], 0, .object⟩).2 ⟨⟨_, rfl⟩, rfl⟩
  obtain ⟨shown, hs⟩ := (hex ⟨0, [], 1, .subject⟩).2 ⟨⟨_, rfl⟩, rfl⟩
  obtain ⟨shown', hs'⟩ := (hex ⟨1, ["e"], 0, .object⟩).2 ⟨⟨_, rfl⟩, rfl⟩
  have hplain (o : Occurrence) (h : o.term? twice = some (.var "y")) :
      ∀ x, o.term? twice = some (.var x) → '#' ∉ x.toList := by
    intro x hx
    obtain rfl := Term.var.inj (Option.some.inj (h.symm.trans hx))
    decide
  refine ⟨hidden, hidden', shown, shown', hh, hh', hs, hs', fun heq => ?_, fun heq => ?_, ?_⟩
  · obtain ⟨hiff, hname⟩ := hshared _ _ _ _ hh hh' (hplain _ rfl) (hplain _ rfl)
    obtain ⟨t, ht, -, hvar⟩ := hiff.1 (hname heq)
    obtain ⟨hnone, -⟩ | ⟨-, -, -, hcall, -⟩ := hvar "y" (Option.some.inj ht).symm
    · cases hnone
    · cases hcall
  · obtain ⟨hiff, hname⟩ := hshared _ _ _ _ hh hs (hplain _ rfl) (hplain _ rfl)
    obtain ⟨t, ht, -, hvar⟩ := hiff.1 (hname heq)
    obtain ⟨hnone, -⟩ | ⟨place, -, hsome, -, -⟩ := hvar "y" (Option.some.inj ht).symm
    · cases hnone
    · cases hsome
  · obtain ⟨hiff, -⟩ := hshared _ _ _ _ hs hs' (hplain _ rfl) (hplain _ rfl)
    refine hiff.2 ⟨_, rfl, rfl, fun x hx => ?_⟩
    obtain rfl := Term.var.inj hx
    exact .inl ⟨rfl, rfl⟩

end Occurrence

end QueryContainment
