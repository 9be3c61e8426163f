import QueryContainment.Proofs.Check.Federation
import QueryContainment.Proofs.Conjunctive.Alike
import QueryContainment.Proofs.Conjunctive.NamedPair

namespace QueryContainment

open Naming ConjunctiveQuery

namespace Check

section

variable {α β : Type} {P S : α → β → Prop}

theorem rel_lookup {l : List (String × α)} {l' : List (String × β)}
    (h : List.Forall₂ (SameEndpoint P) l l') (url : String) :
    Option.Rel P (l.lookup url) (l'.lookup url) := by
  induction h with
  | nil => exact .none
  | @cons e e' _ _ he _ ih =>
    obtain ⟨key, a⟩ := e
    obtain ⟨key', b⟩ := e'
    obtain ⟨heq, hab⟩ : key = key' ∧ P a b := he
    subst heq
    rw [List.lookup_cons, List.lookup_cons]
    cases url == key with
    | true => exact .some hab
    | false => exact ih

theorem forall₂_partners {l m : List (String × α)} {l' m' : List (String × β)}
    (hl : List.Forall₂ (SameEndpoint P) l l') (hm : List.Forall₂ (SameEndpoint S) m m') :
    (∃ url, partners l m = .error url ∧ partners l' m' = .error url) ∨
      ∃ found found', partners l m = .ok found ∧ partners l' m' = .ok found' ∧
        List.Forall₂ S found found' := by
  induction hl with
  | nil => exact .inr ⟨[], [], rfl, rfl, .nil⟩
  | @cons e e' _ _ he _ ih =>
    obtain ⟨url, a⟩ := e
    obtain ⟨url', b⟩ := e'
    obtain rfl : url = url' := he.1
    have hpartner : Option.Rel S (lookupLast url m) (lookupLast url m') :=
      rel_lookup (List.forall₂_reverse_iff.2 hm) url
    simp only [partners]
    generalize lookupLast url m = partner, lookupLast url m' = partner' at hpartner ⊢
    cases hpartner with
    | none => exact .inl ⟨url, rfl, rfl⟩
    | some hab =>
      rcases ih with ⟨missing, h, h'⟩ | ⟨found, found', h, h', hfound⟩
      · exact .inl ⟨missing, by simp [h, Except.map], by simp [h', Except.map]⟩
      · exact .inr ⟨_, _, by simp [h, Except.map], by simp [h', Except.map], .cons hab hfound⟩

end

variable {V : Visit → Visit → Prop}
  {P S : ConjunctiveQuery Symbol → ConjunctiveQuery Symbol → Prop}

mutual

/-- `V` relates what is visited at the same time, if it relates the pairs of related services. -/
theorem forall₂_visits (hmissing : ∀ url, V (.missing url) (.missing url))
    (hpair : ∀ a a' b b', P a a' → S b b' → V (.pair .set a b) (.pair .set a' b')) :
    ∀ {mode : Multiplicity} {s s' t t' : ConjunctiveQuery Symbol},
      ThroughoutServices P s.services s'.services → ThroughoutServices S t.services t'.services →
      V (.pair mode s t) (.pair mode s' t') → List.Forall₂ V (visits mode s t) (visits mode s' t')
  | mode, ⟨atoms, answer, other, services⟩, ⟨atoms', answer', other', services'⟩, t, t', hs, ht,
    hV => by
    unfold visits
    rcases forall₂_partners (throughoutServices_iff.1 hs) (throughoutServices_iff.1 ht) with
      ⟨url, h, h'⟩ | ⟨found, found', h, h', hfound⟩
    · rw [h, h']
      exact .cons (hmissing url) .nil
    · rw [h, h']
      exact List.rel_append (forall₂_endpointVisits hmissing hpair services services' hs hfound)
        (.cons hV .nil)

theorem forall₂_endpointVisits (hmissing : ∀ url, V (.missing url) (.missing url))
    (hpair : ∀ a a' b b', P a a' → S b b' → V (.pair .set a b) (.pair .set a' b')) :
    ∀ (services services' : List (String × ConjunctiveQuery Symbol))
      {found found' : List (ConjunctiveQuery Symbol)},
      ThroughoutServices P services services' → List.Forall₂ (Throughout S) found found' →
      List.Forall₂ V (endpointVisits services found) (endpointVisits services' found')
  | [], [], _, _, _, _ => .nil
  | (_, q) :: rest, (_, q') :: rest', [], [], _, _ => .nil
  | (_, q) :: rest, (_, q') :: rest', r :: found, r' :: found', h, .cons hr hfound => by
    obtain ⟨hq, hservices⟩ := throughout_iff.1 h.2.1
    obtain ⟨hr, hrservices⟩ := throughout_iff.1 hr
    exact List.rel_append
      (forall₂_visits hmissing hpair (throughoutServices_iff.2 hservices)
        (throughoutServices_iff.2 hrservices) (hpair q q' r r' hq hr))
      (forall₂_endpointVisits hmissing hpair rest rest' h.2.2 hfound)

end

/-- Whether the answers of a pair are compared, so that the formula is one for their containment. -/
def Visit.kind? : Visit → Option Bool
  | pair mode sub sup => some (compatible sub sup mode)
  | missing _ => none

theorem compatible_congr {s s' t t' : ConjunctiveQuery Symbol} (hs : s'.answer = s.answer)
    (hsother : s'.other = s.other) (ht : t'.answer = t.answer) (htother : t'.other = t.other)
    (mode : Multiplicity) : compatible s' t' mode = compatible s t mode := by
  cases mode <;>
    simp only [compatible, sameAnswerAndVariables, sameAnswer, vars, hs, hsother, ht, htother]

variable {n n' : Naming}

theorem Visit.HasMapping.kind? {visit : Visit} (h : visit.HasMapping n) :
    visit.kind? = some true := by
  cases visit with
  | pair mode sub sup => exact congrArg some h.1
  | missing url => exact absurd h (Visit.not_hasMapping_missing url)

/-- If the visits are of the same kinds, and those of one kind do not differ, all have mappings. -/
theorem forall_hasMapping_congr {l l' : List Visit} (h : List.Forall₂ (fun v v' =>
      v.kind? = v'.kind? → (v.HasMapping n ↔ v'.HasMapping n')) l l')
    (hkinds : l.map Visit.kind? = l'.map Visit.kind?) :
    (∀ v ∈ l, v.HasMapping n) ↔ ∀ v ∈ l', v.HasMapping n' := by
  induction h with
  | nil => simp
  | cons hv _ ih =>
    obtain ⟨hkind, hrest⟩ := List.cons.inj hkinds
    simp only [List.forall_mem_cons, hv hkind, ih hrest]

variable {s s' t t' : ConjunctiveQuery Symbol}

/--
Two queries, named by different tables, with the same variables in the answer. If their names are
plain, their answers are the same.
-/
structure SameAnswers (plain : Prop) (n n' : Naming) (s s' : ConjunctiveQuery Symbol) : Prop where
  left : s.NamedBy n
  right : s'.NamedBy n'
  answer : ∀ x, x ∈ s.answer ↔ x ∈ s'.answer
  answers : plain → ∀ D, s.answers n D = s'.answers n' D

variable {plain : Prop}

theorem SameAnswers.sameAnswer (hs : SameAnswers plain n n' s s')
    (ht : SameAnswers plain n n' t t') : s.sameAnswer t = s'.sameAnswer t' := by
  rw [Bool.eq_iff_iff, sameAnswer_iff, sameAnswer_iff]
  exact forall_congr' fun x => iff_congr (hs.answer x) (ht.answer x)

theorem SameAnswers.exists_mapped_iff (hplain : plain) (hn : n.Sound) (hn' : n'.Sound)
    (hs : SameAnswers plain n n' s s') (ht : SameAnswers plain n n' t t') :
    (s.sameAnswer t ∧ ∃ f, s.Mapped n t f) ↔ (s'.sameAnswer t' ∧ ∃ f, s'.Mapped n' t' f) := by
  rw [← answers_subset_iff_mapped hn hs.left ht.left,
    ← answers_subset_iff_mapped hn' hs.right ht.right]
  exact forall_congr' fun D => by rw [hs.answers hplain, ht.answers hplain]

/-- So does whether a pair has a mapping, where it is of the same kind. -/
theorem SameAnswers.hasMapping_iff {mode : Multiplicity} (hplain : plain) (hn : n.Sound)
    (hn' : n'.Sound) (hs : SameAnswers plain n n' s s') (ht : SameAnswers plain n n' t t')
    (hkind : compatible s t mode = compatible s' t' mode) :
    (Visit.pair mode s t).HasMapping n ↔ (Visit.pair mode s' t').HasMapping n' := by
  have hmapped := hs.exists_mapped_iff hplain hn hn' ht
  simp only [Visit.HasMapping, hkind]
  refine and_congr_right fun hcompatible => ?_
  have hsame : s.sameAnswer t := sameAnswer_of_compatible (hkind ▸ hcompatible)
  have hsame' : s'.sameAnswer t' := sameAnswer_of_compatible hcompatible
  rwa [and_iff_right hsame, and_iff_right hsame'] at hmapped

/-- Paired queries have the same answers, whatever the tables are. -/
theorem sameAnswers_of_paired (hn : n.Sound) (hn' : n'.Sound)
    (h : NamedPair (Flattened.PairedIf plain) n n' s s') : SameAnswers plain n n' s s' := by
  obtain ⟨r, r', hpaired, hs, hs'⟩ := h
  refine ⟨hs.namedBy hn, hs'.namedBy hn', fun x => ?_, fun hplain D => ?_⟩
  · rw [hs.eq_map, hs'.eq_map, answer_map, answer_map]
    exact hpaired.answer x
  · obtain ⟨R, hR⟩ := hpaired.paired hplain
    rw [hs.answers_eq hn, hs'.answers_eq hn', hR.termAnswers_eq]

/-- What is read from a query, and the names of all its parts. -/
structure ReadAs (n : Naming) (k : Nat) (q : Query) (r : ConjunctiveQuery Term)
    (s : ConjunctiveQuery Symbol) : Prop where
  read : (Flattened.ofQuery k q).result = .ok r
  eq_map : s = r.map n.symbol
  parts : ∀ part ∈ r.parts, NamedFrom n part (part.map n.symbol)

theorem ReadAs.namedFrom {k : Nat} {q : Query} {r : ConjunctiveQuery Term}
    (h : ReadAs n k q r s) : NamedFrom n r s := by
  rw [h.eq_map]
  exact h.parts r r.self_mem_parts

theorem exists_readAs (hn' : n'.WellFormed) {q : Query} (hs : (n.readQuery q).1 = .ok s)
    (hkeep : ∀ e ∈ (n.readQuery q).2.entries, e ∈ n'.entries) :
    ∃ r, ReadAs n' n.scopes q r s := by
  obtain ⟨r, hr, heq, hentries⟩ := eq_map_of_readQuery hn' hs hkeep
  refine ⟨r, hr, heq, fun part hpart => ⟨rfl, (Flattened.ofQuery n.scopes q).terms, ?_, ?_⟩⟩
  · exact Flattened.wellDrawn_ofQuery n.scopes q r hr part hpart
  · intro t ht
    rw [symbol?_of_mem_entries hn' (hentries t ht)]
    rfl

/-- Both queries of a check with the terms that their symbols stand for. -/
theorem Reads.exists_readAs {q q' : Query} (h : Reads q q' s t) :
    (∃ r, ReadAs (table q q') 0 q r s) ∧ ∃ k r, ReadAs (table q q') k q' r t := by
  have hn := (sound_table q q').toWellFormed
  exact ⟨Check.exists_readAs hn h.sub fun e => mem_entries_table q',
    _, Check.exists_readAs hn h.sup fun e he => he⟩

/-- Queries are read whatever was read before. -/
theorem exists_reads {q q' : Query} {k k' : Nat}
    (h : ∃ r, (Flattened.ofQuery k q).result = .ok r)
    (h' : ∃ r, (Flattened.ofQuery k' q').result = .ok r) : ∃ s t, Reads q q' s t := by
  have hread (n : Naming) {q : Query} {k : Nat}
      (h : ∃ r, (Flattened.ofQuery k q).result = .ok r) : ∃ s, (n.readQuery q).1 = .ok s := by
    obtain ⟨r, hr⟩ := Flattened.ofQuery_eq_ok_iff.2 (Flattened.ofQuery_eq_ok_iff.1 h)
    exact ⟨_, by rw [readQuery, name, hr]; rfl⟩
  obtain ⟨s, hs⟩ := hread .empty h
  obtain ⟨t, ht⟩ := hread _ h'
  exact ⟨s, t, hs, ht⟩

/-- What relates the terms relates the symbols, in the queries of all endpoints. -/
theorem ReadAs.throughoutServices {N : ConjunctiveQuery Term → ConjunctiveQuery Term → Prop}
    {k k' : Nat} {q q' : Query} {r r' : ConjunctiveQuery Term} (h : ReadAs n k q r s)
    (h' : ReadAs n' k' q' r' s') (hN : ThroughoutServices N r.services r'.services) :
    ThroughoutServices (NamedPair N n n') s.services s'.services := by
  rw [h.eq_map, h'.eq_map]
  exact throughoutServices_named h.parts h'.parts hN

end Check

end QueryContainment
