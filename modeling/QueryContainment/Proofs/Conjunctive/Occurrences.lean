import Mathlib.Data.List.Basic
import QueryContainment.Proofs.Algebra.Places
import QueryContainment.Proofs.Conjunctive.Readable

namespace QueryContainment

open Naming

theorem List.idxOf_map_cons (i : Nat) (q : Place) (l : List Place) :
    (l.map (i :: ·)).idxOf (i :: q) = l.idxOf q := by
  induction l with
  | nil => rfl
  | cons r l ih =>
    rw [List.map_cons, List.idxOf_cons, List.idxOf_cons, ih]
    simp

namespace Atom

variable {α β : Type}

def triple (a : Atom α) : Triple α := ⟨a.subject, a.predicate, a.object⟩

theorem triple_map (f : α → β) (a : Atom α) : (a.map f).triple = a.triple.map f := rfl

end Atom

namespace Pattern

variable {p child : Pattern} {c d : Context} {k k' i : Nat}

/-- The term that stands in an atom for a term of a triple at a place. -/
def resolved (p : Pattern) (c : Context) (k : Nat) (place : Place) : Term → Term
  | .var x =>
    match p.hiddenBy? x place with
    | some q => .var (scopedName x (scopeName (k + p.subSelectPlaces.idxOf q)))
    | none => c.rename (.var x)
  | t => t

def resolvedTriple (p : Pattern) (c : Context) (k : Nat) (e : Place × TriplePattern) :
    Option (Triple Term) :=
  e.2.terms.toOption.map (·.map (p.resolved c k e.1))

theorem resolved_cons (h : p.children[i]? = some child)
    (hk : ∀ q ∈ child.subSelectPlaces,
      k + p.subSelectPlaces.idxOf (i :: q) = k' + child.subSelectPlaces.idxOf q)
    (hc : ∀ x, d.rename (.var x) = if p.drops x [] then
      .var (scopedName x (scopeName (k + p.subSelectPlaces.idxOf []))) else c.rename (.var x))
    (place : Place) : p.resolved c k (i :: place) = child.resolved d k' place := by
  funext t
  cases t with
  | var x =>
    simp only [resolved, hiddenBy?_cons h]
    cases hq : child.hiddenBy? x place with
    | some q => simp [hk q (mem_subSelectPlaces_of_hiddenBy? hq)]
    | none => cases hd : p.drops x [] <;> simp [hc, hd]
  | _ => rfl

theorem map_resolvedTriple (h : p.children[i]? = some child)
    (hk : ∀ q ∈ child.subSelectPlaces,
      k + p.subSelectPlaces.idxOf (i :: q) = k' + child.subSelectPlaces.idxOf q)
    (hc : ∀ x, d.rename (.var x) = if p.drops x [] then
      .var (scopedName x (scopeName (k + p.subSelectPlaces.idxOf []))) else c.rename (.var x)) :
    (child.placedTriples.map (Prod.map (i :: ·) id)).map (p.resolvedTriple c k) =
      child.placedTriples.map (child.resolvedTriple d k') := by
  rw [List.map_map]
  refine List.map_congr_left fun e _ => ?_
  simp only [Function.comp, resolvedTriple, Prod.map, id, resolved_cons h hk hc]

/-- The scopes of a pattern are those of its sub-selects. -/
theorem Readable.scopes_steps (hp : p.Readable) (c : Context) (k : Nat) :
    Step.scopes (p.steps c k) = p.subSelectPlaces.length := by
  induction hp using Readable.induction generalizing c k with
  | bgp triples h =>
    refine List.countP_eq_zero.2 fun s hs => ?_
    obtain ⟨t, -, rfl⟩ := List.mem_map.1 hs
    unfold Step.ofTriple
    split <;> simp [Step.isNewScope]
  | join left right hl hr ihl ihr =>
    rw [scopes_steps_join, ihl, ihr, subSelectPlaces, List.length_append, List.length_map,
      List.length_map]
  | distinct inner h ih =>
    rw [subSelectPlaces, List.length_map]
    exact ih c k
  | reduced inner h ih =>
    rw [subSelectPlaces, List.length_map]
    exact ih c k
  | orderBy inner h ih =>
    rw [subSelectPlaces, List.length_map]
    exact ih c k
  | project inner names h ih =>
    rw [scopes_steps_project, ih, subSelectPlaces, List.length_cons, List.length_map]
  | service url inner h ih =>
    rw [scopes_steps_service, ih, subSelectPlaces, List.length_map]

theorem triples_bgp {triples : List TriplePattern} (hp : (bgp triples).Readable) (c : Context)
    (k : Nat) : (((bgp triples).steps c k).filterMap Step.atom?).map (some ∘ Atom.triple) =
      (bgp triples).placedTriples.map ((bgp triples).resolvedTriple c k) := by
  have hresolved : (bgp triples).resolved c k [] = c.rename := by
    funext t
    cases t <;> rfl
  have haccepted : Step.Accepted (triples.map (Step.ofTriple c)) := hp.accepted c k
  have hplaced : (bgp triples).placedTriples.map ((bgp triples).resolvedTriple c k) =
      triples.map fun t => t.terms.toOption.map (·.map c.rename) := by
    rw [placedTriples, List.map_map]
    simp only [Function.comp_def, resolvedTriple, hresolved]
  rw [hplaced, steps]
  clear hp hresolved hplaced
  induction triples with
  | nil => rfl
  | cons t triples ih =>
    obtain ⟨ht, hrest⟩ := List.forall_mem_cons.1 haccepted
    obtain ⟨a, visible, hstep⟩ := Step.exists_atom_of_accepted ht
    obtain ⟨terms, hterms, rfl, -⟩ := Step.ofTriple_eq_atom hstep
    rw [List.map_cons, hstep, List.map_cons, hterms, ← ih hrest]
    rfl

theorem map_resolvedTriple_of_single {inner : Pattern} (hchildren : p.children = [inner])
    (hplaced : p.placedTriples = inner.placedTriples.map (Prod.map (0 :: ·) id))
    (hplaces : p.subSelectPlaces = inner.subSelectPlaces.map (0 :: ·))
    (hdrops : ∀ x, p.drops x [] = false) (hc : ∀ x, d.rename (.var x) = c.rename (.var x)) :
    p.placedTriples.map (p.resolvedTriple c k) =
      inner.placedTriples.map (inner.resolvedTriple d k) := by
  rw [hplaced]
  refine map_resolvedTriple (by rw [hchildren]; rfl) (fun q _ => ?_) fun x => ?_
  · rw [hplaces, List.idxOf_map_cons]
  · rw [hdrops, hc, if_neg Bool.false_ne_true]

theorem map_resolvedTriple_project (inner : Pattern) (names : List String) (c : Context) (k : Nat) :
    (project inner names).placedTriples.map ((project inner names).resolvedTriple c k) =
      inner.placedTriples.map (inner.resolvedTriple
        { c with subSelects := ⟨k, names⟩ :: c.subSelects } (k + 1)) := by
  refine map_resolvedTriple rfl (fun q _ => ?_) fun x => ?_
  · have hne : (([] : Place) == 0 :: q) = false := rfl
    rw [subSelectPlaces, List.idxOf_cons, hne, cond_false, List.idxOf_map_cons]
    omega
  · have hdrops : (project inner names).drops x [] = !names.contains x := rfl
    have hfirst : (project inner names).subSelectPlaces.idxOf [] = 0 := List.idxOf_cons_self
    by_cases hx : x ∈ names
    · simp [hdrops, hx, Context.rename_cons_of_listed]
    · simp [hdrops, hfirst, hx, Context.rename_cons_of_not_listed]

theorem map_resolvedTriple_join {left right : Pattern} (hl : left.Readable) (c : Context)
    (k : Nat) : (join left right).placedTriples.map ((join left right).resolvedTriple c k) =
      left.placedTriples.map (left.resolvedTriple c k) ++ right.placedTriples.map
        (right.resolvedTriple c (k + Step.scopes (left.steps c k))) := by
  have hleft (q : Place) (hq : q ∈ left.subSelectPlaces) :
      k + (join left right).subSelectPlaces.idxOf (0 :: q) = k + left.subSelectPlaces.idxOf q := by
    rw [subSelectPlaces, List.idxOf_append_of_mem (List.mem_map_of_mem hq), List.idxOf_map_cons]
  -- the right part opens its scopes after all those of the left part
  have hright (q : Place) (_ : q ∈ right.subSelectPlaces) :
      k + (join left right).subSelectPlaces.idxOf (1 :: q) =
        k + Step.scopes (left.steps c k) + right.subSelectPlaces.idxOf q := by
    rw [hl.scopes_steps, subSelectPlaces, List.idxOf_append_of_notMem (by simp), List.length_map,
      List.idxOf_map_cons, Nat.add_assoc]
  rw [placedTriples, List.map_append, map_resolvedTriple rfl hleft fun _ => rfl,
    map_resolvedTriple rfl hright fun _ => rfl]

/-- The atoms of a pattern are its triples, with their terms resolved. -/
theorem Readable.triples_steps (hp : p.Readable) (c : Context) (k : Nat) :
    ((p.steps c k).filterMap Step.atom?).map (some ∘ Atom.triple) =
      p.placedTriples.map (p.resolvedTriple c k) := by
  induction hp using Readable.induction generalizing c k with
  | bgp triples h => exact triples_bgp h c k
  | join left right hl hr ihl ihr =>
    rw [map_resolvedTriple_join hl, ← ihl, ← ihr, steps, List.filterMap_append, List.map_append]
  | distinct inner h ih =>
    rw [map_resolvedTriple_of_single rfl rfl rfl (fun _ => rfl) fun _ => rfl]
    exact ih c k
  | reduced inner h ih =>
    rw [map_resolvedTriple_of_single rfl rfl rfl (fun _ => rfl) fun _ => rfl]
    exact ih c k
  | orderBy inner h ih =>
    rw [map_resolvedTriple_of_single rfl rfl rfl (fun _ => rfl) fun _ => rfl]
    exact ih c k
  | project inner names h ih =>
    rw [map_resolvedTriple_project]
    exact ih _ (k + 1)
  | service url inner h ih =>
    rw [map_resolvedTriple_of_single (p := service (.iri url) inner) (c := c)
      (d := { c with graph := some url }) rfl rfl rfl (fun _ => rfl) fun _ => rfl]
    exact ih _ k

theorem resolved_root (p : Pattern) (k : Nat) (place : Place) (x : String) :
    p.resolved .root k place (.var x) = match p.hiddenBy? x place with
      | some q => .var (scopedName x (scopeName (k + p.subSelectPlaces.idxOf q)))
      | none => .var x := by
  rw [resolved]
  cases p.hiddenBy? x place <;> rfl

theorem exists_resolved_var (p : Pattern) (k : Nat) (place : Place) (x : String) :
    ∃ y, p.resolved .root k place (.var x) = .var y := by
  rw [resolved_root]
  split <;> exact ⟨_, rfl⟩

theorem resolved_var_eq_iff {p' : Pattern} {place place' : Place} {x y : String}
    (hx : '#' ∉ x.toList) (hy : '#' ∉ y.toList) :
    p.resolved .root k place (.var x) = p'.resolved .root k' place' (.var y) ↔ x = y ∧
      (p.hiddenBy? x place = none ∧ p'.hiddenBy? x place' = none ∨
      ∃ q q', p.hiddenBy? x place = some q ∧ p'.hiddenBy? x place' = some q' ∧
        k + p.subSelectPlaces.idxOf q = k' + p'.subSelectPlaces.idxOf q') := by
  rw [resolved_root, resolved_root]
  constructor
  · intro h
    cases hq : p.hiddenBy? x place with
    | none =>
      cases hq' : p'.hiddenBy? y place' with
      | none =>
        obtain rfl : x = y := by simpa [hq, hq'] using h
        exact ⟨rfl, .inl ⟨rfl, hq'⟩⟩
      | some q' =>
        rw [hq, hq'] at h
        exact absurd (Term.var.inj h) (ne_scopedName hx _ _)
    | some q =>
      cases hq' : p'.hiddenBy? y place' with
      | none =>
        rw [hq, hq'] at h
        exact absurd (Term.var.inj h).symm (ne_scopedName hy _ _)
      | some q' =>
        rw [hq, hq'] at h
        obtain ⟨rfl, hscope⟩ := scopedName_inj (Term.var.inj h)
        exact ⟨rfl, .inr ⟨q, q', rfl, hq', hscope⟩⟩
  · rintro ⟨rfl, ⟨hq, hq'⟩ | ⟨q, q', hq, hq', hscope⟩⟩
    · rw [hq, hq']
    · rw [hq, hq']
      exact congrArg (fun scope => Term.var (scopedName x (scopeName scope))) hscope

/-- Terms stay the same if they were, and for variables both are visible or hidden in one scope. -/
theorem resolved_root_eq_iff {p' : Pattern} {place place' : Place} {u u' : Term}
    (hu : ∀ x, u = .var x → '#' ∉ x.toList) (hu' : ∀ x, u' = .var x → '#' ∉ x.toList) :
    p.resolved .root k place u = p'.resolved .root k' place' u' ↔ u = u' ∧ ∀ x, u = .var x →
      p.hiddenBy? x place = none ∧ p'.hiddenBy? x place' = none ∨
      ∃ q q', p.hiddenBy? x place = some q ∧ p'.hiddenBy? x place' = some q' ∧
        k + p.subSelectPlaces.idxOf q = k' + p'.subSelectPlaces.idxOf q' := by
  cases u with
  | var x =>
    cases u' with
    | var y => simp [resolved_var_eq_iff (hu x rfl) (hu' y rfl)]
    | _ =>
      obtain ⟨y, hy⟩ := exists_resolved_var p k place x
      rw [hy]
      simp [resolved]
  | _ =>
    cases u' with
    | var y =>
      obtain ⟨z, hz⟩ := exists_resolved_var p' k' place' y
      rw [hz]
      simp [resolved]
    | _ => simp [resolved]

end Pattern

end QueryContainment
