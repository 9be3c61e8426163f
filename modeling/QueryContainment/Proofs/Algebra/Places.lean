import Mathlib.Data.List.Infix
import QueryContainment.Algebra.Walk

namespace QueryContainment

/-- The way down to a node: which child is entered at each node. -/
abbrev Place := List Nat

namespace Pattern

/-- The node at a place. -/
def at? : Pattern → Place → Option Pattern
  | p, [] => some p
  | p, i :: place => p.children[i]?.bind fun child => child.at? place

/-- Whether the node at a place is a sub-select that does not list a variable. -/
def drops (p : Pattern) (x : String) (place : Place) : Bool :=
  match p.at? place with
  | some (project _ names) => !names.contains x
  | _ => false

/-- Of the sub-selects on the way to a place, the innermost one that does not list a variable. -/
def hiddenBy? (p : Pattern) (x : String) (place : Place) : Option Place :=
  place.inits.reverse.find? (p.drops x)

/-- The triples in the order in which they come, each with the place of its basic pattern. -/
def placedTriples : Pattern → List (Place × TriplePattern)
  | bgp triples => triples.map ([], ·)
  | path .. | values _ => []
  | join left right | leftJoin left right | union left right | minus left right =>
    left.placedTriples.map (Prod.map (0 :: ·) id) ++ right.placedTriples.map (Prod.map (1 :: ·) id)
  | filter inner | graph _ inner | extend inner _ | orderBy inner | distinct inner | reduced inner
  | slice inner | project inner _ | group inner .. | service _ inner =>
    inner.placedTriples.map (Prod.map (0 :: ·) id)

/-- The places of the sub-selects, in pre-order. -/
def subSelectPlaces : Pattern → List Place
  | bgp _ | path .. | values _ => []
  | join left right | leftJoin left right | union left right | minus left right =>
    left.subSelectPlaces.map (0 :: ·) ++ right.subSelectPlaces.map (1 :: ·)
  | project inner _ => [] :: inner.subSelectPlaces.map (0 :: ·)
  | filter inner | graph _ inner | extend inner _ | orderBy inner | distinct inner | reduced inner
  | slice inner | group inner .. | service _ inner => inner.subSelectPlaces.map (0 :: ·)

def visibleVars (p : Pattern) : List String :=
  p.placedTriples.flatMap fun e => e.2.positionVariables.filter fun x =>
    (p.hiddenBy? x e.1).isNone

variable {p child : Pattern} {x : String} {i : Nat} {place q : Place}

theorem at?_cons (h : p.children[i]? = some child) : p.at? (i :: place) = child.at? place := by
  rw [at?, h, Option.bind_some]

theorem drops_cons (h : p.children[i]? = some child) :
    p.drops x (i :: place) = child.drops x place := by
  rw [drops, at?, h, Option.bind_some, drops]

theorem exists_child_of_drops (h : p.drops x (i :: place) = true) :
    ∃ child, p.children[i]? = some child ∧ child.drops x place = true := by
  cases hc : p.children[i]? with
  | none => simp [drops, at?, hc] at h
  | some child => exact ⟨child, rfl, drops_cons hc ▸ h⟩

/-- What hides a variable inside a child is innermost; else it may be the node itself. -/
theorem hiddenBy?_cons (h : p.children[i]? = some child) :
    p.hiddenBy? x (i :: place) = ((child.hiddenBy? x place).map (i :: ·)).or
      (if p.drops x [] then some [] else none) := by
  have hdrops : p.drops x ∘ (i :: ·) = child.drops x := funext fun _ => drops_cons h
  rw [hiddenBy?, List.inits_cons, List.reverse_cons, List.find?_append, ← List.map_reverse,
    List.find?_map, hdrops, List.find?_singleton]
  rfl

theorem drops_of_hiddenBy? (h : p.hiddenBy? x place = some q) : p.drops x q = true :=
  List.find?_some h

theorem cons_mem_subSelectPlaces (h : p.children[i]? = some child)
    (hq : q ∈ child.subSelectPlaces) : i :: q ∈ p.subSelectPlaces := by
  cases p <;> rcases i with _ | _ | i <;> simp_all [children, subSelectPlaces]

theorem mem_subSelectPlaces_of_drops (h : p.drops x q = true) : q ∈ p.subSelectPlaces := by
  induction q generalizing p with
  | nil =>
    cases p with
    | project inner names => exact List.mem_cons_self
    | _ => simp [drops, at?] at h
  | cons i q ih =>
    obtain ⟨child, hc, hq⟩ := exists_child_of_drops h
    exact cons_mem_subSelectPlaces hc (ih hq)

theorem mem_subSelectPlaces_of_hiddenBy? (h : p.hiddenBy? x place = some q) :
    q ∈ p.subSelectPlaces := mem_subSelectPlaces_of_drops (drops_of_hiddenBy? h)

end Pattern

end QueryContainment
