import QueryContainment.Conjunctive.Depth
import QueryContainment.Proofs.Algebra.Solutions

namespace QueryContainment

variable {σ τ : String → String}

def Term.rename (σ : String → String) : Term → Term
  | .var name => .var (σ name)
  | t => t

def IriOrVar.rename (σ : String → String) : IriOrVar → IriOrVar
  | .iri value => .iri value
  | .var name => .var (σ name)

namespace PatternTerm

def rename (σ : String → String) : PatternTerm → PatternTerm
  | .var name => .var (σ name)
  | .quoted subject predicate object =>
    .quoted (subject.rename σ) (predicate.rename σ) (object.rename σ)
  | t => t

end PatternTerm

def TriplePattern.rename (σ : String → String) (t : TriplePattern) : TriplePattern :=
  ⟨t.subject.rename σ, t.predicate.rename σ, t.object.rename σ⟩

theorem IriOrVar.vars_rename (p : IriOrVar) : (p.rename σ).vars = p.vars.map σ := by
  cases p <;> rfl

theorem IriOrVar.rename_congr {p : IriOrVar} (h : ∀ x ∈ p.vars, σ x = τ x) :
    p.rename σ = p.rename τ := by
  cases p with
  | iri value => rfl
  | var name => exact congrArg IriOrVar.var (h name List.mem_cons_self)

theorem IriOrVar.rename_id (p : IriOrVar) : p.rename id = p := by
  cases p <;> rfl

namespace PatternTerm

theorem vars_rename (p : PatternTerm) : (p.rename σ).vars = p.vars.map σ := by
  induction p with
  | quoted subject predicate object ihs iho =>
    simp only [rename, vars, ihs, iho, IriOrVar.vars_rename, List.map_append]
  | _ => rfl

theorem rename_congr {p : PatternTerm} (h : ∀ x ∈ p.vars, σ x = τ x) :
    p.rename σ = p.rename τ := by
  induction p with
  | var name => exact congrArg PatternTerm.var (h name List.mem_cons_self)
  | quoted subject predicate object ihs iho =>
    simp only [vars, List.mem_append] at h
    simp only [rename, ihs fun x hx => h x (.inl (.inl hx)), iho fun x hx => h x (.inr hx),
      IriOrVar.rename_congr fun x hx => h x (.inl (.inr hx))]
  | _ => rfl

theorem rename_id (p : PatternTerm) : p.rename id = p := by
  induction p with
  | quoted subject predicate object ihs iho =>
    simp only [rename, ihs, iho, IriOrVar.rename_id]
  | _ => rfl

end PatternTerm

namespace TriplePattern

theorem vars_rename (t : TriplePattern) : (t.rename σ).vars = t.vars.map σ := by
  simp only [rename, vars, PatternTerm.vars_rename, IriOrVar.vars_rename, List.map_append]

theorem rename_congr {t : TriplePattern} (h : ∀ x ∈ t.vars, σ x = τ x) :
    t.rename σ = t.rename τ := by
  simp only [vars, List.mem_append] at h
  simp only [rename, PatternTerm.rename_congr fun x hx => h x (.inl (.inl hx)),
    IriOrVar.rename_congr fun x hx => h x (.inl (.inr hx)),
    PatternTerm.rename_congr fun x hx => h x (.inr hx)]

theorem rename_id (t : TriplePattern) : t.rename id = t := by
  simp only [rename, PatternTerm.rename_id, IriOrVar.rename_id]

end TriplePattern

namespace Pattern

/-- Renames variables wherever they are named. -/
def rename (σ : String → String) : Pattern → Pattern
  | bgp triples => bgp (triples.map (·.rename σ))
  | path subject object => path (subject.rename σ) (object.rename σ)
  | join left right => join (left.rename σ) (right.rename σ)
  | leftJoin left right => leftJoin (left.rename σ) (right.rename σ)
  | union left right => union (left.rename σ) (right.rename σ)
  | minus left right => minus (left.rename σ) (right.rename σ)
  | filter inner => filter (inner.rename σ)
  | graph name inner => graph (name.rename σ) (inner.rename σ)
  | extend inner name => extend (inner.rename σ) (σ name)
  | values vars => values (vars.map σ)
  | orderBy inner => orderBy (inner.rename σ)
  | distinct inner => distinct (inner.rename σ)
  | reduced inner => reduced (inner.rename σ)
  | slice inner => slice (inner.rename σ)
  | project inner vars => project (inner.rename σ) (vars.map σ)
  | group inner vars aggregates => group (inner.rename σ) (vars.map σ) (aggregates.map σ)
  | service name inner => service (name.rename σ) (inner.rename σ)

/-- All variables that are named somewhere in a pattern. -/
def names : Pattern → List String
  | bgp triples => triples.flatMap TriplePattern.vars
  | path subject object => subject.vars ++ object.vars
  | join left right | leftJoin left right | union left right | minus left right =>
    left.names ++ right.names
  | filter inner | orderBy inner | distinct inner | reduced inner | slice inner => inner.names
  | graph name inner | service name inner => name.vars ++ inner.names
  | extend inner name => name :: inner.names
  | values vars => vars
  | project inner vars => vars ++ inner.names
  | group inner vars aggregates => vars ++ aggregates ++ inner.names

theorem mem_names_of_mem_bound {p : Pattern} {x : String} (h : x ∈ p.bound) : x ∈ p.names := by
  induction p with
  | bgp triples => exact h
  | join left right ihl ihr =>
    rcases List.mem_append.1 h with h | h
    · exact List.mem_append_left _ (ihl h)
    · exact List.mem_append_right _ (ihr h)
  | distinct inner ih => exact ih h
  | reduced inner ih => exact ih h
  | orderBy inner ih => exact ih h
  | project inner vars ih => exact List.mem_append_right _ (ih (List.mem_filter.1 h).1)
  | service name inner ih => exact List.mem_append_right _ (ih h)
  | _ => simp [bound] at h

theorem rename_congr {p : Pattern} (h : ∀ x ∈ p.names, σ x = τ x) : p.rename σ = p.rename τ := by
  have hlist {l : List String} (hl : ∀ x ∈ l, σ x = τ x) : l.map σ = l.map τ :=
    List.map_congr_left hl
  induction p with
  | bgp triples =>
    refine congrArg bgp (List.map_congr_left fun t ht => TriplePattern.rename_congr fun x hx => ?_)
    exact h x (List.mem_flatMap.2 ⟨t, ht, hx⟩)
  | path subject object =>
    simp only [names, List.mem_append] at h
    simp only [rename, PatternTerm.rename_congr fun x hx => h x (.inl hx),
      PatternTerm.rename_congr fun x hx => h x (.inr hx)]
  | join left right ihl ihr | leftJoin left right ihl ihr | union left right ihl ihr
  | minus left right ihl ihr =>
    simp only [names, List.mem_append] at h
    simp only [rename, ihl fun x hx => h x (.inl hx), ihr fun x hx => h x (.inr hx)]
  | filter inner ih | orderBy inner ih | distinct inner ih | reduced inner ih | slice inner ih =>
    simp only [rename, ih h]
  | graph name inner ih | service name inner ih =>
    simp only [names, List.mem_append] at h
    simp only [rename, IriOrVar.rename_congr fun x hx => h x (.inl hx),
      ih fun x hx => h x (.inr hx)]
  | extend inner name ih =>
    simp only [rename, h name List.mem_cons_self, ih fun x hx => h x (List.mem_cons_of_mem _ hx)]
  | values vars => exact congrArg values (hlist h)
  | project inner vars ih =>
    simp only [names, List.mem_append] at h
    simp only [rename, hlist fun x hx => h x (.inl hx), ih fun x hx => h x (.inr hx)]
  | group inner vars aggregates ih =>
    simp only [names, List.mem_append] at h
    simp only [rename, hlist fun x hx => h x (.inl (.inl hx)),
      hlist fun x hx => h x (.inl (.inr hx)), ih fun x hx => h x (.inr hx)]

theorem rename_id (p : Pattern) : p.rename id = p := by
  have htriples (l : List TriplePattern) : l.map (·.rename id) = l := by
    simp only [TriplePattern.rename_id, List.map_id']
  induction p <;> simp_all [rename, PatternTerm.rename_id, IriOrVar.rename_id]

theorem splitProjection_rename (p : Pattern) : (p.rename σ).splitProjection =
    (p.splitProjection.1.map (·.map σ), p.splitProjection.2.rename σ) := by
  fun_induction Pattern.splitProjection p with
  | case1 inner ih => exact ih
  | case2 inner ih => exact ih
  | case3 inner ih => exact ih
  | case4 inner vars => rfl
  | case5 p h1 h2 h3 h4 =>
    cases p <;> simp_all [rename, splitProjection]

end Pattern

end QueryContainment
