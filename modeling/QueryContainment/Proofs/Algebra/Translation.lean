import Mathlib.Data.List.Basic
import QueryContainment.Algebra.Walk
import QueryContainment.Conjunctive.Depth

namespace QueryContainment

/-- What each kind of name is replaced with. -/
structure Translation where
  iri : String → String
  literal : Literal → Literal
  var : String → String
  blank : String → String

/-- No two names of a kind are merged. -/
structure Translation.Injective (τ : Translation) : Prop where
  iri : Function.Injective τ.iri
  literal : Function.Injective τ.literal
  var : Function.Injective τ.var
  blank : Function.Injective τ.blank

variable {τ : Translation}

theorem contains_map {α β : Type} [BEq α] [LawfulBEq α] [BEq β] [LawfulBEq β] {f : α → β}
    (hf : Function.Injective f) (l : List α) (a : α) :
    (l.map f).contains (f a) = l.contains a := by
  rw [Bool.eq_iff_iff, List.contains_iff_mem, List.contains_iff_mem, List.mem_map_of_injective hf]

/-- In a list of pairs, the value under a key is found under the key's image. -/
theorem lookup_map {α β γ δ : Type} [BEq α] [LawfulBEq α] [BEq β] [LawfulBEq β] {f : α → β}
    (hf : Function.Injective f) (g : γ → δ) (l : List (α × γ)) (a : α) :
    (l.map (Prod.map f g)).lookup (f a) = (l.lookup a).map g := by
  induction l with
  | nil => rfl
  | cons e l ih =>
    obtain ⟨b, c⟩ := e
    have hkey : (f a == f b) = (a == b) := by
      rw [Bool.eq_iff_iff, beq_iff_eq, beq_iff_eq, hf.eq_iff]
    rw [List.map_cons, Prod.map_apply, List.lookup_cons, List.lookup_cons, hkey]
    cases a == b with
    | true => rfl
    | false => exact ih

def Term.translate (τ : Translation) : Term → Term
  | .iri value => .iri (τ.iri value)
  | .literal value => .literal (τ.literal value)
  | .var name => .var (τ.var name)
  | .blank label => .blank (τ.blank label)

def IriOrVar.translate (τ : Translation) : IriOrVar → IriOrVar
  | .iri value => .iri (τ.iri value)
  | .var name => .var (τ.var name)

def PatternTerm.translate (τ : Translation) : PatternTerm → PatternTerm
  | .iri value => .iri (τ.iri value)
  | .literal value => .literal (τ.literal value)
  | .var name => .var (τ.var name)
  | .blank label => .blank (τ.blank label)
  | .quoted subject predicate object =>
    .quoted (subject.translate τ) (predicate.translate τ) (object.translate τ)

def TriplePattern.translate (τ : Translation) (t : TriplePattern) : TriplePattern :=
  ⟨t.subject.translate τ, t.predicate.translate τ, t.object.translate τ⟩

theorem Term.translate_injective (hτ : τ.Injective) : Function.Injective (Term.translate τ) := by
  intro t u h
  cases t <;> cases u <;>
    simp_all [translate, hτ.iri.eq_iff, hτ.literal.eq_iff, hτ.var.eq_iff, hτ.blank.eq_iff]

theorem Term.ofIriOrVar_translate (p : IriOrVar) :
    Term.ofIriOrVar (p.translate τ) = (Term.ofIriOrVar p).translate τ := by
  cases p <;> rfl

theorem IriOrVar.vars_translate (p : IriOrVar) : (p.translate τ).vars = p.vars.map τ.var := by
  cases p <;> rfl

theorem PatternTerm.vars_translate (p : PatternTerm) :
    (p.translate τ).vars = p.vars.map τ.var := by
  induction p with
  | quoted subject predicate object ihs iho =>
    simp only [translate, vars, ihs, iho, IriOrVar.vars_translate, List.map_append]
  | _ => rfl

theorem TriplePattern.vars_translate (t : TriplePattern) :
    (t.translate τ).vars = t.vars.map τ.var := by
  simp only [translate, vars, PatternTerm.vars_translate, IriOrVar.vars_translate, List.map_append]

def Rejection.translate (τ : Translation) : Rejection → Rejection
  | .quotedTriple triple => .quotedTriple (triple.translate τ)
  | .unsupported construct => .unsupported construct
  | .variableEndpoint name => .variableEndpoint (τ.var name)

theorem Term.ofPattern_translate (p : PatternTerm) : Term.ofPattern (p.translate τ) =
    ((Term.ofPattern p).map (Term.translate τ)).mapError (Rejection.translate τ) := by
  cases p <;> rfl

theorem TriplePattern.terms_translate (t : TriplePattern) : (t.translate τ).terms =
    (t.terms.map (·.map (Term.translate τ))).mapError (Rejection.translate τ) := by
  unfold terms
  simp only [translate, Term.ofPattern_translate, Term.ofIriOrVar_translate]
  cases Term.ofPattern t.subject with
  | error reason => rfl
  | ok subject => cases Term.ofPattern t.object <;> rfl

namespace Pattern

def translate (τ : Translation) : Pattern → Pattern
  | bgp triples => bgp (triples.map (·.translate τ))
  | path subject object => path (subject.translate τ) (object.translate τ)
  | join left right => join (left.translate τ) (right.translate τ)
  | leftJoin left right => leftJoin (left.translate τ) (right.translate τ)
  | union left right => union (left.translate τ) (right.translate τ)
  | minus left right => minus (left.translate τ) (right.translate τ)
  | filter inner => filter (inner.translate τ)
  | graph name inner => graph (name.translate τ) (inner.translate τ)
  | extend inner name => extend (inner.translate τ) (τ.var name)
  | values vars => values (vars.map τ.var)
  | orderBy inner => orderBy (inner.translate τ)
  | distinct inner => distinct (inner.translate τ)
  | reduced inner => reduced (inner.translate τ)
  | slice inner => slice (inner.translate τ)
  | project inner vars => project (inner.translate τ) (vars.map τ.var)
  | group inner vars aggregates =>
    group (inner.translate τ) (vars.map τ.var) (aggregates.map τ.var)
  | service name inner => service (name.translate τ) (inner.translate τ)

theorem inScope_translate (p : Pattern) : (p.translate τ).inScope = p.inScope.map τ.var := by
  have htriples (l : List TriplePattern) :
      (l.map (·.translate τ)).flatMap TriplePattern.vars =
        (l.flatMap TriplePattern.vars).map τ.var := by
    simp only [List.flatMap_map, List.map_flatMap, TriplePattern.vars_translate]
  induction p <;>
    simp_all [translate, inScope, PatternTerm.vars_translate, IriOrVar.vars_translate]

theorem dropsVariable_translate (hτ : τ.Injective) (p : Pattern) :
    (p.translate τ).dropsVariable = p.dropsVariable := by
  induction p with
  | distinct inner ih => exact ih
  | reduced inner ih => exact ih
  | orderBy inner ih => exact ih
  | slice inner ih => exact ih
  | project inner vars ih =>
    simp only [translate, dropsVariable, inScope_translate, List.any_map, Function.comp_def,
      contains_map hτ.var]
  | _ => rfl

theorem splitProjection_translate (p : Pattern) : (p.translate τ).splitProjection =
    (p.splitProjection.1.map (·.map τ.var), p.splitProjection.2.translate τ) := by
  fun_induction Pattern.splitProjection p with
  | case1 inner ih => exact ih
  | case2 inner ih => exact ih
  | case3 inner ih => exact ih
  | case4 inner vars => rfl
  | case5 p h1 h2 h3 h4 =>
    cases p <;> simp_all [translate, splitProjection]

end Pattern

def Query.translate (τ : Translation) (q : Query) : Query :=
  { q with pattern := q.pattern.translate τ }

theorem Query.dropsVariable_translate (hτ : τ.Injective) (q : Query) :
    (q.translate τ).dropsVariable = q.dropsVariable :=
  q.pattern.dropsVariable_translate hτ

end QueryContainment
