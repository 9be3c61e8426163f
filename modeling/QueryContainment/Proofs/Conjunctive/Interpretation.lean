import QueryContainment.Proofs.Conjunctive.Homomorphism

namespace QueryContainment

open Naming

variable {n : Naming} {sub sup : ConjunctiveQuery Symbol} {δ : Type}

/-- A domain with a relation between subject, predicate, object and graph. -/
structure Interpretation (δ : Type) where
  holds : δ → δ → δ → δ → Prop
  defaultGraph : δ
  /-- The values of IRIs and literals. -/
  constant : Symbol → δ

namespace Interpretation

/-- The atoms that hold, where no graph stands for the default graph. -/
def facts (I : Interpretation δ) : Set (Atom δ) :=
  {a | I.holds a.subject a.predicate a.object (a.graph.getD I.defaultGraph)}

/-- The IRIs and literals of a table and the default graph are different elements. -/
structure UniqueNames (I : Interpretation δ) (n : Naming) : Prop where
  constants : ∀ e ∈ n.entries, ∀ e' ∈ n.entries, e.2.isVar = false → e'.2.isVar = false →
    I.constant e.2 = I.constant e'.2 → e.2 = e'.2
  defaultGraph : ∀ e ∈ n.entries, e.2.isVar = false → I.constant e.2 ≠ I.defaultGraph

end Interpretation

namespace ConjunctiveQuery

def Extends (q : ConjunctiveQuery Symbol) (n : Naming) (I : Interpretation δ) (α : String → δ) :
    Prop :=
  ∃ v : Symbol → δ, (∀ s, s.isVar = false → v s = I.constant s) ∧
    (∀ x ∈ q.answer, v (n.symbol (.var x)) = α x) ∧ q.SatisfiedBy I.facts v

/-- In every interpretation with unique names, each answer of `sub` is an answer of `sup`. -/
def Entails (n : Naming) (sub sup : ConjunctiveQuery Symbol) : Prop :=
  ∀ (δ : Type) (I : Interpretation δ), I.UniqueNames n →
    ∀ α : String → δ, sub.Extends n I α → sup.Extends n I α

def canonical (q : ConjunctiveQuery Symbol) : Interpretation (Option Symbol) where
  holds s p o g := ∃ a ∈ q.atoms, s = some a.subject ∧ p = some a.predicate ∧ o = some a.object ∧
    g = a.graph
  defaultGraph := none
  constant := some

theorem uniqueNames_canonical (q : ConjunctiveQuery Symbol) : q.canonical.UniqueNames n :=
  ⟨fun _ _ _ _ _ _ h => Option.some.inj h, fun _ _ _ => Option.some_ne_none _⟩

theorem map_some_mem_canonical {q : ConjunctiveQuery Symbol} {a : Atom Symbol} (ha : a ∈ q.atoms) :
    a.map some ∈ q.canonical.facts := by
  refine ⟨a, ha, rfl, rfl, rfl, ?_⟩
  cases hg : a.graph <;> simp [Atom.map, hg, canonical]

theorem exists_map_some {q : ConjunctiveQuery Symbol} {a : Atom Symbol}
    {v : Symbol → Option Symbol} (hgraph : ∀ g, a.graph = some g → v g = some g)
    (h : a.map v ∈ q.canonical.facts) : ∃ b ∈ q.atoms, a.map v = b.map some := by
  obtain ⟨b, hb, hs, hp, ho, hg⟩ := h
  refine ⟨b, hb, ?_⟩
  obtain ⟨s, p, o, g⟩ := a
  have hbg : g.map v = b.graph.map some := by
    cases g with
    | none =>
      rw [← hg]
      rfl
    | some g =>
      have hvg := hgraph g rfl
      rw [← hg]
      simp [Atom.map, hvg]
  simp only [Atom.map] at hs hp ho ⊢
  rw [hs, hp, ho, hbg]

theorem Entails.exists_mapped (hn : n.WellFormed) (hsub : sub.NamedBy n) (hsup : sup.NamedBy n)
    (h : Entails n sub sup) : ∃ f, Mapped n sub sup f := by
  have hextends : sub.Extends n sub.canonical fun x => some (n.symbol (.var x)) :=
    ⟨some, fun _ _ => rfl, fun _ _ => rfl, fun a ha => map_some_mem_canonical ha⟩
  -- the super-query then holds of the symbols of the sub-query as well
  obtain ⟨v, hground, hanswer, hatoms⟩ := h _ _ (uniqueNames_canonical sub) _ hextends
  refine ⟨_, mapped_thawed hn hsub hsup ⟨fun _ _ _ _ => Option.some.inj, fun e _ => hground e.2⟩
    hanswer fun a ha => exists_map_some (fun g hg => hground g ?_) (hatoms a ha)⟩
  simp [Symbol.isVar, hsup.graph_kind a ha g hg]

theorem Mapped.entails {f : Symbol → Symbol} (hf : Mapped n sub sup f)
    (hsame : sub.sameAnswer sup) : Entails n sub sup := by
  rintro δ I - α ⟨v, hground, hanswer, hatoms⟩
  refine ⟨v ∘ f, fun s hs => ?_, fun x hx => ?_, hf.satisfiedBy hatoms⟩
  · rw [Function.comp_apply, hf.ground s hs, hground s hs]
  · rw [Function.comp_apply, hf.answer x hx, hanswer x ((sameAnswer_iff.1 hsame x).2 hx)]

end ConjunctiveQuery

end QueryContainment
