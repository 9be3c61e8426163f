import Mathlib.Data.List.Nodup
import QueryContainment.Proofs.Conjunctive.Interpretation
import QueryContainment.Proofs.Smt.Reading

namespace QueryContainment

open Naming

namespace Smt

variable {n : Naming} {δ : Type}

namespace Script

variable {α : Type}

theorem declareAll_eq (s : Script α) (l : List Symbol) :
    s.declareAll l = ⟨Distinct.addAll s.declared l, s.assertions⟩ := by
  induction l generalizing s with
  | nil => rfl
  | cons x l ih => exact ih (s.declare x)

theorem foldl_declareAll (f : Atom Symbol → List Symbol) (atoms : List (Atom Symbol))
    (s : Script α) : atoms.foldl (fun s a => s.declareAll (f a)) s =
      ⟨Distinct.addAll s.declared (atoms.flatMap f), s.assertions⟩ := by
  induction atoms generalizing s with
  | nil => rfl
  | cons a atoms ih =>
    rw [List.foldl_cons, ih, declareAll_eq, List.flatMap_cons, Distinct.addAll_append]

/-- All symbols that are declared are in a table, and each is declared once. -/
structure DrawnFrom (n : Naming) (s : Script α) : Prop where
  named : ∀ x ∈ s.declared, ∃ t, (t, x) ∈ n.entries
  nodup : s.declared.Nodup

theorem DrawnFrom.mem_ground {s : Script α} (h : s.DrawnFrom n) {x : Symbol} (hx : x ∈ s.ground) :
    x.isVar = false ∧ ∃ t, (t, x) ∈ n.entries := by
  rcases List.mem_append.1 hx with hx | hx <;> obtain ⟨hd, hk⟩ := List.mem_filter.1 hx
  · exact ⟨by simp [Symbol.isVar, eq_of_beq hk], h.named x hd⟩
  · exact ⟨by simp [Symbol.isVar, eq_of_beq hk], h.named x hd⟩

theorem DrawnFrom.nodup_ground {s : Script α} (h : s.DrawnFrom n) : s.ground.Nodup := by
  refine List.nodup_append.2 ⟨h.nodup.filter _, h.nodup.filter _, fun x hx y hy he => ?_⟩
  have hiri : x.kind = .iri := eq_of_beq (List.mem_filter.1 hx).2
  have hliteral : y.kind = .literal := eq_of_beq (List.mem_filter.1 hy).2
  rw [← he, hiri] at hliteral
  cases hliteral

end Script

theorem plain_of_mem_entries (hn : n.Sound) {t : Term} {s : Symbol} (h : (t, s) ∈ n.entries) :
    s.Plain := fun c hc => .inl (hn.nameChars _ h c hc)

theorem text_inj {s t : Symbol} : s.text = t.text ↔ s.name = t.name := by
  simp [Symbol.text, String.append_assoc]

/-- Symbols of a table are told apart by their texts. -/
theorem eq_of_text_eq (hn : n.WellFormed) {t u : Term} {x y : Symbol} (hx : (t, x) ∈ n.entries)
    (hy : (u, y) ∈ n.entries) (h : x.text = y.text) : x = y := by
  obtain rfl : t = u := (name_eq_iff hn hx hy).1 (text_inj.1 h)
  exact (symbol_of_mem_entries hn hx).symm.trans (symbol_of_mem_entries hn hy)

theorem text_ne_defaultGraphText (hn : n.WellFormed) {t : Term} {x : Symbol}
    (hx : (t, x) ∈ n.entries) : x.text ≠ defaultGraphText := fun h =>
  name_ne_defaultGraph hn hx ((text_inj (t := ⟨.iri, defaultGraph⟩)).1 h)

theorem holds_atomFormula {I : Interpretation δ} {w : String → δ}
    (hw : w defaultGraphText = I.defaultGraph) (a : Atom Symbol) :
    (atomFormula a).Holds I.holds w ↔ a.map (fun s => w s.text) ∈ I.facts := by
  obtain ⟨s, p, o, g⟩ := a
  cases g with
  | none =>
    show I.holds _ _ _ (w defaultGraphText) ↔ I.holds _ _ _ I.defaultGraph
    rw [hw]
    exact Iff.rfl
  | some g => exact Iff.rfl

theorem holds_closed {P : δ → δ → δ → δ → Prop} {w : String → δ} {bound : List Symbol}
    {body : Formula} : (closed bound body).Holds P w ↔ ∃ w' : String → δ,
      (∀ name, name ∉ bound.map Symbol.text → w' name = w name) ∧ body.Holds P w' := by
  by_cases hempty : bound.isEmpty
  · rw [closed, if_pos hempty, List.isEmpty_iff.1 hempty]
    constructor
    · exact fun h => ⟨w, fun _ _ => rfl, h⟩
    · rintro ⟨w', hw', h⟩
      rwa [funext fun name => hw' name (by simp)] at h
  · rw [closed, if_neg hempty]
    exact Iff.rfl

/-- The value of the symbol that has a name. -/
def namedValue (n : Naming) (v : Symbol → δ) (d : δ) (name : String) : δ :=
  (n.entries.find? (·.2.text == name)).elim d (v ·.2)

theorem namedValue_text (hn : n.WellFormed) {e : Term × Symbol} (he : e ∈ n.entries)
    (v : Symbol → δ) (d : δ) : namedValue n v d e.2.text = v e.2 := by
  cases hf : n.entries.find? (·.2.text == e.2.text) with
  | none => exact absurd (List.find?_eq_none.1 hf e he) (by simp)
  | some e' =>
    have hname : e'.2.name = e.2.name := text_inj.1 (by simpa using List.find?_some hf)
    have hmem := List.mem_of_find?_eq_some hf
    have hsymbol := symbol_of_mem_entries hn hmem
    rw [(name_eq_iff hn hmem he).1 hname, symbol_of_mem_entries hn he] at hsymbol
    rw [namedValue, hf, Option.elim_some, hsymbol]

theorem namedValue_defaultGraph (hn : n.WellFormed) (v : Symbol → δ) (d : δ) :
    namedValue n v d defaultGraphText = d := by
  have hnone : n.entries.find? (·.2.text == defaultGraphText) = none := by
    refine List.find?_eq_none.2 fun e he heq => name_ne_defaultGraph hn he ?_
    exact (text_inj (t := ⟨.iri, defaultGraph⟩)).1 (eq_of_beq heq)
  rw [namedValue, hnone, Option.elim_none]

theorem map_namedValue (hn : n.WellFormed) {a : Atom Symbol}
    (ha : ∀ s ∈ a.toList, ∃ t, (t, s) ∈ n.entries) (v : Symbol → δ) (d : δ) :
    a.map (fun s => namedValue n v d s.text) = a.map v :=
  Atom.map_congr fun s hs => by
    obtain ⟨t, ht⟩ := ha s hs
    exact namedValue_text hn ht v d

/-- IRIs and literals are distinct where they have the values of an interpretation. -/
theorem distinctness_holds (hn : n.WellFormed) {s : Script Statement} (hs : s.DrawnFrom n)
    {I : Interpretation δ} (hI : I.UniqueNames n) {v : Symbol → δ}
    (hv : ∀ s, s.isVar = false → v s = I.constant s) :
    ∀ f ∈ s.distinctness, f.Holds I.holds (namedValue n v I.defaultGraph) := by
  intro f hf
  unfold Script.distinctness at hf
  split at hf
  · simp at hf
  · obtain rfl := List.mem_singleton.1 hf
    -- the names have the values of their symbols, and those are different elements
    have hvalue (x : Symbol) (hx : x ∈ s.ground) :
        (namedValue n v I.defaultGraph ∘ Symbol.text) x = I.constant x := by
      obtain ⟨hvar, t, ht⟩ := hs.mem_ground hx
      rw [Function.comp_apply, namedValue_text hn ht, hv x hvar]
    rw [Formula.Holds, List.map_cons, List.map_map, List.map_congr_left hvalue,
      namedValue_defaultGraph hn]
    refine List.nodup_cons.2 ⟨fun hmem => ?_,
      List.Nodup.map_on (fun x hx y hy he => ?_) hs.nodup_ground⟩
    · obtain ⟨x, hx, he⟩ := List.mem_map.1 hmem
      obtain ⟨hvar, t, ht⟩ := hs.mem_ground hx
      exact hI.defaultGraph _ ht hvar he
    · obtain ⟨hx, t, ht⟩ := hs.mem_ground hx
      obtain ⟨hy, t', ht'⟩ := hs.mem_ground hy
      exact hI.constants _ ht _ ht' hx hy he

end Smt

end QueryContainment
