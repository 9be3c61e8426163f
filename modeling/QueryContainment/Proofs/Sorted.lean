import Mathlib.Data.String.Basic
import Mathlib.Data.List.Sort
import QueryContainment.Conjunctive.Query

namespace QueryContainment

namespace Sorted

variable {a b : String} {l : List String}

theorem mem_insert : b ∈ insert (fun a b => decide (a < b)) a l ↔ b = a ∨ b ∈ l := by
  induction l with
  | nil => simp [insert]
  | cons c l ih =>
    simp only [insert, decide_eq_true_eq]
    split
    · exact List.mem_cons
    · split
      · rw [List.mem_cons, ih, List.mem_cons]
        exact or_left_comm
      · next hac hca =>
        obtain rfl : a = c := String.le_antisymm (String.not_lt.1 hca) (String.not_lt.1 hac)
        simp

theorem pairwise_insert (h : l.Pairwise (· < ·)) :
    (insert (fun a b => decide (a < b)) a l).Pairwise (· < ·) := by
  induction l with
  | nil => exact List.pairwise_singleton _ _
  | cons c l ih =>
    obtain ⟨hc, hl⟩ := List.pairwise_cons.1 h
    simp only [insert, decide_eq_true_eq]
    split
    · next hac =>
      exact List.pairwise_cons.2 ⟨List.forall_mem_cons.2 ⟨hac, fun b hb => hac.trans (hc b hb)⟩, h⟩
    · split
      · next hca =>
        refine List.pairwise_cons.2 ⟨fun b hb => ?_, ih hl⟩
        rcases mem_insert.1 hb with rfl | hb
        · exact hca
        · exact hc b hb
      · exact h

theorem mem_strings : a ∈ strings l ↔ a ∈ l := by
  have hfold (sorted : List String) :
      a ∈ l.foldl (fun sorted a => insert (fun a b => decide (a < b)) a sorted) sorted ↔
        a ∈ l ∨ a ∈ sorted := by
    induction l generalizing sorted with
    | nil => simp
    | cons b l ih =>
      rw [List.foldl_cons, ih, mem_insert, List.mem_cons]
      tauto
  exact (hfold []).trans (by simp)

theorem pairwise_strings (l : List String) : (strings l).Pairwise (· < ·) := by
  have hfold (sorted : List String) (h : sorted.Pairwise (· < ·)) : (l.foldl
      (fun sorted a => insert (fun a b => decide (a < b)) a sorted) sorted).Pairwise (· < ·) := by
    induction l generalizing sorted with
    | nil => exact h
    | cons b l ih => exact ih _ (pairwise_insert h)
  exact hfold [] .nil

end Sorted

theorem ConjunctiveQuery.mem_vars {α : Type} {q : ConjunctiveQuery α} {x : String} :
    x ∈ q.vars ↔ x ∈ q.answer ++ q.other := Sorted.mem_strings

end QueryContainment
