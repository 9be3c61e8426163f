namespace QueryContainment.Distinct

theorem eq_of_nodup_map {α β : Type} {f : α → β} {l : List α} (h : (l.map f).Nodup) {a b : α}
    (ha : a ∈ l) (hb : b ∈ l) (he : f a = f b) : a = b := by
  induction l with
  | nil => simp at ha
  | cons c l ih =>
    obtain ⟨hc, hl⟩ := List.nodup_cons.1 h
    have hout (x : α) (hx : x ∈ l) : f c ≠ f x := fun hf => hc (hf ▸ List.mem_map_of_mem hx)
    rcases List.mem_cons.1 ha with rfl | ha' <;> rcases List.mem_cons.1 hb with rfl | hb'
    · rfl
    · exact absurd he (hout b hb')
    · exact absurd he.symm (hout a ha')
    · exact ih hl ha' hb'

variable {α : Type} [DecidableEq α]

/-- Adds an element at the end, unless it is there already. -/
def add (l : List α) (a : α) : List α := if a ∈ l then l else l ++ [a]

def addAll (l new : List α) : List α := new.foldl add l

/-- Keeps the first occurrence of each element. -/
def ofList (l : List α) : List α := addAll [] l

theorem mem_add {l : List α} {a b : α} : b ∈ add l a ↔ b ∈ l ∨ b = a := by
  unfold add
  split
  · exact ⟨.inl, fun h => h.elim id fun h => h ▸ ‹a ∈ l›⟩
  · simp

theorem nodup_add {l : List α} (h : l.Nodup) (a : α) : (add l a).Nodup := by
  unfold add
  split
  · exact h
  next ha =>
    refine List.nodup_append.2 ⟨h, by simp, fun b hb c hc he => ha ?_⟩
    rwa [← List.mem_singleton.1 hc, ← he]

theorem mem_addAll {l new : List α} {b : α} : b ∈ addAll l new ↔ b ∈ l ∨ b ∈ new := by
  induction new generalizing l with
  | nil => simp [addAll]
  | cons a new ih =>
    have := ih (l := add l a)
    simp only [addAll, List.foldl_cons] at this ⊢
    simp [this, mem_add, or_assoc]

theorem nodup_addAll {l : List α} (h : l.Nodup) (new : List α) : (addAll l new).Nodup := by
  induction new generalizing l with
  | nil => exact h
  | cons a new ih => exact ih (nodup_add h a)

theorem addAll_append (l new new' : List α) :
    addAll l (new ++ new') = addAll (addAll l new) new' :=
  List.foldl_append

/-- What is there already is not added again. -/
theorem addAll_eq_self {l new : List α} (h : ∀ a ∈ new, a ∈ l) : addAll l new = l := by
  induction new with
  | nil => rfl
  | cons a new ih =>
    have ha : add l a = l := if_pos (h a List.mem_cons_self)
    show addAll (add l a) new = l
    rw [ha]
    exact ih fun b hb => h b (List.mem_cons_of_mem _ hb)

theorem mem_ofList {l : List α} {b : α} : b ∈ ofList l ↔ b ∈ l := by
  simp [ofList, mem_addAll]

theorem nodup_ofList (l : List α) : (ofList l).Nodup := nodup_addAll .nil l

end QueryContainment.Distinct
