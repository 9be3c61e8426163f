import Mathlib.Order.Bounds.Defs
import Mathlib.Order.Interval.Finset.Nat
import QueryContainment.Naming.Table

namespace QueryContainment.Naming

variable {base name : String} {taken after : Finset String} {n N tried : Nat}

/--
The search from a suffix on: the name that it ends with, the names that are taken then, and how many
suffixes it has tried.
-/
inductive Search (base : String) (taken : Finset String) :
    Nat → String → Finset String → Nat → Prop
  | found {n : Nat} (free : numbered base n ∉ taken) :
    Search base taken n (numbered base n) (insert (numbered base n) taken) 1
  | next {n : Nat} {name : String} {after : Finset String} {tried : Nat}
    (occupied : numbered base n ∈ taken) (later : Search base taken (n + 1) name after tried) :
    Search base taken n name after (tried + 1)

/-- How a name is claimed for a base, with the same outcomes. -/
inductive Claimed (base : String) (taken : Finset String) : String → Finset String → Nat → Prop
  | free (free : base ∉ taken) : Claimed base taken base (insert base taken) 0
  | numbered {name : String} {after : Finset String} {tried : Nat} (occupied : base ∈ taken)
    (search : Search base taken 1 name after tried) : Claimed base taken name after tried

theorem Search.unique {name' : String} {after' : Finset String} {tried' : Nat}
    (h : Search base taken n name after tried) (h' : Search base taken n name' after' tried') :
    name' = name ∧ after' = after ∧ tried' = tried := by
  induction h generalizing tried' with
  | found free =>
    cases h' with
    | found => exact ⟨rfl, rfl, rfl⟩
    | next occupied => exact absurd occupied free
  | next occupied later ih =>
    cases h' with
    | found free => exact absurd occupied free
    | next _ later' =>
      obtain ⟨rfl, rfl, rfl⟩ := ih later'
      exact ⟨rfl, rfl, rfl⟩

theorem Claimed.unique {name' : String} {after' : Finset String} {tried' : Nat}
    (h : Claimed base taken name after tried) (h' : Claimed base taken name' after' tried') :
    name' = name ∧ after' = after ∧ tried' = tried := by
  cases h with
  | free free =>
    cases h' with
    | free => exact ⟨rfl, rfl, rfl⟩
    | numbered occupied => exact absurd occupied free
  | numbered occupied search =>
    cases h' with
    | free free => exact absurd occupied free
    | numbered _ search' => exact search.unique search'

theorem search_of_occupied (hfree : numbered base N ∉ taken) {d : Nat} (hN : n + d = N)
    (hoccupied : ∀ m, n ≤ m → m < N → numbered base m ∈ taken) :
    Search base taken n (numbered base N) (insert (numbered base N) taken) (d + 1) := by
  induction d generalizing n with
  | zero =>
    obtain rfl : n = N := hN
    exact .found hfree
  | succ d ih =>
    exact .next (hoccupied n (Nat.le_refl n) (by omega))
      (ih (by omega) fun m hm => hoccupied m (by omega))

theorem numbered_ne_base (base : String) (n : Nat) : numbered base n ≠ base := by
  intro h
  have hlength := congrArg String.length h
  have hmark : "_".length = 1 := rfl
  rw [numbered, String.length_append, String.length_append] at hlength
  omega

/-- Where the base and all names before a suffix are taken, these are as many as the suffix says. -/
theorem suffix_le_card (hbase : base ∈ taken)
    (hoccupied : ∀ m, 1 ≤ m → m < N → numbered base m ∈ taken) : N ≤ taken.card := by
  have hsub : (Finset.Ico 1 N).image (numbered base) ⊆ taken.erase base := by
    intro name hname
    obtain ⟨m, hm, rfl⟩ := Finset.mem_image.1 hname
    obtain ⟨hpos, hlt⟩ := Finset.mem_Ico.1 hm
    exact Finset.mem_erase.2 ⟨numbered_ne_base base m, hoccupied m hpos hlt⟩
  have hinj : Function.Injective (numbered base) := fun _ _ => numbered_inj
  have hcard := Finset.card_le_card hsub
  rw [Finset.card_image_of_injective _ hinj, Nat.card_Ico, Finset.card_erase_of_mem hbase] at hcard
  have hpos := Finset.card_pos.2 ⟨base, hbase⟩
  omega

/-- How many suffixes are tried for a fresh name, the last of which is the one it gets. -/
def Tried (base : String) (taken : List String) (tried : Nat) : Prop :=
  base ∉ taken ∧ tried = 0 ∧ fresh taken base = base ∨
    base ∈ taken ∧ IsLeast {m | 1 ≤ m ∧ numbered base m ∉ taken} tried ∧
      fresh taken base = numbered base tried

theorem exists_tried (base : String) (taken : List String) : ∃ tried, Tried base taken tried := by
  by_cases hbase : base ∈ taken
  · obtain ⟨N, hpos, -, hname, hfree, hoccupied⟩ := fresh_of_mem hbase
    refine ⟨N, .inr ⟨hbase, ⟨⟨hpos, hfree⟩, fun m hm => ?_⟩, hname⟩⟩
    by_contra hlt
    exact hm.2 (hoccupied m hm.1 (Nat.lt_of_not_le hlt))
  · exact ⟨0, .inl ⟨hbase, rfl, fresh_of_not_mem hbase⟩⟩

theorem Tried.claimed {taken : List String} (h : Tried base taken tried) :
    Claimed base taken.toFinset (fresh taken base)
      (insert (fresh taken base) taken.toFinset) tried ∧ tried ≤ taken.toFinset.card := by
  rcases h with ⟨hbase, rfl, hname⟩ | ⟨hbase, hleast, hname⟩
  · rw [hname]
    exact ⟨.free fun hmem => hbase (List.mem_toFinset.1 hmem), Nat.zero_le _⟩
  · obtain ⟨⟨hpos, hfree⟩, hmin⟩ := hleast
    have hbase' : base ∈ taken.toFinset := List.mem_toFinset.2 hbase
    have hfree' : numbered base tried ∉ taken.toFinset := fun hmem =>
      hfree (List.mem_toFinset.1 hmem)
    have hoccupied (m : Nat) (hm : 1 ≤ m) (hlt : m < tried) :
        numbered base m ∈ taken.toFinset := by
      by_contra hnot
      exact Nat.not_le_of_lt hlt (hmin ⟨hm, fun hmem => hnot (List.mem_toFinset.2 hmem)⟩)
    have hsearch := search_of_occupied hfree' (Nat.add_sub_cancel' hpos) hoccupied
    rw [Nat.sub_add_cancel hpos] at hsearch
    rw [hname]
    exact ⟨.numbered hbase' hsearch, suffix_le_card hbase' hoccupied⟩

theorem claimed_add {n : Naming} {t : Term} (h : n.symbol? t = none) :
    ∃ tried, Claimed (n.baseName t) n.taken.toFinset (n.symbol t).name
      (n.add t).taken.toFinset tried := by
  obtain ⟨tried, htried⟩ := exists_tried (n.baseName t) n.taken
  have hadd : (n.add t).taken.toFinset =
      insert (fresh n.taken (n.baseName t)) n.taken.toFinset := by
    rw [add, if_neg (by simp [h]), taken, taken, symbol_kind_of_new h]
    simp [taken, Finset.insert_comm]
  rw [symbol_kind_of_new h, hadd]
  exact ⟨tried, htried.claimed.1⟩

/--
For every finite set of taken names and every base, claiming a name ends, after no more suffixes
than there are names taken, and with one outcome only. The name is the base if that is free, and
else the base with the least suffix from 1 on that makes it free; it was not taken, and all that
changes is that it is taken now. The table of symbols claims a name in this way for each term that
it meets for the first time, and for no other.
-/
theorem claimed_iff (taken : List String) (base : String) :
    (∃ tried ≤ taken.toFinset.card, Tried base taken tried ∧
      ∀ name after k, Claimed base taken.toFinset name after k ↔
        name = fresh taken base ∧ after = insert (fresh taken base) taken.toFinset ∧ k = tried) ∧
    fresh taken base ∉ taken ∧
    ∀ (n : Naming) (t : Term), (n.symbol? t).isSome ∧ n.add t = n ∨
      (n.symbol? t).isNone ∧ ∃ tried, Claimed (n.baseName t) n.taken.toFinset (n.symbol t).name
        (n.add t).taken.toFinset tried := by
  refine ⟨?_, fresh_not_mem taken base, fun n t => ?_⟩
  · obtain ⟨tried, htried⟩ := exists_tried base taken
    obtain ⟨hclaimed, hcard⟩ := htried.claimed
    refine ⟨tried, hcard, htried, fun name after k => ⟨hclaimed.unique, ?_⟩⟩
    rintro ⟨rfl, rfl, rfl⟩
    exact hclaimed
  · cases h : n.symbol? t with
    | some s => exact .inl ⟨rfl, by rw [add, if_pos (by simp [h])]⟩
    | none => exact .inr ⟨rfl, claimed_add h⟩

/-- The first suffixes may be taken by names that were claimed for other bases. -/
example : fresh ["a", "a_1_1", "a_2", "a_1"] "a" = "a_3" := by decide

end QueryContainment.Naming
