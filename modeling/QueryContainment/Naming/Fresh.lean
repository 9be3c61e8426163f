namespace QueryContainment.Naming

def numbered (base : String) (n : Nat) : String := base ++ "_" ++ toString n

/--
A name that is free: the given one, or that with the least suffix, counted from 1, that makes it
free. Of one more suffixes than there are taken names at least one is free.
-/
def fresh (taken : List String) (base : String) : String :=
  if base ∈ taken then
    match (List.range' 1 (taken.length + 1)).find? (fun n => numbered base n ∉ taken) with
    | some n => numbered base n
    | none => base
  else base

theorem numbered_inj {base : String} {m n : Nat} (h : numbered base m = numbered base n) :
    m = n := by
  have hd := congrArg String.toList h
  simp only [numbered, String.toList_append, List.append_cancel_left_eq] at hd
  have hn := congrArg (fun ds => Nat.ofDigitChars 10 ds 0) hd
  simpa [Nat.toString_eq_ofList_toDigits] using hn

theorem exists_numbered_not_mem (base : String) (taken : List String) (ns : List Nat)
    (hn : ns.Nodup) (hl : taken.length < ns.length) : ∃ n ∈ ns, numbered base n ∉ taken := by
  induction ns generalizing taken with
  | nil => simp at hl
  | cons n ns ih =>
    by_cases h : numbered base n ∈ taken
    · have hlen := List.length_erase_of_mem h
      have hpos := List.length_pos_of_mem h
      have hl' : (taken.erase (numbered base n)).length < ns.length := by
        simp only [List.length_cons] at hl
        omega
      obtain ⟨m, hm, hfree⟩ := ih _ (List.nodup_cons.1 hn).2 hl'
      refine ⟨m, List.mem_cons_of_mem _ hm, fun hmem => hfree ?_⟩
      refine (List.mem_erase_of_ne fun he => ?_).2 hmem
      exact (List.nodup_cons.1 hn).1 (numbered_inj he ▸ hm)
    · exact ⟨n, List.mem_cons_self, h⟩

theorem fresh_of_not_mem {taken : List String} {base : String} (h : base ∉ taken) :
    fresh taken base = base := by
  simp [fresh, h]

theorem fresh_of_mem {taken : List String} {base : String} (h : base ∈ taken) :
    ∃ n, 1 ≤ n ∧ n ≤ taken.length + 1 ∧ fresh taken base = numbered base n ∧
      numbered base n ∉ taken ∧ ∀ m, 1 ≤ m → m < n → numbered base m ∈ taken := by
  obtain ⟨k, hk, hfree⟩ := exists_numbered_not_mem base taken (List.range' 1 (taken.length + 1))
    List.nodup_range' (by simp)
  cases hf : (List.range' 1 (taken.length + 1)).find? (fun n => numbered base n ∉ taken) with
  | none =>
    have := List.find?_eq_none.1 hf k hk
    simp [hfree] at this
  | some n =>
    obtain ⟨hp, i, hi, heq, hlt⟩ := List.find?_eq_some_iff_getElem.1 hf
    simp only [List.length_range'] at hi
    simp only [List.getElem_range', Nat.one_mul] at heq hlt
    have heq' : fresh taken base = numbered base n := by rw [fresh, if_pos h, hf]
    refine ⟨n, by omega, by omega, heq', by simpa using hp, fun m h1 hm => ?_⟩
    have := hlt (m - 1) (by omega)
    rw [show 1 + (m - 1) = m by omega] at this
    simpa using this

theorem fresh_not_mem (taken : List String) (base : String) : fresh taken base ∉ taken := by
  by_cases h : base ∈ taken
  · obtain ⟨n, -, -, heq, hfree, -⟩ := fresh_of_mem h
    rwa [heq]
  · rwa [fresh_of_not_mem h]

end QueryContainment.Naming
