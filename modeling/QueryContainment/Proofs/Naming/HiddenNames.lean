import QueryContainment.Proofs.Conjunctive.HiddenNames
import QueryContainment.Proofs.Conjunctive.NamedPair

namespace QueryContainment

open Naming ConjunctiveQuery

variable {n n' : Naming} {R : String → String → Prop} {σ : String → String} {x z : String}

open Classical in
noncomputable def recoded (R : String → String → Prop) (n n' : Naming) (s : Symbol) : Symbol :=
  if h : ∃ u, ∃ t, (t, s) ∈ n.entries ∧ t.Paired R u then n'.symbol h.choose else s

theorem recoded_eq (hn : n.WellFormed) (hR : Relator.RightUnique R) {t u : Term} {s : Symbol}
    (ht : (t, s) ∈ n.entries) (h : t.Paired R u) : recoded R n n' s = n'.symbol u := by
  have hex : ∃ u, ∃ t, (t, s) ∈ n.entries ∧ t.Paired R u := ⟨u, t, ht, h⟩
  obtain ⟨t', ht', hpaired⟩ := hex.choose_spec
  obtain rfl : t' = t := (name_eq_iff hn ht' ht).1 rfl
  rw [recoded, dif_pos hex, hpaired.right_unique hR h]

namespace ConjunctiveQuery

/--
The symbols of the one query are those of the other, renamed by `f`, which keeps different symbols
apart and symbols of one kind of that kind. A symbol of an IRI, a literal or a blank node becomes
one of the same term, and the variables are renamed by `σ`.
-/
structure RenamedBy (n n' : Naming) (σ : String → String) (f : Symbol → Symbol)
    (s s' : ConjunctiveQuery Symbol) : Prop where
  atoms : s'.atoms = s.atoms.map (·.map f)
  answer : s'.answer = s.answer.map σ
  other : s'.other = s.other.map σ
  injective : ∀ a ∈ s.atoms, ∀ u ∈ a.toList, ∀ b ∈ s.atoms, ∀ v ∈ b.toList, f u = f v → u = v
  kind : ∀ a ∈ s.atoms, ∀ u ∈ a.toList, (f u).kind = u.kind
  fixed : ∀ a ∈ s.atoms, ∀ u ∈ a.toList, ∀ t, (t, u) ∈ n.entries → (∀ y, t ≠ .var y) →
    (t, f u) ∈ n'.entries
  vars : ∀ y ∈ s.answer ++ s.other, f (n.symbol (.var y)) = n'.symbol (.var (σ y))

variable {r r' : ConjunctiveQuery Term} {s s' : ConjunctiveQuery Symbol}

/-- Each term is paired with a term of the other query, and both are in their tables. -/
theorem NamedFrom.exists_paired (hs : NamedFrom n r s) (hs' : NamedFrom n' r' s')
    (hatoms : List.Forall₂ (Atom.Paired R) r.atoms r'.atoms) {a : Atom Symbol} (ha : a ∈ s.atoms)
    {u : Symbol} (hu : u ∈ a.toList) : ∃ t t', (t, u) ∈ n.entries ∧ t.Paired R t' ∧
      (t', n'.symbol t') ∈ n'.entries := by
  rw [hs.eq_map, atoms_map] at ha
  obtain ⟨b, hb, rfl⟩ := List.mem_map.1 ha
  rw [Atom.toList_map] at hu
  obtain ⟨t, ht, rfl⟩ := List.mem_map.1 hu
  obtain ⟨b', hb', hpaired⟩ := exists_of_mem_forall₂ hatoms hb
  obtain ⟨t', ht', hterm⟩ := exists_of_mem_forall₂ hpaired.toList ht
  exact ⟨t, t', hs.mem_entries hb ht, hterm, hs'.mem_entries hb' ht'⟩

theorem kindOf_eq_of_paired {t t' : Term} (h : t.Paired R t') : kindOf t = kindOf t' := by
  cases h <;> rfl

theorem Renamed.exists_renamedBy (hn : n.Sound) (hn' : n'.Sound) (h : Renamed σ r r')
    (hs : NamedFrom n r s) (hs' : NamedFrom n' r' s') : ∃ f, RenamedBy n n' σ f s s' := by
  obtain ⟨R, hR, hvars, hatoms⟩ := h.exists_paired
  have hrecoded {t t' : Term} {u : Symbol} (ht : (t, u) ∈ n.entries) (hp : t.Paired R t') :
      recoded R n n' u = n'.symbol t' := recoded_eq hn.toWellFormed hR.2 ht hp
  have hpairs {a : Atom Symbol} (ha : a ∈ s.atoms) {u : Symbol} (hu : u ∈ a.toList) :=
    hs.exists_paired hs' hatoms ha hu
  refine ⟨recoded R n n', ?_, ?_, ?_, fun a ha u hu b hb v hv heq => ?_, fun a ha u hu => ?_,
    fun a ha u hu t ht hground => ?_, fun y hy => ?_⟩
  · have hmet : ∀ a ∈ r.atoms, ∀ t ∈ a.toList, (t, n.symbol t) ∈ n.entries :=
      fun _ ha _ ht => hs.mem_entries ha ht
    have hboth := (List.forall₂_and_left _ _).2 ⟨hmet, hatoms⟩
    rw [hs.eq_map, hs'.eq_map, atoms_map, atoms_map, List.map_map, ← List.forall₂_eq_eq_eq,
      List.forall₂_map_left_iff, List.forall₂_map_right_iff]
    refine hboth.flip.imp fun a' a ⟨ha, hp⟩ => ?_
    rw [Function.comp_apply, Atom.map_map]
    exact (hp.map_eq fun t ht t' _ hpaired => hrecoded (ha t ht) hpaired).symm
  · rw [hs.eq_map, hs'.eq_map, answer_map, answer_map, h.answer]
  · rw [hs.eq_map, hs'.eq_map, other_map, other_map, h.other]
  · obtain ⟨t, t', ht, hp, ht'⟩ := hpairs ha hu
    obtain ⟨w, w', hw, hq, hw'⟩ := hpairs hb hv
    rw [hrecoded ht hp, hrecoded hw hq] at heq
    have hsame : t' = w' := (name_eq_iff hn'.toWellFormed ht' hw').1 (congrArg Symbol.name heq)
    subst hsame
    obtain rfl := hp.left_unique hR.1 hq
    have hu : n.symbol t = u := symbol_of_mem_entries hn.toWellFormed ht
    have hv : n.symbol t = v := symbol_of_mem_entries hn.toWellFormed hw
    rw [← hu, ← hv]
  · obtain ⟨t, t', ht, hp, ht'⟩ := hpairs ha hu
    have hkind : u.kind = kindOf t := hn.kind_eq _ ht
    have hkind' : (n'.symbol t').kind = kindOf t' := hn'.kind_eq _ ht'
    rw [hrecoded ht hp, hkind, hkind', kindOf_eq_of_paired hp]
  · obtain ⟨w, w', hw, hp, hw'⟩ := hpairs ha hu
    obtain rfl : w = t := (name_eq_iff hn.toWellFormed hw ht).1 rfl
    have hsame : w' = w := by
      cases hp with
      | var hxy => exact absurd rfl (hground _)
      | _ => rfl
    rw [hrecoded hw hp, hsame]
    exact hsame ▸ hw'
  · rw [hs.eq_map, answer_map, other_map] at hy
    exact hrecoded (hs.var_mem_entries hy) (.var (hvars y hy))

end ConjunctiveQuery

/--
For a pattern whose names have no `#`, read after anything else: if in some of its sub-selects a
variable that they do not list is renamed to a new name, then the pattern is read as well. The
symbols and the variables are the same, but for a renaming that is one to one. So are those of what
an endpoint is sent, at every depth, unless the variable is used there under both names: then it is
hidden in one of two clauses that are joined for the endpoint, and is seen in the other.
-/
theorem readPattern_renamed (hn : n.Sound) {p p' : Pattern} (h : Pattern.RenamesHidden x z p p')
    (hp : p.PlainNames) (hz : '#' ∉ z.toList) (hfresh : z ∉ p.names)
    {s : ConjunctiveQuery Symbol} (hs : (n.readPattern p).1 = .ok s) : ∃ s',
      (n.readPattern p').1 = .ok s' ∧
      (∃ σ f, RenamedBy (n.readPattern p).2 (n.readPattern p').2 σ f s s') ∧
      ThroughoutServices (fun t t' =>
        (∃ σ f, RenamedBy (n.readPattern p).2 (n.readPattern p').2 σ f t t') ∨ Divided x z t t')
        s.services s'.services := by
  have hsound : (n.readPattern p).2.Sound := sound_apply hn (.pattern p)
  have hsound' : (n.readPattern p').2.Sound := sound_apply hn (.pattern p')
  obtain ⟨r, hr, heq⟩ := name_eq_ok hs
  obtain ⟨r', hr', ⟨σ, hroot⟩, hservices⟩ :=
    Flattened.exists_renamed h ⟨hp, hfresh⟩ hz hr n.scopes
  have hparts := namedFrom_of_wellDrawn (n := n) (Flattened.wellDrawn_ofPattern n.scopes p) hr
  have hparts' := namedFrom_of_wellDrawn (n := n) (Flattened.wellDrawn_ofPattern n.scopes p') hr'
  have hread' : (n.readPattern p').1 = .ok (r'.map (n.readPattern p').2.symbol) := by
    simp only [readPattern, name, hr', Except.map]
  refine ⟨_, hread', ⟨σ, ?_⟩, ?_⟩
  · rw [heq]
    exact hroot.exists_renamedBy hsound hsound' (hparts r r.self_mem_parts)
      (hparts' r' r'.self_mem_parts)
  · have hnamed := throughoutServices_named hparts hparts' hservices
    rw [heq]
    refine ThroughoutServices.imp_mem (fun t _ t' _ hpair => ?_) hnamed
    obtain ⟨a, a', ⟨τ, hrenamed⟩ | hdivided, ha, ha'⟩ := hpair
    · exact .inl ⟨τ, hrenamed.exists_renamedBy hsound hsound' ha ha'⟩
    · refine .inr ?_
      rw [ha.eq_map, ha'.eq_map]
      refine ⟨?_, ?_, ?_⟩
      · rw [answer_map, other_map]
        exact hdivided.unused
      · rw [other_map]
        exact hdivided.left
      · rw [other_map]
        exact hdivided.right

/-- Values of a property, beside subjects whose own values are hidden under the name `hidden`. -/
def hiddenBeside (hidden : String) : Pattern :=
  .join (.bgp [⟨.var "a", .iri "p", .var "x"⟩])
    (.project (.service (.iri "e") (.bgp [⟨.var "a", .iri "q", .var hidden⟩])) ["a"])

theorem hiddenBeside_renamed : ∃ s s',
    (Naming.empty.readPattern (hiddenBeside "x")).1 = .ok s ∧
    (Naming.empty.readPattern (hiddenBeside "y")).1 = .ok s' ∧
    ∃ σ f, RenamedBy (Naming.empty.readPattern (hiddenBeside "x")).2
      (Naming.empty.readPattern (hiddenBeside "y")).2 σ f s s' := by
  have hrenames : Pattern.RenamesHidden "x" "y" (hiddenBeside "x") (hiddenBeside "y") :=
    .join (.refl _) (.subSelect (.service (.iri "e") (.bgp [⟨.var "a", .iri "q", .var "x"⟩]))
      (by decide))
  have hplain : (hiddenBeside "x").PlainNames := by
    unfold Pattern.PlainNames
    decide
  obtain ⟨s, hs⟩ : ∃ s, (Naming.empty.readPattern (hiddenBeside "x")).1 = .ok s := ⟨_, rfl⟩
  obtain ⟨s', hs', hroot, -⟩ := readPattern_renamed sound_empty hrenames hplain (by decide)
    (by decide) hs
  exact ⟨s, s', hs, hs', hroot⟩

/-- Two sub-selects at one endpoint. Each hides a variable, the second one as `hidden`. -/
def hiddenTwice (hidden : String) : Pattern :=
  .join (.project (.service (.iri "e") (.bgp [⟨.var "a", .iri "p", .var "x"⟩])) ["a"])
    (.project (.service (.iri "e") (.bgp [⟨.var "b", .iri "q", .var hidden⟩])) ["b"])

def sentTwice (first second : String) : List (Atom Symbol) :=
  [⟨⟨.var, "a"⟩, ⟨.iri, "p"⟩, ⟨.var, first⟩, none⟩,
    ⟨⟨.var, "b"⟩, ⟨.iri, "q"⟩, ⟨.var, second⟩, none⟩]

/--
Hidden under one name in two sub-selects, a variable is one and the same in what the endpoint is
sent. No renaming of the symbols takes this to what it is sent if the names differ.
-/
theorem hiddenTwice_not_renamed :
    Pattern.RenamesHidden "x" "y" (hiddenTwice "x") (hiddenTwice "y") ∧
    (hiddenTwice "x").PlainNames ∧ "y" ∉ (hiddenTwice "x").names ∧
    ∃ s s' t t', (Naming.empty.readPattern (hiddenTwice "x")).1 = .ok s ∧
      (Naming.empty.readPattern (hiddenTwice "y")).1 = .ok s' ∧
      s.services = [("e", t)] ∧ s'.services = [("e", t')] ∧
      ¬∃ f : Symbol → Symbol, t'.atoms = t.atoms.map (·.map f) := by
  refine ⟨.join (.refl _) (.subSelect (.service (.iri "e")
    (.bgp [⟨.var "b", .iri "q", .var "x"⟩])) (by decide)), ?_, by decide, _, _,
    ⟨sentTwice "x" "x", [], ["a", "x", "b"], []⟩, ⟨sentTwice "x" "y", [], ["a", "x", "b", "y"], []⟩,
    rfl, rfl, rfl, rfl, ?_⟩
  · unfold Pattern.PlainNames
    decide
  · rintro ⟨f, hf⟩
    simp only [sentTwice, List.map_cons, List.map_nil, Atom.map, List.cons.injEq,
      Atom.mk.injEq] at hf
    obtain ⟨⟨-, -, hfirst, -⟩, ⟨-, -, hsecond, -⟩, -⟩ := hf
    have hname : "y" = "x" := congrArg Symbol.name (hsecond.trans hfirst.symm)
    exact absurd hname (by decide)

end QueryContainment
