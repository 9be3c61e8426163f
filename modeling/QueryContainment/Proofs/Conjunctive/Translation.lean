import Mathlib.Data.List.DropRight
import QueryContainment.Proofs.Algebra.Translation
import QueryContainment.Proofs.Conjunctive.HiddenNames

namespace QueryContainment

open Naming

variable {τ : Translation}

namespace Translation

def scopedVar (τ : Translation) (name : String) : String :=
  τ.var (String.ofList (name.toList.takeWhile (· ≠ '#'))) ++
    String.ofList (name.toList.dropWhile (· ≠ '#'))

/-- The translation of the terms that are read. -/
def read (τ : Translation) : Translation := { τ with var := τ.scopedVar }

/-- Names without a `#` get names without a `#`. -/
def KeepsPlain (τ : Translation) : Prop := ∀ x, '#' ∉ x.toList → '#' ∉ (τ.var x).toList

/-- A variable that is read under its translated name, hidden or not. -/
structure Carries (τ : Translation) (x : String) : Prop where
  visible : τ.scopedVar x = τ.var x
  hidden : ∀ scope, τ.scopedVar (scopedName x scope) = scopedName (τ.var x) scope

theorem takeWhile_append_of_plain {l : List Char} (hl : '#' ∉ l) (rest : List Char) :
    (l ++ rest).takeWhile (· ≠ '#') = l ++ rest.takeWhile (· ≠ '#') :=
  List.takeWhile_append_of_pos fun c hc => by simpa using fun he : c = '#' => hl (he ▸ hc)

theorem dropWhile_append_of_plain {l : List Char} (hl : '#' ∉ l) (rest : List Char) :
    (l ++ rest).dropWhile (· ≠ '#') = rest.dropWhile (· ≠ '#') :=
  List.dropWhile_append_of_pos fun c hc => by simpa using fun he : c = '#' => hl (he ▸ hc)

theorem carries_of_plain {x : String} (h : '#' ∉ x.toList) : τ.Carries x := by
  constructor
  · have htake := takeWhile_append_of_plain h []
    have hdrop := dropWhile_append_of_plain h []
    simp only [List.append_nil, List.takeWhile_nil, List.dropWhile_nil] at htake hdrop
    rw [scopedVar, htake, hdrop, String.ofList_toList]
    simp
  · intro scope
    have hname : (scopedName x scope).toList = x.toList ++ '#' :: scope.toList := by
      simp [scopedName]
    rw [scopedVar, hname, takeWhile_append_of_plain h, dropWhile_append_of_plain h]
    simp [scopedName, ← String.toList_inj]

theorem scopedVar_of_var_eq_id (h : τ.var = id) : τ.scopedVar = id := by
  funext x
  rw [scopedVar, h, ← String.toList_inj]
  simp

/-- Where no variable is renamed, hidden ones are not either. -/
theorem read_of_var_eq_id (h : τ.var = id) : τ.read = τ := by
  rw [read, scopedVar_of_var_eq_id h, ← h]

theorem carries_of_var_eq_id (h : τ.var = id) (x : String) : τ.Carries x :=
  ⟨by rw [scopedVar_of_var_eq_id h, h], fun scope => by rw [scopedVar_of_var_eq_id h, h]; rfl⟩

theorem takeWhile_dropWhile {α : Type} (p : α → Bool) (l : List α) :
    (l.dropWhile p).takeWhile p = [] := by
  induction l with
  | nil => rfl
  | cons a l ih => by_cases ha : p a <;> simp [ha, ih]

theorem parts_scopedVar (hplain : τ.KeepsPlain) (x : String) :
    (τ.scopedVar x).toList.takeWhile (· ≠ '#') =
      (τ.var (String.ofList (x.toList.takeWhile (· ≠ '#')))).toList ∧
    (τ.scopedVar x).toList.dropWhile (· ≠ '#') = x.toList.dropWhile (· ≠ '#') := by
  have hbase : '#' ∉ (String.ofList (x.toList.takeWhile (· ≠ '#'))).toList := by
    rw [String.toList_ofList]
    intro hmem
    have hne := List.mem_takeWhile_imp hmem
    simp at hne
  have hvar := hplain _ hbase
  rw [scopedVar, String.toList_append, String.toList_ofList]
  constructor
  · rw [takeWhile_append_of_plain hvar, takeWhile_dropWhile, List.append_nil]
  · rw [dropWhile_append_of_plain hvar, List.dropWhile_idempotent]

theorem scopedVar_injective (hvar : Function.Injective τ.var) (hplain : τ.KeepsPlain) :
    Function.Injective τ.scopedVar := by
  intro x y h
  obtain ⟨hx, hxrest⟩ := parts_scopedVar hplain x
  obtain ⟨hy, hyrest⟩ := parts_scopedVar hplain y
  rw [h] at hx hxrest
  have hbase := hvar (String.toList_inj.1 (hx.symm.trans hy))
  have htake : x.toList.takeWhile (· ≠ '#') = y.toList.takeWhile (· ≠ '#') := by
    simpa using congrArg String.toList hbase
  have hdrop : x.toList.dropWhile (· ≠ '#') = y.toList.dropWhile (· ≠ '#') :=
    hxrest.symm.trans hyrest
  apply String.toList_inj.1
  calc x.toList
      = x.toList.takeWhile (· ≠ '#') ++ x.toList.dropWhile (· ≠ '#') :=
        List.takeWhile_append_dropWhile.symm
    _ = y.toList.takeWhile (· ≠ '#') ++ y.toList.dropWhile (· ≠ '#') := by rw [htake, hdrop]
    _ = y.toList := List.takeWhile_append_dropWhile

theorem read_injective (hτ : τ.Injective) (hplain : τ.KeepsPlain) : τ.read.Injective :=
  ⟨hτ.iri, hτ.literal, scopedVar_injective hτ.var hplain, hτ.blank⟩

end Translation

theorem carries_of_mem_vars {t : TriplePattern} (ht : τ.var ≠ id → ∀ x ∈ t.vars, '#' ∉ x.toList)
    {x : String} (hx : x ∈ t.vars) : τ.Carries x := by
  by_cases hid : τ.var = id
  · exact Translation.carries_of_var_eq_id hid x
  · exact Translation.carries_of_plain (ht hid x hx)

/-- The same place, with the names around it translated. -/
def Context.translate (τ : Translation) (c : Context) : Context :=
  ⟨c.graph.map τ.iri, c.subSelects.map fun s => { s with listed := s.listed.map τ.var }⟩

theorem Context.hiddenIn_translate (hvar : Function.Injective τ.var) (c : Context) (x : String) :
    (c.translate τ).hiddenIn (τ.var x) = c.hiddenIn x := by
  simp only [hiddenIn, translate, List.find?_map, Option.map_map, Function.comp_def,
    contains_map hvar]

theorem Context.rename_translate (hvar : Function.Injective τ.var) (c : Context) {t : Term}
    (ht : ∀ x, t = .var x → τ.Carries x) :
    (c.translate τ).rename (t.translate τ) = (c.rename t).translate τ.read := by
  cases t with
  | var x =>
    have hx := ht x rfl
    simp only [rename, Term.translate, hiddenIn_translate hvar]
    cases c.hiddenIn x with
    | none => exact congrArg Term.var hx.visible.symm
    | some k => exact congrArg Term.var (hx.hidden _).symm
  | _ => rfl

namespace Step

def translate (τ : Translation) : Step → Step
  | atom a visible => .atom (a.map (Term.translate τ.read)) (visible.map τ.var)
  | endpoint url body => .endpoint (τ.iri url) (body.translate τ)
  | newScope => .newScope
  | reject reason => .reject (reason.translate τ)

theorem terms_translate (s : Step) :
    (s.translate τ).terms = s.terms.map (Term.translate τ.read) := by
  cases s with
  | atom a visible => exact Atom.toList_map _ a
  | _ => rfl

theorem rejection?_translate (s : Step) :
    (s.translate τ).rejection? = s.rejection?.map (Rejection.translate τ) := by
  cases s <;> rfl

theorem visible_translate (s : Step) : (s.translate τ).visible = s.visible.map τ.var := by
  cases s <;> rfl

theorem clause?_translate (s : Step) :
    (s.translate τ).clause? = s.clause?.map fun e => (τ.iri e.1, e.2.translate τ) := by
  cases s <;> rfl

theorem atom?_translate (s : Step) :
    (s.translate τ).atom? = s.atom?.map (·.map (Term.translate τ.read)) := by
  cases s <;> rfl

theorem scopes_translate (steps : List Step) : scopes (steps.map (translate τ)) = scopes steps := by
  have hscope : isNewScope ∘ translate τ = isNewScope := by
    funext s
    cases s <;> rfl
  rw [scopes, List.countP_map, hscope, scopes]

theorem rejected_translate (steps : List Step) :
    (steps.map (translate τ)).findSome? rejection? =
      (steps.findSome? rejection?).map (Rejection.translate τ) := by
  have hstep : rejection? ∘ translate τ = Option.map (Rejection.translate τ) ∘ rejection? :=
    funext rejection?_translate
  rw [List.findSome?_map, hstep, List.map_findSome?]

theorem done_translate (steps : List Step) :
    (steps.map (translate τ)).takeWhile (·.rejection?.isNone) =
      (steps.takeWhile (·.rejection?.isNone)).map (translate τ) := by
  simp only [List.takeWhile_map, Function.comp_def, rejection?_translate, Option.isNone_map]

theorem flatMap_terms_translate (steps : List Step) :
    (steps.map (translate τ)).flatMap terms =
      (steps.flatMap terms).map (Term.translate τ.read) := by
  simp only [List.flatMap_map, List.map_flatMap, terms_translate]

theorem flatMap_visible_translate (steps : List Step) :
    (steps.map (translate τ)).flatMap visible = (steps.flatMap visible).map τ.var := by
  simp only [List.flatMap_map, List.map_flatMap, visible_translate]

theorem atoms_translate (steps : List Step) : (steps.map (translate τ)).filterMap atom? =
    (steps.filterMap atom?).map (·.map (Term.translate τ.read)) := by
  simp only [List.filterMap_map, List.map_filterMap, Function.comp_def, atom?_translate]

theorem varName?_translate (t : Term) : (t.translate τ).varName? = t.varName?.map τ.var := by
  cases t <;> rfl

theorem ofTriple_translate (hvar : Function.Injective τ.var) (c : Context) {t : TriplePattern}
    (ht : ∀ x ∈ t.vars, τ.Carries x) :
    ofTriple (c.translate τ) (t.translate τ) = (ofTriple c t).translate τ := by
  unfold ofTriple
  rw [TriplePattern.terms_translate]
  cases hterms : t.terms with
  | error reason => rfl
  | ok terms =>
    have hplace (u : Term) (hu : u ∈ terms.toList) :
        (c.translate τ).rename (u.translate τ) = (c.rename u).translate τ.read :=
      c.rename_translate hvar fun x hx => ht x ((TriplePattern.mem_of_terms hterms hu).1 x hx)
    have hgraph : ((c.translate τ).graph.map Term.iri) =
        (c.graph.map Term.iri).map (Term.translate τ.read) := by
      simp only [Context.translate, Option.map_map]
      rfl
    have hvisible : (((terms.map (Term.translate τ)).toList.filterMap Term.varName?).filter
          fun x => ((c.translate τ).hiddenIn x).isNone) =
        ((terms.toList.filterMap Term.varName?).filter fun x => (c.hiddenIn x).isNone).map
          τ.var := by
      have htoList : (terms.map (Term.translate τ)).toList =
          terms.toList.map (Term.translate τ) := rfl
      simp only [htoList, List.filterMap_map, Function.comp_def, varName?_translate,
        List.filter_map, ← List.map_filterMap, Context.hiddenIn_translate hvar]
    simp only [Except.map, Except.mapError, translate, hgraph, Atom.map, Triple.map,
      hplace terms.subject (by simp [Triple.toList]),
      hplace terms.predicate (by simp [Triple.toList]),
      hplace terms.object (by simp [Triple.toList])]
    exact congrArg _ hvisible

end Step

theorem Pattern.steps_translate (hvar : Function.Injective τ.var) {p : Pattern}
    (hn : τ.var ≠ id → p.PlainNames) (c : Context) (k : Nat) :
    (p.translate τ).steps (c.translate τ) k = (p.steps c k).map (Step.translate τ) := by
  induction p generalizing c k with
  | bgp triples =>
    simp only [translate, steps, List.map_map]
    apply List.map_congr_left
    intro t ht
    have hplain (hid : τ.var ≠ id) (x : String) (hx : x ∈ t.vars) : '#' ∉ x.toList :=
      hn hid triples (by simp) x (List.mem_flatMap.2 ⟨t, ht, hx⟩)
    exact Step.ofTriple_translate hvar c fun x => carries_of_mem_vars hplain
  | join left right ihl ihr =>
    have hl (hid : τ.var ≠ id) : left.PlainNames := (hn hid).of_join.1
    have hr (hid : τ.var ≠ id) : right.PlainNames := (hn hid).of_join.2
    simp only [translate, steps, List.map_append, ihl hl, ihr hr, Step.scopes_translate]
  | distinct inner ih => exact ih hn c k
  | reduced inner ih => exact ih hn c k
  | orderBy inner ih => exact ih hn c k
  | project inner names ih =>
    simp only [translate, steps, List.map_cons]
    exact congrArg _ (ih hn { c with subSelects := ⟨k, names⟩ :: c.subSelects } (k + 1))
  | service name inner ih =>
    cases name with
    | var name => rfl
    | iri url =>
      simp only [translate, IriOrVar.translate, steps, List.map_cons]
      exact congrArg _ (ih hn { c with graph := some url } k)
  | _ => rfl

namespace ConjunctiveQuery

variable {α β γ : Type}

mutual

/-- Puts terms in the place of terms, and translates the variables and endpoints. -/
def relabel (τ : Translation) (f : α → β) : ConjunctiveQuery α → ConjunctiveQuery β
  | ⟨atoms, answer, other, services⟩ =>
    ⟨atoms.map (·.map f), answer.map τ.var, other.map τ.var, relabelServices τ f services⟩

def relabelServices (τ : Translation) (f : α → β) :
    List (String × ConjunctiveQuery α) → List (String × ConjunctiveQuery β)
  | [] => []
  | (url, q) :: rest => (τ.iri url, q.relabel τ f) :: relabelServices τ f rest

end

theorem atoms_relabel (f : α → β) (q : ConjunctiveQuery α) :
    (q.relabel τ f).atoms = q.atoms.map (·.map f) := by
  cases q
  rfl

theorem answer_relabel (f : α → β) (q : ConjunctiveQuery α) :
    (q.relabel τ f).answer = q.answer.map τ.var := by
  cases q
  rfl

theorem other_relabel (f : α → β) (q : ConjunctiveQuery α) :
    (q.relabel τ f).other = q.other.map τ.var := by
  cases q
  rfl

theorem relabelServices_eq (f : α → β) (l : List (String × ConjunctiveQuery α)) :
    relabelServices τ f l = l.map fun e => (τ.iri e.1, e.2.relabel τ f) := by
  induction l with
  | nil => rfl
  | cons e l ih => rw [relabelServices, ih, List.map_cons]

theorem services_relabel (f : α → β) (q : ConjunctiveQuery α) :
    (q.relabel τ f).services = q.services.map fun e => (τ.iri e.1, e.2.relabel τ f) := by
  cases q
  exact relabelServices_eq f _

mutual

theorem relabel_map (f : α → β) (g : β → γ) :
    ∀ q : ConjunctiveQuery α, (q.relabel τ f).map g = q.relabel τ (g ∘ f)
  | ⟨atoms, answer, other, services⟩ => by
    simp only [relabel, map, List.map_map, Function.comp_def, Atom.map_map,
      relabelServices_map f g services]

theorem relabelServices_map (f : α → β) (g : β → γ) :
    ∀ services : List (String × ConjunctiveQuery α),
      mapServices g (relabelServices τ f services) = relabelServices τ (g ∘ f) services
  | [] => rfl
  | (url, q) :: rest => by
    simp only [relabelServices, mapServices, relabel_map f g q, relabelServices_map f g rest]

end

mutual

theorem map_relabel (f : α → β) (g : β → γ) :
    ∀ q : ConjunctiveQuery α, (q.map f).relabel τ g = q.relabel τ (g ∘ f)
  | ⟨atoms, answer, other, services⟩ => by
    simp only [relabel, map, List.map_map, Function.comp_def, Atom.map_map,
      mapServices_relabel f g services]

theorem mapServices_relabel (f : α → β) (g : β → γ) :
    ∀ services : List (String × ConjunctiveQuery α),
      relabelServices τ g (mapServices f services) = relabelServices τ (g ∘ f) services
  | [] => rfl
  | (url, q) :: rest => by
    simp only [relabelServices, mapServices, map_relabel f g q, mapServices_relabel f g rest]

end

mutual

/-- Only the terms in the atoms of a query and of those of its endpoints matter. -/
theorem relabel_congr {f g : α → β} : ∀ {q : ConjunctiveQuery α},
    (∀ part ∈ q.parts, ∀ a ∈ part.atoms, ∀ t ∈ a.toList, f t = g t) →
      q.relabel τ f = q.relabel τ g
  | ⟨atoms, answer, other, services⟩, h => by
    have hatoms : atoms.map (·.map f) = atoms.map (·.map g) :=
      List.map_congr_left fun a ha => Atom.map_congr (h _ List.mem_cons_self a ha)
    have hservices := relabelServices_congr fun part hpart => h part (List.mem_cons_of_mem _ hpart)
    simp only [relabel, hatoms, hservices]

theorem relabelServices_congr {f g : α → β} : ∀ {services : List (String × ConjunctiveQuery α)},
    (∀ part ∈ partsOf services, ∀ a ∈ part.atoms, ∀ t ∈ a.toList, f t = g t) →
      relabelServices τ f services = relabelServices τ g services
  | [], _ => rfl
  | (url, q) :: rest, h => by
    have hfirst := relabel_congr fun part hpart => h part (List.mem_append_left _ hpart)
    have hrest := relabelServices_congr fun part hpart => h part (List.mem_append_right _ hpart)
    simp only [relabelServices, hfirst, hrest]

end

mutual

/-- Where no variable, no endpoint and no term is replaced, nothing is. -/
theorem relabel_id (hvar : τ.var = id) (hiri : τ.iri = id) :
    ∀ q : ConjunctiveQuery α, q.relabel τ id = q
  | ⟨atoms, answer, other, services⟩ => by
    have hatom (a : Atom α) : a.map id = a := by simp [Atom.map]
    simp only [relabel, hatom, hvar, List.map_id, List.map_id', relabelServices_id hvar hiri services]

theorem relabelServices_id (hvar : τ.var = id) (hiri : τ.iri = id) :
    ∀ services : List (String × ConjunctiveQuery α), relabelServices τ id services = services
  | [] => rfl
  | (url, q) :: rest => by
    simp only [relabelServices, hiri, id_eq, relabel_id hvar hiri q,
      relabelServices_id hvar hiri rest]

end

theorem ofUsed_relabel (hvar : Function.Injective τ.var) (f : α → β) (atoms : List (Atom α))
    (used : List String) (projection : Option (List String))
    (services : List (String × ConjunctiveQuery α)) :
    ofUsed (atoms.map (·.map f)) (used.map τ.var) (projection.map (·.map τ.var))
        (relabelServices τ f services) =
      (ofUsed atoms used projection services).relabel τ f := by
  have hlisted : (projection.map (·.map τ.var)).getD [] = (projection.getD []).map τ.var := by
    cases projection <;> rfl
  simp only [ofUsed, relabel, hlisted, List.filter_map, Function.comp_def, contains_map hvar]

end ConjunctiveQuery

namespace Flattened

/-- The same outcome, with all names translated. -/
def translate (τ : Translation) (f : Flattened (ConjunctiveQuery Term)) :
    Flattened (ConjunctiveQuery Term) :=
  ⟨f.terms.map (Term.translate τ.read), f.scopes,
    (f.result.map (·.relabel τ (Term.translate τ.read))).mapError (Rejection.translate τ)⟩

theorem addClause_translate (hiri : Function.Injective τ.iri) (clause : String × Pattern)
    (l : List (String × Pattern)) :
    addClause (τ.iri clause.1, clause.2.translate τ)
        (l.map fun e => (τ.iri e.1, e.2.translate τ)) =
      (addClause clause l).map fun e => (τ.iri e.1, e.2.translate τ) := by
  induction l with
  | nil => rfl
  | cons e l ih =>
    simp only [List.map_cons, addClause, hiri.eq_iff, ih]
    split <;> rfl

theorem endpoints_translate (hiri : Function.Injective τ.iri) (steps : List Step) :
    endpoints (steps.map (Step.translate τ)) =
      (endpoints steps).map fun e => (τ.iri e.1, e.2.translate τ) := by
  have hclauses : (steps.map (Step.translate τ)).filterMap Step.clause? =
      (steps.filterMap Step.clause?).map fun e => (τ.iri e.1, e.2.translate τ) := by
    simp only [List.filterMap_map, List.map_filterMap, Function.comp_def, Step.clause?_translate]
  have hfold (clauses l : List (String × Pattern)) :
      (clauses.map fun e => (τ.iri e.1, e.2.translate τ)).foldl (fun l c => addClause c l)
          (l.map fun e => (τ.iri e.1, e.2.translate τ)) =
        (clauses.foldl (fun l c => addClause c l) l).map
          fun e => (τ.iri e.1, e.2.translate τ) := by
    induction clauses generalizing l with
    | nil => rfl
    | cons c clauses ih =>
      rw [List.map_cons, List.foldl_cons, addClause_translate hiri, ih, List.foldl_cons]
  rw [endpoints, hclauses]
  exact hfold _ []

theorem services_translate {read : Nat → Pattern → Flattened (ConjunctiveQuery Term)}
    {l : List (String × Pattern)}
    (h : ∀ e ∈ l, ∀ k, read k (e.2.translate τ) = (read k e.2).translate τ) (k : Nat) :
    services read k (l.map fun e => (τ.iri e.1, e.2.translate τ)) =
      ⟨(services read k l).terms.map (Term.translate τ.read), (services read k l).scopes,
        ((services read k l).result.map (ConjunctiveQuery.relabelServices τ
          (Term.translate τ.read))).mapError (Rejection.translate τ)⟩ := by
  induction l generalizing k with
  | nil => rfl
  | cons e l ih =>
    obtain ⟨url, body⟩ := e
    have hfirst : read k (body.translate τ) = (read k body).translate τ :=
      h _ List.mem_cons_self k
    simp only [List.map_cons, services, hfirst, translate]
    cases hr : (read k body).result with
    | error reason => rfl
    | ok q =>
      simp only [Except.map, Except.mapError, List.map_append,
        ih (fun e he => h e (List.mem_cons_of_mem _ he)) (k + (read k body).scopes)]
      cases (services read (k + (read k body).scopes) l).result <;> rfl

theorem body_translate (hτ : τ.Injective)
    {read : Nat → Pattern → Flattened (ConjunctiveQuery Term)} {k : Nat} {p : Pattern}
    (hn : τ.var ≠ id → p.PlainNames)
    (h : ∀ e ∈ endpoints (p.steps .root k), ∀ j,
      read j (e.2.translate τ) = (read j e.2).translate τ)
    (projection : Option (List String)) :
    body read k (projection.map (·.map τ.var)) (p.translate τ) =
      (body read k projection p).translate τ := by
  have hsteps : (p.translate τ).steps .root k = (p.steps .root k).map (Step.translate τ) :=
    p.steps_translate hτ.var hn .root k
  have hused (l : List String) : Distinct.ofList (l.map τ.var) = (Distinct.ofList l).map τ.var :=
    Distinct.ofList_map fun a _ b _ hab => hτ.var hab
  simp only [body, hsteps, Step.done_translate, Step.rejected_translate]
  cases (p.steps .root k).findSome? Step.rejection? with
  | some reason =>
    simp only [Option.map_some, translate, Step.flatMap_terms_translate, Step.scopes_translate]
    rfl
  | none =>
    simp only [Option.map_none, endpoints_translate hτ.iri, Step.scopes_translate,
      services_translate h, translate, Step.flatMap_terms_translate,
      Step.flatMap_visible_translate, hused, Step.atoms_translate, List.map_append]
    cases (services read (k + Step.scopes ((p.steps .root k).takeWhile (·.rejection?.isNone)))
        (endpoints (p.steps .root k))).result with
    | error reason => rfl
    | ok services =>
      simp only [Except.map, Except.mapError, ConjunctiveQuery.ofUsed_relabel hτ.var]

theorem ofPattern_translate (hτ : τ.Injective) (k : Nat) {p : Pattern}
    (hn : τ.var ≠ id → p.PlainNames) :
    ofPattern k (p.translate τ) = (ofPattern k p).translate τ := by
  induction p using endpoint_induction generalizing k with
  | pattern p ih =>
    have hinner (hid : τ.var ≠ id) : p.splitProjection.2.PlainNames := (hn hid).splitProjection
    rw [ofPattern_eq, ofPattern_eq, Pattern.splitProjection_translate]
    exact body_translate hτ hinner
      (fun e he j => ih k e he j fun hid => (hinner hid).of_mem_endpoints he) _

/-- A query with other names is read as the same query with other names. -/
theorem ofQuery_translate (hτ : τ.Injective) (k : Nat) {q : Query}
    (hn : τ.var ≠ id → q.pattern.PlainNames) :
    ofQuery k (q.translate τ) = (ofQuery k q).translate τ := by
  obtain ⟨form, p, hasDataset⟩ := q
  cases form with
  | select =>
    cases hasDataset with
    | true => rfl
    | false => exact ofPattern_translate hτ k hn
  | ask =>
    cases hasDataset with
    | true => rfl
    | false =>
      show ofAsk k (p.translate τ) = (ofAsk k p).translate τ
      rw [ofAsk_eq, ofAsk_eq]
      exact body_translate hτ hn
        (fun e he j => ofPattern_translate hτ j fun hid => (hn hid).of_mem_endpoints he) none
  | _ => rfl

end Flattened

end QueryContainment
