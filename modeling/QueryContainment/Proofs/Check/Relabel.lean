import QueryContainment.Proofs.Sorted
import QueryContainment.Proofs.Check.Declarations
import QueryContainment.Proofs.Smt.Translation

namespace QueryContainment

open Naming ConjunctiveQuery

variable {τ : Translation}

namespace ConjunctiveQuery

variable {α β : Type}

theorem sameAnswer_relabel (hvar : Function.Injective τ.var) (f : α → β)
    (s t : ConjunctiveQuery α) :
    (s.relabel τ f).sameAnswer (t.relabel τ f) = s.sameAnswer t := by
  simp only [sameAnswer, answer_relabel, List.all_map, Function.comp_def, contains_map hvar]

theorem sameAnswerAndVariables_relabel (hvar : Function.Injective τ.var) (f : α → β)
    (s t : ConjunctiveQuery α) :
    (s.relabel τ f).sameAnswerAndVariables (t.relabel τ f) = s.sameAnswerAndVariables t := by
  have hvars : (s.relabel τ f).vars.all ((t.relabel τ f).vars.contains ·) =
      s.vars.all (t.vars.contains ·) := by
    rw [Bool.eq_iff_iff]
    simp only [List.all_eq_true, List.contains_iff_mem, mem_vars, answer_relabel, other_relabel,
      ← List.map_append, List.forall_mem_map, List.mem_map_of_injective hvar]
  rw [sameAnswerAndVariables, sameAnswer_relabel hvar, hvars, sameAnswerAndVariables]

end ConjunctiveQuery

section

variable {α β γ δ : Type} {url : String → String}

theorem lookupLast_map (hurl : Function.Injective url) (g : α → β) (key : String)
    (l : List (String × α)) :
    lookupLast (url key) (l.map (Prod.map url g)) = (lookupLast key l).map g := by
  rw [lookupLast, ← List.map_reverse, lookup_map hurl, lookupLast]

theorem partners_map (hurl : Function.Injective url) (g : α → β) (l l' : List (String × α)) :
    partners (l.map (Prod.map url g)) (l'.map (Prod.map url g)) =
      ((partners l l').map (List.map g)).mapError url := by
  induction l with
  | nil => rfl
  | cons e l ih =>
    obtain ⟨key, a⟩ := e
    rw [List.map_cons, Prod.map_apply, partners, partners, lookupLast_map hurl, ih]
    cases lookupLast key l' with
    | none => rfl
    | some partner => cases partners l l' <;> rfl

end

/-- What is answered to a script does not depend on what its constants are called. -/
def Solver.Insensitive (solver : Solver) : Prop :=
  ∀ σ : Equiv.Perm String, RenamesConstants σ →
    ∀ asked (script : Smt.Script Smt.Statement), script.Closed →
      solver (asked.map (Smt.recast σ)) (Smt.recast σ (Smt.formulaText script)) >>=
          Smt.Answer.ofReply =
        solver asked (Smt.formulaText script) >>= Smt.Answer.ofReply

namespace Check

variable {solver : Solver} {n n' : Naming} {mode : Multiplicity}
  {sub sup : ConjunctiveQuery Symbol}

theorem compatible_relabel (hvar : Function.Injective τ.var) (F : Symbol → Symbol)
    (mode : Multiplicity) (s t : ConjunctiveQuery Symbol) :
    compatible (s.relabel τ F) (t.relabel τ F) mode = compatible s t mode := by
  cases mode with
  | bagSet => exact sameAnswerAndVariables_relabel hvar F s t
  | _ => exact sameAnswer_relabel hvar F s t

def Visit.relabel (τ : Translation) (F : Symbol → Symbol) : Visit → Visit
  | pair mode sub sup => .pair mode (sub.relabel τ F) (sup.relabel τ F)
  | missing url => .missing (τ.iri url)

theorem Visit.isMissing_relabel (F : Symbol → Symbol) (visit : Visit) :
    (visit.relabel τ F).isMissing = visit.isMissing := by
  cases visit <;> rfl

mutual

/-- The relabelled pairs are visited when the pairs are. -/
theorem visits_relabel (hiri : Function.Injective τ.iri) (F : Symbol → Symbol)
    (mode : Multiplicity) : ∀ s t : ConjunctiveQuery Symbol,
      visits mode (s.relabel τ F) (t.relabel τ F) = (visits mode s t).map (Visit.relabel τ F)
  | ⟨atoms, answer, other, services⟩, t => by
    have hpartners : partners (relabelServices τ F services) (t.relabel τ F).services =
        ((partners services t.services).map (List.map (relabel τ F))).mapError τ.iri := by
      rw [relabelServices_eq, services_relabel]
      exact partners_map hiri (relabel τ F) services t.services
    simp only [relabel, visits, hpartners]
    cases partners services t.services with
    | error url => rfl
    | ok found =>
      simp only [Except.map, Except.mapError, List.map_append,
        ← endpointVisits_relabel hiri F services found]
      rfl

theorem endpointVisits_relabel (hiri : Function.Injective τ.iri) (F : Symbol → Symbol) :
    ∀ (services : List (String × ConjunctiveQuery Symbol))
      (found : List (ConjunctiveQuery Symbol)),
      endpointVisits (relabelServices τ F services) (found.map (relabel τ F)) =
        (endpointVisits services found).map (Visit.relabel τ F)
  | [], found => by
    unfold relabelServices endpointVisits
    rfl
  | _ :: _, [] => by
    unfold relabelServices endpointVisits
    rfl
  | (url, q) :: rest, r :: found => by
    simp only [relabelServices, List.map_cons, endpointVisits, List.map_append,
      visits_relabel hiri F .set q r, endpointVisits_relabel hiri F rest found]

end

theorem planIsCut_relabel (hiri : Function.Injective τ.iri) (F : Symbol → Symbol)
    (mode : Multiplicity) (s t : ConjunctiveQuery Symbol) :
    planIsCut mode (s.relabel τ F) (t.relabel τ F) = planIsCut mode s t := by
  simp only [planIsCut, visits_relabel hiri, List.any_map, Function.comp_def,
    Visit.isMissing_relabel]

def scriptsOf (n : Naming) : List Visit → List (Smt.Script Smt.Statement)
  | .pair mode sub sup :: rest => script (compatible sub sup mode) sub sup n :: scriptsOf n rest
  | _ => []

def scripts (n : Naming) (mode : Multiplicity) (sub sup : ConjunctiveQuery Symbol) :
    List (Smt.Script Smt.Statement) :=
  scriptsOf n (visits mode sub sup)

theorem plan_eq (n : Naming) (mode : Multiplicity) (sub sup : ConjunctiveQuery Symbol) :
    plan n mode sub sup = (scripts n mode sub sup).map Smt.formulaText := by
  have hformulas (l : List Visit) : formulasOf n l = (scriptsOf n l).map Smt.formulaText := by
    induction l with
    | nil => rfl
    | cons visit l ih =>
      cases visit with
      | missing url => rfl
      | pair mode sub sup =>
        rw [formulasOf, ih]
        rfl
  exact hformulas _

/-- A renaming of the constants takes the script of a pair to that of the relabelled pair. -/
def Visit.Renamed (τ : Translation) (σ : String → String) (n n' : Naming) : Visit → Prop
  | pair mode sub sup =>
    (script (compatible sub sup mode) sub sup n).Closed ∧
      script (compatible sub sup mode) (sub.relabel τ (Symbol.rename σ))
          (sup.relabel τ (Symbol.rename σ)) n' =
        (script (compatible sub sup mode) sub sup n).rename σ
  | missing _ => True

theorem renamed_pair {T : Term → Term} {σ : Equiv.Perm String} (htable : RenamedTable T σ n n')
    (hn : n.Sound) (hsub : sub.NamedBy n) (hsup : sup.NamedBy n)
    (hanswer : ∀ x ∈ sup.answer, n'.varSymbol? (τ.var x) =
      (n.varSymbol? x).map (Symbol.rename σ)) (mode : Multiplicity) :
    (Visit.pair mode sub sup).Renamed τ σ n n' := by
  refine ⟨closed_script hn hsub hsup sameAnswer_of_compatible, ?_⟩
  cases compatible sub sup mode with
  | true => exact Smt.countermodel_relabel htable hsup hanswer sub
  | false => exact Smt.solvability_relabel σ.injective sub

theorem scriptsOf_relabel {σ : String → String} (hvar : Function.Injective τ.var) {l : List Visit}
    (h : ∀ visit ∈ l, visit.Renamed τ σ n n') :
    scriptsOf n' (l.map (Visit.relabel τ (Symbol.rename σ))) =
      (scriptsOf n l).map (Smt.Script.rename σ) := by
  induction l with
  | nil => rfl
  | cons visit l ih =>
    obtain ⟨hvisit, hl⟩ := List.forall_mem_cons.1 h
    cases visit with
    | missing url => rfl
    | pair mode sub sup =>
      obtain ⟨-, hscript⟩ := hvisit
      simp only [List.map_cons, Visit.relabel, scriptsOf, compatible_relabel hvar, hscript, ih hl]

theorem plain_scriptsOf {σ : String → String} {l : List Visit}
    (h : ∀ visit ∈ l, visit.Renamed τ σ n n') : ∀ s ∈ scriptsOf n l, s.Plain := by
  induction l with
  | nil => simp [scriptsOf]
  | cons visit l ih =>
    obtain ⟨hvisit, hl⟩ := List.forall_mem_cons.1 h
    cases visit with
    | missing url => simp [scriptsOf]
    | pair mode sub sup => exact List.forall_mem_cons.2 ⟨hvisit.1.toPlain, ih hl⟩

theorem formula_relabel {σ : Equiv.Perm String} (hσ : RenamesConstants σ)
    (h : (Visit.pair mode sub sup).Renamed τ σ n n') :
    formula (compatible sub sup mode) (sub.relabel τ (Symbol.rename σ))
        (sup.relabel τ (Symbol.rename σ)) n' =
      Smt.recast σ (formula (compatible sub sup mode) sub sup n) := by
  obtain ⟨hclosed, hscript⟩ := h
  exact (congrArg Smt.formulaText hscript).trans
    (Smt.formulaText_rename hσ.defaultGraph hclosed.toPlain)

theorem reply_recast {σ : Equiv.Perm String} (hsolver : solver.Insensitive)
    (hσ : RenamesConstants σ) (h : (Visit.pair mode sub sup).Renamed τ σ n n')
    (asked : List String) :
    reply solver (asked.map (Smt.recast σ))
        (Smt.recast σ (formula (compatible sub sup mode) sub sup n)) =
      reply solver asked (formula (compatible sub sup mode) sub sup n) :=
  congrArg (Except.mapError CheckError.solver) (hsolver σ hσ asked _ h.1)

/-- The run asks for the renamed formulas and ends alike. -/
theorem run_relabel {σ : Equiv.Perm String} (hvar : Function.Injective τ.var)
    (hσ : RenamesConstants σ) (hsolver : solver.Insensitive) {l : List Visit}
    (h : ∀ visit ∈ l, visit.Renamed τ σ n n') (asked : List String) :
    run solver n' (l.map (Visit.relabel τ (Symbol.rename σ))) (asked.map (Smt.recast σ)) =
      Prod.map id (List.map (Smt.recast σ)) (run solver n l asked) := by
  induction l generalizing asked with
  | nil => rfl
  | cons visit l ih =>
    obtain ⟨hvisit, hl⟩ := List.forall_mem_cons.1 h
    cases visit with
    | missing url => rfl
    | pair mode sub sup =>
      have hreply := reply_recast hsolver hσ hvisit asked
      simp only [List.map_cons, Visit.relabel, run, compatible_relabel hvar,
        formula_relabel hσ hvisit, hreply]
      cases reply solver asked (formula (compatible sub sup mode) sub sup n) with
      | error e => simp
      | ok answer =>
        cases answer with
        | sat => simp
        | unsat => simpa using ih hl (asked ++ [formula (compatible sub sup mode) sub sup n])

end Check

end QueryContainment
