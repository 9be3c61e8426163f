import QueryContainment.Proofs.Naming.Again
import QueryContainment.Proofs.Smt.History

namespace QueryContainment

open Naming

theorem Symbol.name_within_inj {r s : Symbol} {scope scope' : String} (hr : r.isVar) (hs : s.isVar)
    (hrname : '.' ∉ r.name.toList) (hsname : '.' ∉ s.name.toList)
    (h : (r.within scope).name = (s.within scope').name) : r = s ∧ scope = scope' := by
  have hchars := congrArg String.toList h
  rw [name_within hr, name_within hs] at hchars
  simp only [String.toList_append, List.append_assoc] at hchars
  obtain ⟨hscope, hname⟩ := append_cons_inj hrname hsname hchars
  exact ⟨eq_of_isVar hr hs (String.toList_inj.1 hname), String.toList_inj.1 hscope⟩

namespace Naming

variable {n : Naming} {calls others : List Call} {e e' : Term × Symbol} {scope scope' : String}

theorem name_within_ne {s : Symbol} (hvar : s.isVar) (scope : String)
    (he : e ∈ empty.log calls) : (s.within scope).name ≠ e.2.name := fun heq =>
  Offered.dot_not_mem he (heq ▸ Symbol.dot_mem_name_within hvar scope)

theorem name_within_eq_iff (he : e ∈ empty.log calls) (he' : e' ∈ empty.log calls)
    (hvar : e.2.isVar) (hvar' : e'.2.isVar) :
    (e.2.within scope).name = (e'.2.within scope').name ↔ e.2 = e'.2 ∧ scope = scope' := by
  constructor
  · exact Symbol.name_within_inj hvar hvar' (Offered.dot_not_mem he) (Offered.dot_not_mem he')
  · rintro ⟨hsymbol, rfl⟩
    rw [hsymbol]

def openScopes (n : Naming) : Nat → List String × Naming
  | 0 => ([], n)
  | k + 1 =>
    let (first, opened) := n.newScope
    let (rest, last) := openScopes opened k
    (first :: rest, last)

/-- The names of all scopes that are opened in a sequence of calls, in that order. -/
def scopeLog : Naming → List Call → List String
  | _, [] => []
  | n, c :: calls => (n.openScopes (c.scopes n.scopes)).1 ++ (c.apply n).scopeLog calls

theorem openScopes_eq (n : Naming) (k : Nat) : n.openScopes k =
    ((List.range' n.scopes k).map scopeName, { n with scopes := n.scopes + k }) := by
  induction k generalizing n with
  | zero => rfl
  | succ k ih =>
    have hscopes : n.scopes + 1 + k = n.scopes + (k + 1) := by omega
    simp only [openScopes, newScope, ih, hscopes, List.range'_succ, List.map_cons]

theorem exists_scopeLog_eq (n : Naming) (calls : List Call) :
    ∃ k, (n.after calls).scopes = n.scopes + k ∧
      n.scopeLog calls = (List.range' n.scopes k).map scopeName := by
  induction calls generalizing n with
  | nil => exact ⟨0, rfl, rfl⟩
  | cons c calls ih =>
    obtain ⟨k, hscopes, hlog⟩ := ih (c.apply n)
    rw [scopes_apply] at hscopes hlog
    refine ⟨c.scopes n.scopes + k, ?_, ?_⟩
    · show ((c.apply n).after calls).scopes = _
      rw [hscopes, Nat.add_assoc]
    · rw [scopeLog, openScopes_eq, hlog, ← List.map_append, List.range'_append_1]

theorem mem_scopeLog : scope ∈ n.scopeLog calls ↔
    ∃ j, n.scopes ≤ j ∧ j < (n.after calls).scopes ∧ scope = scopeName j := by
  obtain ⟨k, hscopes, hlog⟩ := exists_scopeLog_eq n calls
  rw [hscopes, hlog, List.mem_map]
  simp only [List.mem_range'_1, and_assoc, eq_comm]

theorem nodup_scopeLog (n : Naming) (calls : List Call) : (n.scopeLog calls).Nodup := by
  obtain ⟨k, -, hlog⟩ := exists_scopeLog_eq n calls
  rw [hlog]
  exact .map (fun _ _ => scopeName_inj) List.nodup_range'

/-- Where all names are plain, a variable is hidden only in a scope that has been opened. -/
theorem plain_or_hidden (hcalls : ∀ c ∈ calls, c.PlainNames) (he : e ∈ empty.log calls) :
    e.1.Plain ∨ ∃ x, ∃ scope ∈ empty.scopeLog calls, e.1 = .var (scopedName x scope) := by
  rcases inOpenScopes_empty.after hcalls e (mem_entries_iff_log.2 he) with hplain | hhidden
  · exact .inl hplain
  · obtain ⟨x, j, hterm, -, -, hj⟩ := hhidden
    exact .inr ⟨x, scopeName j, mem_scopeLog.2 ⟨j, Nat.zero_le j, hj, rfl⟩, hterm⟩

theorem scopedName_eq_iff (h : scope ∈ empty.scopeLog calls) (h' : scope' ∈ empty.scopeLog others)
    {x y : String} : scopedName x scope = scopedName y scope' ↔ x = y ∧ scope = scope' := by
  constructor
  · intro heq
    obtain ⟨j, -, -, rfl⟩ := mem_scopeLog.1 h
    obtain ⟨k, -, -, rfl⟩ := mem_scopeLog.1 h'
    obtain ⟨hname, hscope⟩ := scopedName_inj heq
    exact ⟨hname, congrArg scopeName hscope⟩
  · rintro ⟨rfl, rfl⟩
    rfl

/--
Whatever was asked of a table that was empty at first, and whatever a local scope is called: a copy
of a variable is no symbol that was handed out, and its name is neither that of one nor that of the
default graph; two copies of variables are the same, or have the same name, if and only if the
variables are the same and the scopes are. Of the scopes that were opened, on request or for what was
read, no two have the same name, and where names are plain, hidden variables are hidden in these. A
variable within one of them, whatever it is called, is told from all other variables within scopes of
this or any other table.
-/
theorem scopes_apart (calls : List Call) :
    (∀ e ∈ empty.log calls, e.2.isVar → ∀ scope,
      (e.2.within scope).name ≠ defaultGraph ∧ ∀ e' ∈ empty.log calls,
        e.2.within scope ≠ e'.2 ∧ (e.2.within scope).name ≠ e'.2.name) ∧
    (∀ e ∈ empty.log calls, ∀ e' ∈ empty.log calls, e.2.isVar → e'.2.isVar → ∀ scope scope',
      (e.2.within scope = e'.2.within scope' ↔ e.2 = e'.2 ∧ scope = scope') ∧
      ((e.2.within scope).name = (e'.2.within scope').name ↔ e.2 = e'.2 ∧ scope = scope')) ∧
    (empty.scopeLog calls).Nodup ∧
    ((∀ c ∈ calls, c.PlainNames) → ∀ e ∈ empty.log calls,
      e.1.Plain ∨ ∃ x, ∃ scope ∈ empty.scopeLog calls, e.1 = .var (scopedName x scope)) ∧
    ∀ others : List Call, ∀ scope ∈ empty.scopeLog calls, ∀ scope' ∈ empty.scopeLog others,
      ∀ x y, scopedName x scope = scopedName y scope' ↔ x = y ∧ scope = scope' := by
  refine ⟨fun e he hvar scope => ⟨?_, fun e' he' => ?_⟩,
    fun e he e' he' hvar hvar' scope scope' => ?_, nodup_scopeLog empty calls,
    fun hcalls e he => plain_or_hidden hcalls he,
    fun others scope h scope' h' x y => scopedName_eq_iff h h'⟩
  · exact (Offered.within scope (.handedOut he)).name_ne_defaultGraph
  · have hname := name_within_ne hvar scope he'
    exact ⟨fun heq => hname (congrArg Symbol.name heq), hname⟩
  · have hname : (e.2.within scope).name = (e'.2.within scope').name ↔
        e.2 = e'.2 ∧ scope = scope' := name_within_eq_iff he he' hvar hvar'
    refine ⟨⟨fun heq => hname.1 (congrArg Symbol.name heq), ?_⟩, hname⟩
    rintro ⟨hsymbol, rfl⟩
    rw [hsymbol]

/-- An IRI that looks like a copy, and sub-selects beside a clause and, to be read twice, in it. -/
def nestedScopes : List Call :=
  [ .scope, .term (.iri "http://a.x"), .term (.blank "x"),
    .pattern (.join (.project (.bgp [⟨.var "x", .iri "p", .var "y"⟩]) ["x"])
      (.service (.iri "e") (.join (.bgp []) (.project (.bgp [⟨.var "x", .iri "p", .var "y"⟩]) [])))) ]

theorem scopes_apart_nested :
    empty.scopeLog nestedScopes = ["sq0", "sq1", "sq2", "sq3"] ∧
    (empty.scopeLog nestedScopes).Nodup ∧
    (Symbol.within "a" ⟨.var, "x"⟩).name ≠ "a_x" ∧
    Symbol.within "a" ⟨.var, "x"⟩ ≠ Symbol.within "a" ⟨.var, "_b0"⟩ ∧
    Symbol.within "a" ⟨.var, "x"⟩ ≠ Symbol.within "a.x" ⟨.var, "x"⟩ ∧
    (∃ x, ∃ scope ∈ empty.scopeLog nestedScopes, "y#sq3" = scopedName x scope) ∧
    scopedName "x#sq1" "sq2" ≠ scopedName "x" "sq1" := by
  have hscopes : empty.scopeLog nestedScopes = ["sq0", "sq1", "sq2", "sq3"] := by decide
  have hx : (.var "x", ⟨.var, "x"⟩) ∈ empty.log nestedScopes := by decide
  have hblank : (.blank "x", ⟨.var, "_b0"⟩) ∈ empty.log nestedScopes := by decide
  have hiri : (.iri "http://a.x", ⟨.iri, "a_x"⟩) ∈ empty.log nestedScopes := by decide
  have hhidden : (.var "y#sq3", ⟨.var, "y_sq3"⟩) ∈ empty.log nestedScopes := by decide
  have hcalls : ∀ c ∈ nestedScopes, c.PlainNames := by
    simp only [nestedScopes, List.forall_mem_cons, Call.PlainNames, Pattern.PlainNames, Term.Plain]
    refine ⟨trivial, by simp, by simp, by decide, by simp⟩
  obtain ⟨hnew, hcopies, hnodup, hplain, hnames⟩ := scopes_apart nestedScopes
  refine ⟨hscopes, hnodup, ((hnew _ hx rfl "a").2 _ hiri).2, fun h => ?_, fun h => ?_, ?_,
    fun h => ?_⟩
  · have hsame := ((hcopies _ hx _ hblank rfl rfl "a" "a").1.1 h).1
    exact absurd hsame (by decide)
  · have hscope := ((hcopies _ hx _ hx rfl rfl "a" "a.x").1.1 h).2
    exact absurd hscope (by decide)
  · rcases hplain hcalls _ hhidden with hterm | ⟨x, scope, hscope, hterm⟩
    · exact absurd (hterm _ rfl) (by decide)
    · exact ⟨x, scope, hscope, Term.var.inj hterm⟩
  · have hname := (hnames nestedScopes "sq2" (by simp [hscopes]) "sq1" (by simp [hscopes]) _ _).1 h
    exact absurd hname.2 (by decide)

end Naming

end QueryContainment
