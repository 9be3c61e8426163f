import QueryContainment.Proofs.Conjunctive.Traversal

namespace QueryContainment

open Naming

namespace Traversal

variable {t t' : Traversal}

/-- A traversal is made for an endpoint of another one. -/
def Calls (t t' : Traversal) : Prop := ∃ e ∈ t.body.endpoints, t' = .ofPattern e.2

/-- Clauses are nested less deeply in what is joined for an endpoint. -/
theorem Calls.serviceDepth_lt (h : t.Calls t') : t'.body.serviceDepth < t.body.serviceDepth := by
  obtain ⟨e, he, rfl⟩ := h
  have hlt : e.2.serviceDepth < t.body.serviceDepth := Flattened.serviceDepth_of_mem_endpoints he
  rwa [← Flattened.serviceDepth_splitProjection] at hlt

theorem wellFounded_calls : WellFounded fun t' t : Traversal => t.Calls t' :=
  Subrelation.wf Calls.serviceDepth_lt
    (InvImage.wf (fun t : Traversal => t.body.serviceDepth) Nat.lt_wfRel.wf)

/-- A clause inside a clause for the same endpoint. -/
def clauseInItself : Pattern := .service (.iri "e") (.service (.iri "e") (.bgp []))

/-- The endpoint is sent the join of the inner clause and its body, which has more nodes. -/
theorem exists_calls_more_nodes :
    ∃ t t' : Traversal, t.Calls t' ∧ t.body.nodes.length < t'.body.nodes.length :=
  ⟨.ofPattern clauseInItself, .ofPattern (.join (.service (.iri "e") (.bgp [])) (.bgp [])),
    ⟨_, List.mem_cons_self, rfl⟩, by decide⟩

end Traversal

namespace Naming

def stepsRead (k : Nat) (p : Pattern) : List Step :=
  (p.steps .root k).takeWhile (·.rejection?.isNone)

def assembled (n : Naming) (t : Traversal) (services : List (String × ConjunctiveQuery Symbol)) :
    ConjunctiveQuery Symbol :=
  .ofUsed (((t.body.steps .root n.scopes).filterMap Step.atom?).map
      (·.map (n.collect t.body).symbol))
    (Distinct.ofList ((t.body.steps .root n.scopes).flatMap Step.visible)) t.projection services

mutual

/-- With a table, a traversal is read to an outcome, and leaves another table. -/
inductive ReadsTo : Naming → Traversal → Except Rejection (ConjunctiveQuery Symbol) → Naming → Prop
  | rejected {n : Naming} {t : Traversal} {reason : Rejection}
    (rejects : (t.body.steps .root n.scopes).findSome? Step.rejection? = some reason) :
    ReadsTo n t (.error reason) (n.through ((stepsRead n.scopes t.body).flatMap Step.terms)
      (Step.scopes (stepsRead n.scopes t.body)))
  | collected {n n' : Naming} {t : Traversal}
    {o : Except Rejection (List (String × ConjunctiveQuery Symbol))}
    (accepts : (t.body.steps .root n.scopes).findSome? Step.rejection? = none)
    (endpoints : AllReadTo (n.collect t.body) t.body.endpoints o n') :
    ReadsTo n t (o.map (n.assembled t)) n'

/-- Endpoints are read one after the other, up to the first one that is rejected. -/
inductive AllReadTo : Naming → List (String × Pattern) →
    Except Rejection (List (String × ConjunctiveQuery Symbol)) → Naming → Prop
  | done (n : Naming) : AllReadTo n [] (.ok []) n
  | stopped {n n' : Naming} {url : String} {p : Pattern} {rest : List (String × Pattern)}
    {reason : Rejection} (first : ReadsTo n (.ofPattern p) (.error reason) n') :
    AllReadTo n ((url, p) :: rest) (.error reason) n'
  | next {n n' n'' : Naming} {url : String} {p : Pattern} {rest : List (String × Pattern)}
    {s : ConjunctiveQuery Symbol} {o : Except Rejection (List (String × ConjunctiveQuery Symbol))}
    (first : ReadsTo n (.ofPattern p) (.ok s) n') (others : AllReadTo n' rest o n'') :
    AllReadTo n ((url, p) :: rest) (o.map ((url, s) :: ·)) n''

end

mutual

theorem ReadsTo.unique {n : Naming} {t : Traversal}
    {o o' : Except Rejection (ConjunctiveQuery Symbol)} {n' n'' : Naming} :
    ReadsTo n t o n' → ReadsTo n t o' n'' → o = o' ∧ n' = n''
  | .rejected h, .rejected h' => ⟨congrArg _ (Option.some.inj (h.symm.trans h')), rfl⟩
  | .rejected h, .collected h' _ => nomatch h.symm.trans h'
  | .collected h _, .rejected h' => nomatch h.symm.trans h'
  | .collected _ h, .collected _ h' =>
    have heq := AllReadTo.unique h h'
    ⟨congrArg _ heq.1, heq.2⟩

theorem AllReadTo.unique {n : Naming} {l : List (String × Pattern)}
    {o o' : Except Rejection (List (String × ConjunctiveQuery Symbol))} {n' n'' : Naming} :
    AllReadTo n l o n' → AllReadTo n l o' n'' → o = o' ∧ n' = n''
  | .done _, .done _ => ⟨rfl, rfl⟩
  | .stopped h, .stopped h' =>
    have heq := ReadsTo.unique h h'
    ⟨congrArg _ (Except.error.inj heq.1), heq.2⟩
  | .stopped h, .next h' _ => nomatch (ReadsTo.unique h h').1
  | .next h _, .stopped h' => nomatch (ReadsTo.unique h h').1
  | .next h hrest, .next h' hrest' => by
    obtain ⟨hs, rfl⟩ := ReadsTo.unique h h'
    obtain ⟨rfl, rfl⟩ := AllReadTo.unique hrest hrest'
    rw [Except.ok.inj hs]
    exact ⟨rfl, rfl⟩

end

variable {n n' : Naming} {t : Traversal}

theorem allReadTo_of_readInTurn {l : List (String × Pattern)}
    {services : List (String × ConjunctiveQuery Symbol)} (h : ReadInTurn n l services n')
    (hread : ∀ e ∈ l, ∀ m : Naming,
      ReadsTo m (.ofPattern e.2) (m.readPattern e.2).1 (m.readPattern e.2).2) :
    AllReadTo n l (.ok services) n' := by
  induction h with
  | done n => exact .done n
  | @next n _ _ p _ _ _ first _ ih =>
    have hfirst : ReadsTo n (.ofPattern p) (n.readPattern p).1 (n.readPattern p).2 :=
      hread _ List.mem_cons_self n
    have hothers := ih fun e he => hread e (List.mem_cons_of_mem _ he)
    rw [first] at hfirst
    exact .next hfirst hothers

theorem map_eq_assembled {r : ConjunctiveQuery Term} (h : (t.read n.scopes).result = .ok r) :
    r.map (n.past (t.read n.scopes)).symbol =
      n.assembled t (r.map (n.past (t.read n.scopes)).symbol).services := by
  obtain ⟨hnone, services, -, rfl⟩ := Flattened.body_result h
  have hpast : ∃ us j, n.past (t.read n.scopes) = (n.collect t.body).through us j := by
    rw [Traversal.read, Flattened.body_eq Flattened.ofPattern n.scopes t.projection hnone]
    exact ⟨_, _, (n.through_through _ _ _ _).symm⟩
  obtain ⟨us, j, hpast⟩ := hpast
  have hatoms : ((t.body.steps .root n.scopes).filterMap Step.atom?).map
      (·.map (n.past (t.read n.scopes)).symbol) =
        ((t.body.steps .root n.scopes).filterMap Step.atom?).map
          (·.map (n.collect t.body).symbol) := by
    refine List.map_congr_left fun a ha => Atom.map_congr fun u hu => ?_
    obtain ⟨visible, hmem⟩ := Flattened.mem_atoms ha
    rw [hpast]
    exact n.symbol_through us _ j (List.mem_flatMap.2 ⟨_, hmem, hu⟩)
  rw [ConjunctiveQuery.ofUsed, ConjunctiveQuery.map, ConjunctiveQuery.services, hatoms]
  rfl

/-- Each traversal is read to what `Traversal.read` says. -/
theorem readsTo_read (n : Naming) (t : Traversal) :
    ReadsTo n t (n.name (t.read n.scopes)).1 (n.name (t.read n.scopes)).2 := by
  induction t using Traversal.wellFounded_calls.induction generalizing n with
  | _ t ih =>
    cases hr : (t.body.steps .root n.scopes).findSome? Step.rejection? with
    | some reason =>
      have hread : t.read n.scopes = ⟨(stepsRead n.scopes t.body).flatMap Step.terms,
          Step.scopes (stepsRead n.scopes t.body), .error reason⟩ := by
        simp only [Traversal.read, Flattened.body, hr, stepsRead]
      rw [hread]
      exact .rejected hr
    | none =>
      have hp : t.body.Readable := Pattern.accepted_steps_iff.1 (List.findSome?_eq_none_iff.1 hr)
      obtain ⟨r, hread⟩ : ∃ r, (t.read n.scopes).result = .ok r :=
        Flattened.exists_body hp
          (fun e he j => Flattened.exists_ofPattern (hp.of_mem_endpoints he) j) t.projection
      have hendpoints : AllReadTo (n.collect t.body) t.body.endpoints
          (.ok (r.map (n.past (t.read n.scopes)).symbol).services) (n.past (t.read n.scopes)) := by
        refine allReadTo_of_readInTurn (readInTurn_body hread) fun e he m => ?_
        have hcall := ih _ ⟨e, he, rfl⟩ m
        rwa [Traversal.read_ofPattern] at hcall
      have hname : (n.name (t.read n.scopes)).1 =
          .ok (r.map (n.past (t.read n.scopes)).symbol) := by
        rw [name, hread]
        rfl
      rw [hname, map_eq_assembled hread]
      exact .collected hr hendpoints

end Naming

end QueryContainment
