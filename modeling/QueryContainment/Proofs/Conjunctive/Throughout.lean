import QueryContainment.Proofs.Conjunctive.Flat
import QueryContainment.Proofs.Conjunctive.Readable

namespace QueryContainment

namespace ConjunctiveQuery

variable {α β γ δ : Type} {N : ConjunctiveQuery α → ConjunctiveQuery β → Prop}

mutual

/-- `N` relates two queries, and the queries that they send to their endpoints, at every depth. -/
def Throughout (N : ConjunctiveQuery α → ConjunctiveQuery β → Prop) :
    ConjunctiveQuery α → ConjunctiveQuery β → Prop
  | ⟨atoms, answer, other, services⟩, q' =>
    N ⟨atoms, answer, other, services⟩ q' ∧ ThroughoutServices N services q'.services

def ThroughoutServices (N : ConjunctiveQuery α → ConjunctiveQuery β → Prop) :
    List (String × ConjunctiveQuery α) → List (String × ConjunctiveQuery β) → Prop
  | [], [] => True
  | (url, q) :: rest, (url', q') :: rest' =>
    url = url' ∧ Throughout N q q' ∧ ThroughoutServices N rest rest'
  | _, _ => False

end

/-- Two services at the same endpoint. -/
def SameEndpoint (P : α → β → Prop) (e : String × α) (e' : String × β) : Prop :=
  e.1 = e'.1 ∧ P e.2 e'.2

theorem throughoutServices_iff {l : List (String × ConjunctiveQuery α)}
    {l' : List (String × ConjunctiveQuery β)} :
    ThroughoutServices N l l' ↔ List.Forall₂ (SameEndpoint (Throughout N)) l l' := by
  induction l generalizing l' with
  | nil => cases l' <;> simp [ThroughoutServices]
  | cons e l ih =>
    cases l' with
    | nil => simp [ThroughoutServices]
    | cons e' l' => simp [ThroughoutServices, SameEndpoint, ih, and_assoc]

theorem throughout_iff {q : ConjunctiveQuery α} {q' : ConjunctiveQuery β} : Throughout N q q' ↔
    N q q' ∧ List.Forall₂ (SameEndpoint (Throughout N)) q.services q'.services := by
  rw [← throughoutServices_iff]
  cases q
  rfl

mutual

/-- What relates the symbols relates the queries in which they are put in place. -/
theorem Throughout.map {f : α → γ} {g : β → δ}
    {N' : ConjunctiveQuery γ → ConjunctiveQuery δ → Prop}
    (hN : ∀ q q', N q q' → N' (q.map f) (q'.map g)) :
    ∀ {q : ConjunctiveQuery α} {q' : ConjunctiveQuery β}, Throughout N q q' →
      Throughout N' (q.map f) (q'.map g)
  | ⟨_, _, _, _⟩, ⟨_, _, _, _⟩, h => ⟨hN _ _ h.1, ThroughoutServices.map hN h.2⟩

theorem ThroughoutServices.map {f : α → γ} {g : β → δ}
    {N' : ConjunctiveQuery γ → ConjunctiveQuery δ → Prop}
    (hN : ∀ q q', N q q' → N' (q.map f) (q'.map g)) :
    ∀ {l : List (String × ConjunctiveQuery α)} {l' : List (String × ConjunctiveQuery β)},
      ThroughoutServices N l l' → ThroughoutServices N' (mapServices f l) (mapServices g l')
  | [], [], _ => trivial
  | (_, _) :: _, (_, _) :: _, h =>
    ⟨h.1, Throughout.map hN h.2.1, ThroughoutServices.map hN h.2.2⟩

end

mutual

/-- Only parts of the two queries are related. -/
theorem Throughout.imp_mem {M : ConjunctiveQuery α → ConjunctiveQuery β → Prop} :
    ∀ {q : ConjunctiveQuery α} {q' : ConjunctiveQuery β},
      (∀ a ∈ q.parts, ∀ a' ∈ q'.parts, N a a' → M a a') → Throughout N q q' → Throughout M q q'
  | ⟨_, _, _, _⟩, ⟨_, _, _, _⟩, hN, h =>
    ⟨hN _ List.mem_cons_self _ List.mem_cons_self h.1,
      ThroughoutServices.imp_mem (fun a ha a' ha' =>
        hN a (List.mem_cons_of_mem _ ha) a' (List.mem_cons_of_mem _ ha')) h.2⟩

theorem ThroughoutServices.imp_mem {M : ConjunctiveQuery α → ConjunctiveQuery β → Prop} :
    ∀ {l : List (String × ConjunctiveQuery α)} {l' : List (String × ConjunctiveQuery β)},
      (∀ a ∈ partsOf l, ∀ a' ∈ partsOf l', N a a' → M a a') →
        ThroughoutServices N l l' → ThroughoutServices M l l'
  | [], [], _, _ => trivial
  | (_, _) :: _, (_, _) :: _, hN, h =>
    ⟨h.1, Throughout.imp_mem (fun a ha a' ha' =>
        hN a (List.mem_append_left _ ha) a' (List.mem_append_left _ ha')) h.2.1,
      ThroughoutServices.imp_mem (fun a ha a' ha' =>
        hN a (List.mem_append_right _ ha) a' (List.mem_append_right _ ha')) h.2.2⟩

end

end ConjunctiveQuery

open ConjunctiveQuery

namespace Pattern

variable {B : Pattern → Pattern → Prop} {p p' : Pattern}

/-- A relation between patterns holds of all that is joined for the endpoints of the patterns. -/
def HoldsOfEndpoints (B : Pattern → Pattern → Prop) : Prop :=
  ∀ p p', B p p' → List.Forall₂ (SameEndpoint B) p.endpoints p'.endpoints

theorem forall₂_addClause (hjoin : ∀ p p' r r', B p p' → B r r' → B (join p r) (join p' r'))
    {c c' : String × Pattern} (hc : SameEndpoint B c c') {l l' : List (String × Pattern)}
    (hl : List.Forall₂ (SameEndpoint B) l l') :
    List.Forall₂ (SameEndpoint B) (Flattened.addClause c l) (Flattened.addClause c' l') := by
  induction hl with
  | nil => exact .cons hc .nil
  | @cons e e' l l' he hrest ih =>
    obtain ⟨url, joined⟩ := e
    obtain ⟨url', joined'⟩ := e'
    obtain ⟨heq, hjoined⟩ : url = url' ∧ B joined joined' := he
    subst heq
    simp only [Flattened.addClause, hc.1]
    split
    · exact .cons ⟨rfl, hjoin _ _ _ _ hjoined hc.2⟩ hrest
    · exact .cons ⟨rfl, hjoined⟩ ih

/-- It does if it holds of the clauses, and of the joins of patterns of which it holds. -/
theorem forall₂_endpoints (hjoin : ∀ p p' r r', B p p' → B r r' → B (join p r) (join p' r'))
    (h : List.Forall₂ (SameEndpoint B) p.clauses p'.clauses) :
    List.Forall₂ (SameEndpoint B) p.endpoints p'.endpoints := by
  have hfold {cs cs' l l' : List (String × Pattern)} (hcs : List.Forall₂ (SameEndpoint B) cs cs')
      (hl : List.Forall₂ (SameEndpoint B) l l') : List.Forall₂ (SameEndpoint B)
        (cs.foldl (fun l c => Flattened.addClause c l) l)
        (cs'.foldl (fun l c => Flattened.addClause c l) l') := by
    induction hcs generalizing l l' with
    | nil => exact hl
    | cons hc _ ih => exact ih (forall₂_addClause hjoin hc hl)
  exact hfold h .nil

/-- So does a condition that what is joined for an endpoint takes over from the pattern. -/
theorem HoldsOfEndpoints.and {Q : Pattern → Prop} (hB : HoldsOfEndpoints B)
    (hQ : ∀ p, Q p → ∀ e ∈ p.endpoints, Q e.2) : HoldsOfEndpoints fun p p' => Q p ∧ B p p' := by
  rintro p p' ⟨hp, h⟩
  have hboth := (List.forall₂_and_left _ _).2 ⟨hQ p hp, hB p p' h⟩
  exact hboth.imp fun e e' ⟨hq, hurl, h⟩ => ⟨hurl, hq, h⟩

/-- What is joined for an endpoint has plain names if the pattern has. -/
theorem HoldsOfEndpoints.plainNames (hB : HoldsOfEndpoints B) (plain : Prop) :
    HoldsOfEndpoints fun p p' => (plain → p.PlainNames) ∧ B p p' :=
  hB.and fun _ hp _ he hplain => (hp hplain).of_mem_endpoints he

end Pattern

/-- The endpoints of a query are those of its pattern. -/
theorem Query.endpoints_inner (q : Query) : q.inner.endpoints = q.pattern.endpoints := by
  unfold inner
  split
  · rfl
  · exact q.pattern.endpoints_splitProjection

namespace Flattened

variable {B : Pattern → Pattern → Prop} {p p' : Pattern} {k k' : Nat}
  {r r' : ConjunctiveQuery Term}

def ReadFrom (B : Pattern → Pattern → Prop) (r r' : ConjunctiveQuery Term) : Prop :=
  ∃ p p' k k', B p p' ∧ (ofPattern k p).result = .ok r ∧ (ofPattern k' p').result = .ok r'

theorem forall₂_services_of_read {P : ConjunctiveQuery Term → ConjunctiveQuery Term → Prop}
    {l l' : List (String × Pattern)} (hl : List.Forall₂ (SameEndpoint B) l l')
    {found found' : List (String × ConjunctiveQuery Term)}
    (hs : (services ofPattern k l).result = .ok found)
    (hs' : (services ofPattern k' l').result = .ok found')
    (hP : ∀ e ∈ l, ∀ b' j j' s s', B e.2 b' → (ofPattern j e.2).result = .ok s →
      (ofPattern j' b').result = .ok s' → P s s') :
    List.Forall₂ (SameEndpoint P) found found' := by
  have hread := forall₂_services hs
  have hread' := forall₂_services hs'
  clear hs hs'
  induction hl generalizing found found' with
  | nil =>
    cases hread
    cases hread'
    exact .nil
  | @cons e e' l l' he _ ih =>
    cases hread with
    | @cons _ s _ _ hfirst hrest =>
      cases hread' with
      | @cons _ s' _ _ hfirst' hrest' =>
        obtain ⟨hurl, j, hj⟩ := hfirst
        obtain ⟨hurl', j', hj'⟩ := hfirst'
        refine .cons ⟨?_, hP e List.mem_cons_self e'.2 j j' _ _ he.2 hj hj'⟩
          (ih (fun e he => hP e (List.mem_cons_of_mem _ he)) hrest hrest')
        rw [hurl, hurl', he.1]

theorem forall₂_services_of_body {P : ConjunctiveQuery Term → ConjunctiveQuery Term → Prop}
    (hl : List.Forall₂ (SameEndpoint B) p.endpoints p'.endpoints)
    {projection projection' : Option (List String)}
    (hr : (body ofPattern k projection p).result = .ok r)
    (hr' : (body ofPattern k' projection' p').result = .ok r')
    (hP : ∀ e ∈ p.endpoints, ∀ b' j j' s s', B e.2 b' → (ofPattern j e.2).result = .ok s →
      (ofPattern j' b').result = .ok s' → P s s') :
    List.Forall₂ (SameEndpoint P) r.services r'.services := by
  obtain ⟨-, found, hs, rfl⟩ := body_result hr
  obtain ⟨-, found', hs', rfl⟩ := body_result hr'
  rw [Pattern.endpoints_steps] at hs hs'
  exact forall₂_services_of_read hl hs hs' hP

/-- What is read from related patterns is read from related patterns at every depth. -/
theorem throughout_ofPattern (hB : Pattern.HoldsOfEndpoints B) (h : B p p')
    (hr : (ofPattern k p).result = .ok r) (hr' : (ofPattern k' p').result = .ok r') :
    Throughout (ReadFrom B) r r' := by
  induction p using endpoint_induction generalizing p' k k' r r' with
  | pattern p ih =>
    refine throughout_iff.2 ⟨⟨p, p', k, k', h, hr, hr'⟩, ?_⟩
    have hendpoints := hB p p' h
    rw [← p.endpoints_splitProjection, ← p'.endpoints_splitProjection] at hendpoints
    rw [ofPattern_eq] at hr hr'
    refine forall₂_services_of_body hendpoints hr hr' fun e he b' j j' s s' hb hs hs' => ?_
    rw [← Pattern.endpoints_steps _ .root k] at he
    exact ih k e he hb hs hs'

/-- So are the queries that the endpoints of two queries are sent. -/
theorem throughoutServices_ofQuery (hB : Pattern.HoldsOfEndpoints B) {q q' : Query}
    (h : B q.pattern q'.pattern) (hr : (ofQuery k q).result = .ok r)
    (hr' : (ofQuery k' q').result = .ok r') :
    ThroughoutServices (ReadFrom B) r.services r'.services := by
  obtain ⟨projection, -, hbody⟩ := exists_body_of_ofQuery hr
  obtain ⟨projection', -, hbody'⟩ := exists_body_of_ofQuery hr'
  have hendpoints := hB _ _ h
  rw [← q.endpoints_inner, ← q'.endpoints_inner] at hendpoints
  rw [hbody] at hr
  rw [hbody'] at hr'
  exact throughoutServices_iff.2 (forall₂_services_of_body hendpoints hr hr'
    fun e _ b' j j' s s' hb hs hs' => throughout_ofPattern hB hb hs hs')

end Flattened

end QueryContainment
