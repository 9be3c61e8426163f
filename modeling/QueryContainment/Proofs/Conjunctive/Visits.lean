import QueryContainment.Proofs.Algebra.Places
import QueryContainment.Proofs.Conjunctive.Fragment

namespace QueryContainment

/-- A call of a visitor: at which place, on which node, and whether the children are visited. -/
structure VisitorCall where
  place : Place
  node : Pattern
  answer : Bool

def VisitorCall.under (i : Nat) (c : VisitorCall) : VisitorCall := { c with place := i :: c.place }

def VisitorCall.ofChildren : Nat → List (List VisitorCall) → List VisitorCall
  | _, [] => []
  | i, calls :: rest => calls.map (.under i) ++ ofChildren (i + 1) rest

namespace Pattern

open VisitorCall

variable {σ : Type} {visit : Pattern → σ → Bool × σ} {p node : Pattern} {place : Place} {i : Nat}
  {c : VisitorCall} {calls : List VisitorCall} {l : List (List VisitorCall)}

theorem children_induction {motive : Pattern → Prop}
    (h : ∀ p : Pattern, (∀ child ∈ p.children, motive child) → motive p) (p : Pattern) :
    motive p := by
  induction p with
  | bgp | path | values => exact h _ (List.forall_mem_nil _)
  | join left right ihl ihr | leftJoin left right ihl ihr | union left right ihl ihr
  | minus left right ihl ihr =>
    exact h _ (List.forall_mem_cons.2 ⟨ihl, List.forall_mem_singleton.2 ihr⟩)
  | filter inner ih | graph name inner ih | extend inner name ih | orderBy inner ih
  | distinct inner ih | reduced inner ih | slice inner ih | project inner names ih
  | group inner vars aggregates ih | service name inner ih =>
    exact h _ (List.forall_mem_singleton.2 ih)

theorem nodes_eq (p : Pattern) : p.nodes = p :: p.children.flatMap nodes := by
  cases p <;> simp only [nodes, children, List.flatMap_cons, List.flatMap_nil, List.append_nil]

theorem walk_eq (visit : Pattern → σ → Bool × σ) (p : Pattern) (s : σ) : p.walk visit s =
    if (visit p s).1 then p.children.foldl (fun s child => child.walk visit s) (visit p s).2
    else (visit p s).2 := by
  cases p with
  | bgp | path | values => exact (ite_self _).symm
  | join | leftJoin | union | minus | filter | graph | extend | orderBy | distinct | reduced
  | slice | project | group | service =>
    rw [walk]
    rcases visit _ s with ⟨_ | _, s'⟩ <;> rfl

theorem mem_nodes_iff : node ∈ p.nodes ↔ ∃ place, p.at? place = some node := by
  induction p using children_induction generalizing node with
  | h p ih =>
    rw [nodes_eq, List.mem_cons, List.mem_flatMap]
    constructor
    · rintro (rfl | ⟨child, hchild, hnode⟩)
      · exact ⟨[], rfl⟩
      · obtain ⟨i, hi⟩ := List.mem_iff_getElem?.1 hchild
        obtain ⟨place, hplace⟩ := (ih child hchild).1 hnode
        exact ⟨i :: place, (at?_cons hi).trans hplace⟩
    · rintro ⟨place, hplace⟩
      cases place with
      | nil => exact .inl (Option.some.inj hplace).symm
      | cons i place =>
        obtain ⟨child, hi, hnode⟩ := Option.bind_eq_some_iff.1 hplace
        have hchild := List.mem_of_getElem? hi
        exact .inr ⟨child, hchild, (ih child hchild).2 ⟨place, hnode⟩⟩

theorem exists_of_forall₂ {α β : Type} {R : α → β → Prop} {l : List α} {l' : List β}
    (h : List.Forall₂ R l l') {i : Nat} {a : α} (ha : l[i]? = some a) :
    ∃ b, l'[i]? = some b ∧ R a b := by
  obtain ⟨hi, rfl⟩ := List.getElem?_eq_some_iff.1 ha
  have hi' := h.length_eq ▸ hi
  exact ⟨l'[i], List.getElem?_eq_getElem hi', h.get hi hi'⟩

/-- Calls made one after the other, each with the state that the one before has left. -/
inductive Made (visit : Pattern → σ → Bool × σ) : σ → List VisitorCall → σ → Prop
  | done (s : σ) : Made visit s [] s
  | call {c : VisitorCall} {calls : List VisitorCall} {s s' s'' : σ}
    (answered : visit c.node s = (c.answer, s')) (others : Made visit s' calls s'') :
    Made visit s (c :: calls) s''

def Reached (calls : List VisitorCall) (place : Place) : Prop := ∃ c ∈ calls, c.place = place

def Entered (calls : List VisitorCall) (place : Place) : Prop :=
  ∃ c ∈ calls, c.place = place ∧ c.answer = true

/-- The calls of a pruned walk through a pattern. -/
structure Pruned (p : Pattern) (calls : List VisitorCall) : Prop where
  node : ∀ c ∈ calls, p.at? c.place = some c.node
  /-- A node is reached if and only if all its proper ancestors are entered. -/
  reached_iff : ∀ place, Reached calls place ↔ (p.at? place).isSome ∧
    ∀ above, above <+: place → above ≠ place → Entered calls above
  /-- The calls come in pre-order, and no two are made at one place. -/
  ordered : calls.Pairwise fun c c' => c.place < c'.place

theorem Made.append {s s' s'' : σ} {calls' : List VisitorCall} (h : Made visit s calls s')
    (h' : Made visit s' calls' s'') : Made visit s (calls ++ calls') s'' := by
  induction h with
  | done => exact h'
  | call answered _ ih => exact .call answered (ih h')

theorem Made.map_under {s s' : σ} (h : Made visit s calls s') (i : Nat) :
    Made visit s (calls.map (.under i)) s' := by
  induction h with
  | done s => exact .done s
  | call answered _ ih => exact .call answered ih

theorem mem_ofChildren : c ∈ ofChildren i l ↔
    ∃ (j : Nat) (calls : List VisitorCall) (c' : VisitorCall),
      l[j]? = some calls ∧ c' ∈ calls ∧ c = c'.under (i + j) := by
  induction l generalizing i with
  | nil => simp [ofChildren]
  | cons calls l ih =>
    rw [ofChildren, List.mem_append, List.mem_map, ih]
    constructor
    · rintro (⟨c', hc', rfl⟩ | ⟨j, calls', c', hj, hc', rfl⟩)
      · exact ⟨0, calls, c', rfl, hc', rfl⟩
      · exact ⟨j + 1, calls', c', hj, hc', by rw [Nat.add_right_comm, Nat.add_assoc]⟩
    · rintro ⟨_ | j, calls', c', hj, hc', rfl⟩
      · obtain rfl : calls = calls' := Option.some.inj hj
        exact .inl ⟨c', hc', rfl⟩
      · exact .inr ⟨j, calls', c', hj, hc', by rw [Nat.add_right_comm, Nat.add_assoc]⟩

theorem ordered_ofChildren
    (h : ∀ calls ∈ l, calls.Pairwise fun c c' => c.place < c'.place) (i : Nat) :
    (ofChildren i l).Pairwise fun c c' => c.place < c'.place := by
  induction l generalizing i with
  | nil => exact .nil
  | cons calls l ih =>
    obtain ⟨hcalls, hrest⟩ := List.forall_mem_cons.1 h
    refine List.pairwise_append.2 ⟨List.pairwise_map.2 (hcalls.imp fun hlt => ?_), ih hrest (i + 1),
      fun c hc c' hc' => ?_⟩
    · exact List.cons_lt_cons_iff.2 (.inr ⟨rfl, hlt⟩)
    · obtain ⟨d, -, rfl⟩ := List.mem_map.1 hc
      obtain ⟨j, -, d', -, -, rfl⟩ := mem_ofChildren.1 hc'
      exact List.cons_lt_cons_iff.2 (.inl (by omega))

theorem pruned_of_refused (p : Pattern) : p.Pruned [⟨[], p, false⟩] := by
  refine ⟨fun c hc => ?_, fun place => ?_, List.pairwise_singleton _ _⟩
  · obtain rfl := List.mem_singleton.1 hc
    rfl
  · cases place with
    | nil => simp [at?, Reached, Entered]
    | cons i place =>
      simpa [Reached, Entered] using
        fun _ => ⟨[], List.nil_prefix, List.cons_ne_nil _ _ ∘ Eq.symm⟩

theorem exists_of_mem_under (hc : c ∈ ⟨[], p, true⟩ :: ofChildren 0 l)
    (hplace : c.place = i :: place) : ∃ (calls : List VisitorCall) (c' : VisitorCall),
      l[i]? = some calls ∧ c' ∈ calls ∧ c = c'.under i := by
  rcases List.mem_cons.1 hc with rfl | hc
  · cases hplace
  · obtain ⟨j, calls, c', hj, hc', rfl⟩ := mem_ofChildren.1 hc
    rw [Nat.zero_add] at hplace ⊢
    obtain ⟨rfl, -⟩ := List.cons.inj hplace
    exact ⟨calls, c', hj, hc', rfl⟩

theorem under_mem (hi : l[i]? = some calls) (hc : c ∈ calls) :
    c.under i ∈ ⟨[], p, true⟩ :: ofChildren 0 l :=
  List.mem_cons_of_mem _ (mem_ofChildren.2 ⟨i, calls, c, hi, hc, by rw [Nat.zero_add]⟩)

theorem exists_under_iff {P : VisitorCall → Prop} (hP : ∀ c, P (.under i c) ↔ P c)
    (hi : l[i]? = some calls) :
    (∃ c ∈ ⟨[], p, true⟩ :: ofChildren 0 l, c.place = i :: place ∧ P c) ↔
      ∃ c ∈ calls, c.place = place ∧ P c := by
  constructor
  · rintro ⟨c, hc, hplace, h⟩
    obtain ⟨calls', c', hi', hc', rfl⟩ := exists_of_mem_under hc hplace
    obtain rfl : calls = calls' := Option.some.inj (hi.symm.trans hi')
    exact ⟨c', hc', (List.cons.inj hplace).2, (hP c').1 h⟩
  · rintro ⟨c, hc, rfl, h⟩
    exact ⟨c.under i, under_mem hi hc, rfl, (hP c).2 h⟩

theorem reached_under_iff (hi : l[i]? = some calls) :
    Reached (⟨[], p, true⟩ :: ofChildren 0 l) (i :: place) ↔ Reached calls place := by
  simpa only [Reached, and_true] using exists_under_iff (P := fun _ => True) (fun _ => Iff.rfl) hi

theorem entered_under_iff (hi : l[i]? = some calls) :
    Entered (⟨[], p, true⟩ :: ofChildren 0 l) (i :: place) ↔ Entered calls place :=
  exists_under_iff (fun _ => Iff.rfl) hi

theorem reached_iff_of_children (h : List.Forall₂ Pruned p.children l) (place : Place) :
    Reached (⟨[], p, true⟩ :: ofChildren 0 l) place ↔ (p.at? place).isSome ∧
      ∀ above, above <+: place → above ≠ place →
        Entered (⟨[], p, true⟩ :: ofChildren 0 l) above := by
  cases place with
  | nil =>
    exact ⟨fun _ => ⟨rfl, fun above habove hne => absurd (List.prefix_nil.1 habove) hne⟩,
      fun _ => ⟨_, List.mem_cons_self, rfl⟩⟩
  | cons i place =>
    cases hchild : p.children[i]? with
    | none =>
      have hnot : ¬Reached (⟨[], p, true⟩ :: ofChildren 0 l) (i :: place) := by
        rintro ⟨c, hc, hplace⟩
        obtain ⟨calls, c', hi, -⟩ := exists_of_mem_under hc hplace
        obtain ⟨child, hi', -⟩ := exists_of_forall₂ h.flip hi
        simp [hchild] at hi'
      simp [hnot, at?, hchild]
    | some child =>
      obtain ⟨calls, hi, hpruned⟩ := exists_of_forall₂ h hchild
      rw [reached_under_iff hi, hpruned.reached_iff, at?_cons hchild]
      -- the node itself is entered, and what is entered below is entered in the child
      refine and_congr_right fun _ => ⟨fun hentered above habove hne => ?_,
        fun hentered above habove hne => ?_⟩
      · cases above with
        | nil => exact ⟨_, List.mem_cons_self, rfl, rfl⟩
        | cons j above =>
          obtain ⟨rfl, hbelow⟩ := List.cons_prefix_cons.1 habove
          exact (entered_under_iff hi).2 (hentered above hbelow fun he => hne (congrArg _ he))
      · exact (entered_under_iff hi).1 (hentered (i :: above)
          (List.cons_prefix_cons.2 ⟨rfl, habove⟩) fun he => hne (List.cons.inj he).2)

theorem pruned_of_entered (h : List.Forall₂ Pruned p.children l) :
    p.Pruned (⟨[], p, true⟩ :: ofChildren 0 l) := by
  refine ⟨fun c hc => ?_, reached_iff_of_children h, List.pairwise_cons.2 ⟨fun c hc => ?_, ?_⟩⟩
  · rcases List.mem_cons.1 hc with rfl | hmem
    · rfl
    · obtain ⟨j, calls, c', hj, hc', rfl⟩ := mem_ofChildren.1 hmem
      obtain ⟨child, hchild, hpruned⟩ := exists_of_forall₂ h.flip hj
      rw [Nat.zero_add]
      exact (at?_cons hchild).trans (hpruned.node c' hc')
  · obtain ⟨j, -, c', -, -, rfl⟩ := mem_ofChildren.1 hc
    exact List.nil_lt_cons _ _
  · refine ordered_ofChildren (fun calls hcalls => ?_) 0
    obtain ⟨i, hi⟩ := List.mem_iff_getElem?.1 hcalls
    obtain ⟨child, -, hpruned⟩ := exists_of_forall₂ h.flip hi
    exact hpruned.ordered

theorem made_of_children {children : List Pattern}
    (h : ∀ child ∈ children, ∀ s : σ, ∃ calls, child.Pruned calls ∧
      Made visit s calls (child.walk visit s)) (i : Nat) (s : σ) :
    ∃ l, List.Forall₂ Pruned children l ∧
      Made visit s (ofChildren i l) (children.foldl (fun s child => child.walk visit s) s) := by
  induction children generalizing i s with
  | nil => exact ⟨[], .nil, .done s⟩
  | cons child children ih =>
    obtain ⟨hchild, hrest⟩ := List.forall_mem_cons.1 h
    obtain ⟨calls, hpruned, hmade⟩ := hchild s
    obtain ⟨l, hl, hothers⟩ := ih hrest (i + 1) (child.walk visit s)
    exact ⟨calls :: l, .cons hpruned hl, (hmade.map_under i).append hothers⟩

theorem exists_calls (visit : Pattern → σ → Bool × σ) (p : Pattern) (s : σ) :
    ∃ calls, p.Pruned calls ∧ Made visit s calls (p.walk visit s) := by
  induction p using children_induction generalizing s with
  | h p ih =>
    rw [walk_eq]
    obtain ⟨answer, s', h⟩ : ∃ answer s', visit p s = (answer, s') := ⟨_, _, rfl⟩
    cases answer with
    | false =>
      rw [h]
      exact ⟨_, p.pruned_of_refused, .call h (.done s')⟩
    | true =>
      obtain ⟨l, hl, hmade⟩ := made_of_children ih 0 s'
      rw [h]
      exact ⟨_, pruned_of_entered hl, .call h hmade⟩

/-- A visitor that also records the nodes on which it is called, with its answers. -/
def recorded (visit : Pattern → σ → Bool × σ) (node : Pattern)
    (s : σ × List (Pattern × Bool)) : Bool × (σ × List (Pattern × Bool)) :=
  ((visit node s.1).1, (visit node s.1).2, s.2 ++ [(node, (visit node s.1).1)])

theorem walk_recorded_fst (p : Pattern) (s : σ × List (Pattern × Bool)) :
    (p.walk (recorded visit) s).1 = p.walk visit s.1 := by
  induction p using children_induction generalizing s with
  | h p ih =>
    rw [walk_eq, walk_eq]
    have hfold (children : List Pattern) (h : ∀ child ∈ children, child ∈ p.children)
        (s : σ × List (Pattern × Bool)) :
        (children.foldl (fun s child => child.walk (recorded visit) s) s).1 =
          children.foldl (fun s child => child.walk visit s) s.1 := by
      induction children generalizing s with
      | nil => rfl
      | cons child children ihc =>
        obtain ⟨hchild, hrest⟩ := List.forall_mem_cons.1 h
        rw [List.foldl_cons, List.foldl_cons, ihc hrest, ih child hchild]
    cases hv : (visit p s.1).1 with
    | false => simp [recorded, hv]
    | true => simp [recorded, hv, hfold]

theorem Made.of_recorded {s s' : σ × List (Pattern × Bool)}
    (h : Made (recorded visit) s calls s') : Made visit s.1 calls s'.1 ∧
      s'.2 = s.2 ++ calls.map fun c => (c.node, c.answer) := by
  induction h with
  | done s => exact ⟨.done s.1, (List.append_nil _).symm⟩
  | @call c calls s s' s'' answered others ih =>
    obtain ⟨hanswer, rfl⟩ := Prod.mk.inj answered
    refine ⟨.call (Prod.ext hanswer rfl) ih.1, ?_⟩
    rw [ih.2, List.map_cons]
    simp [hanswer]

theorem foldl_or {α : Type} (f : α → Bool) (l : List α) (b : Bool) :
    l.foldl (fun b a => b || f a) b = (b || l.any f) := by
  induction l generalizing b with
  | nil => exact (Bool.or_false b).symm
  | cons a l ih => rw [List.foldl_cons, ih, List.any_cons, Bool.or_assoc]

theorem walk_hasPath (p : Pattern) (found : Bool) :
    p.walk (fun p found => (!(found || p.isPath), found || p.isPath)) found =
      (found || p.nodes.any isPath) := by
  induction p using children_induction generalizing found with
  | h p ih =>
    have hfold : p.children.foldl (fun found child => child.walk
        (fun p found => (!(found || p.isPath), found || p.isPath)) found) false =
          p.children.any fun child => child.nodes.any isPath := by
      rw [List.foldl_ext _ (fun found child => found || child.nodes.any isPath) false
        fun found child hchild => ih child hchild found, foldl_or, Bool.false_or]
    rw [walk_eq, nodes_eq, List.any_cons, List.any_flatMap, ← Bool.or_assoc]
    cases found || p.isPath with
    | true => rfl
    | false => exact hfold

theorem isPath_iff : p.isPath = true ↔ ∃ subject object, p = .path subject object := by
  cases p <;> simp [isPath]

theorem not_isPath_of_readable (hp : p.Readable) (hnode : node ∈ p.nodes) :
    node.isPath = false := by
  refine Bool.eq_false_iff.2 fun hpath => ?_
  obtain ⟨subject, object, rfl⟩ := isPath_iff.1 hpath
  exact absurd (hp _ hnode) (by simp [nodeRejection?])

end Pattern

open Pattern

namespace Query

theorem hasPath_eq (q : Query) : q.hasPath = q.pattern.nodes.any isPath := walk_hasPath _ false

theorem hasPath_iff {q : Query} : q.hasPath = true ↔
    ∃ place subject object, q.pattern.at? place = some (.path subject object) := by
  rw [hasPath_eq, List.any_eq_true]
  constructor
  · rintro ⟨node, hnode, hpath⟩
    obtain ⟨place, hplace⟩ := mem_nodes_iff.1 hnode
    obtain ⟨subject, object, rfl⟩ := isPath_iff.1 hpath
    exact ⟨place, subject, object, hplace⟩
  · rintro ⟨place, subject, object, hplace⟩
    exact ⟨_, mem_nodes_iff.2 ⟨place, hplace⟩, rfl⟩

theorem hasPath_of_readable {q : Query} (h : q.pattern.Readable) : q.hasPath = false := by
  rw [hasPath_eq]
  exact List.any_eq_false.2 fun node hnode => by simp [not_isPath_of_readable h hnode]

end Query

/--
A walk calls its visitor, each time with the state that the call before has left, once on each of
the nodes all of whose proper ancestors were answered with true and on no other, in pre-order, the
left before the right. A visitor that records its calls has seen just these. So a query has a path
if and only if there is one at some place in its pattern, although nothing below the first one found
is visited, and a query that is read has none.
-/
theorem walk_visits :
    (∀ {σ : Type} (visit : Pattern → σ → Bool × σ) (p : Pattern) (s : σ),
      ∃ calls, p.Pruned calls ∧ Made visit s calls (p.walk visit s) ∧
        p.walk (recorded visit) (s, []) =
          (p.walk visit s, calls.map fun c => (c.node, c.answer))) ∧
    (∀ q : Query, q.hasPath = true ↔
      ∃ place subject object, q.pattern.at? place = some (.path subject object)) ∧
    ∀ (n : Naming) (q : Query) (r : ConjunctiveQuery Symbol),
      (n.readQuery q).1 = .ok r → q.hasPath = false := by
  refine ⟨fun visit p s => ?_, fun q => Query.hasPath_iff, fun n q r h => ?_⟩
  · obtain ⟨calls, hpruned, hmade⟩ := exists_calls (recorded visit) p (s, [])
    obtain ⟨hvisit, hrecord⟩ := hmade.of_recorded
    have hwalk : (p.walk (recorded visit) (s, [])).1 = p.walk visit s :=
      p.walk_recorded_fst (s, [])
    rw [hwalk] at hvisit
    exact ⟨calls, hpruned, hvisit, Prod.ext hwalk hrecord⟩
  · obtain ⟨r', hr'⟩ := Naming.exists_readQuery_iff.1 ⟨r, h⟩
    exact Query.hasPath_of_readable (Flattened.ofQuery_eq_ok_iff.1 ⟨r', hr'⟩).2.2

/-- A path, a basic pattern beside it, and a clause with a second path. -/
def twoPaths : Pattern :=
  .union (.join (.path (.var "x") (.var "y")) (.bgp []))
    (.service (.iri "e") (.path (.var "y") (.var "z")))

/-- The walk that looks for a path goes on beside the first one, but no further down. -/
theorem walk_visits_twoPaths :
    (∃ calls, twoPaths.Pruned calls ∧ calls.map (fun c => (c.node, c.answer)) =
      [(twoPaths, true), (.join (.path (.var "x") (.var "y")) (.bgp []), true),
        (.path (.var "x") (.var "y"), false), (.bgp [], false),
        (.service (.iri "e") (.path (.var "y") (.var "z")), false)]) ∧
    (⟨.ask, twoPaths, false⟩ : Query).hasPath = true ∧
    ∃ r, (Naming.empty.readQuery ⟨.ask, .service (.iri "e") (.bgp []), false⟩).1 = .ok r ∧
      (⟨.ask, .service (.iri "e") (.bgp []), false⟩ : Query).hasPath = false := by
  refine ⟨?_, ?_, _, rfl, walk_visits.2.2 Naming.empty _ _ rfl⟩
  · obtain ⟨calls, hpruned, -, hrecord⟩ := walk_visits.1
      (fun p found => (!(found || p.isPath), found || p.isPath)) twoPaths false
    exact ⟨calls, hpruned, (congrArg Prod.snd hrecord).symm.trans rfl⟩
  · exact (walk_visits.2.1 ⟨.ask, twoPaths, false⟩).2 ⟨[0, 0], _, _, rfl⟩

end QueryContainment
