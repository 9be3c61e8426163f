import QueryContainment.Proofs.Conjunctive.Variables
import QueryContainment.Proofs.Conjunctive.Visits
import QueryContainment.Proofs.Sparql.Names
import QueryContainment.Sparql.Text

namespace QueryContainment

namespace Pattern

variable {p left right inner : Pattern}

theorem plainNames_bgp {triples : List TriplePattern} :
    (bgp triples).PlainNames ↔ ∀ t ∈ triples, Sparql.Plain t.vars :=
  List.forall_mem_singleton.trans Sparql.plain_flatMap

theorem PlainNames.child (h : p.PlainNames) (hinner : inner ∈ p.children) : inner.PlainNames := by
  intro triples htriples
  refine h triples (mem_basics.2 ?_)
  rw [nodes_eq]
  exact List.mem_cons_of_mem _ (List.mem_flatMap.2 ⟨inner, hinner, mem_basics.1 htriples⟩)

theorem plainNames_of_children (hp : p.children ≠ [])
    (h : ∀ child ∈ p.children, child.PlainNames) : p.PlainNames := by
  intro triples htriples
  rw [mem_basics, nodes_eq, List.mem_cons, List.mem_flatMap] at htriples
  rcases htriples with rfl | ⟨child, hchild, htriples⟩
  · exact absurd rfl hp
  · exact h child hchild triples (mem_basics.2 htriples)

theorem PlainNames.above (h : inner.PlainNames) (hp : p.children = [inner]) : p.PlainNames :=
  plainNames_of_children (by simp [hp]) (by simpa [hp] using h)

theorem PlainNames.both (hl : left.PlainNames) (hr : right.PlainNames)
    (hp : p.children = [left, right]) : p.PlainNames :=
  plainNames_of_children (by simp [hp]) (by simpa [hp] using ⟨hl, hr⟩)

end Pattern

namespace Sparql

open Reader Pattern

variable {p q : Pattern} {inner : Inner} {m : Modifiers}

theorem plainNames_conjoin (hp : p.PlainNames) (hq : q.PlainNames) : (conjoin p q).PlainNames := by
  fun_induction conjoin p q with
  | case1 q => exact hq
  | case2 p => exact hp
  | case3 a b =>
    exact plainNames_bgp.2 (List.forall_mem_append.2 ⟨plainNames_bgp.1 hp, plainNames_bgp.1 hq⟩)
  | case4 g p q ih =>
    -- graphs of the same name are joined below that name
    exact (ih (hp.child (by simp [children])) (hq.child (by simp [children]))).above rfl
  | case5 => exact hp.both hq rfl
  | case6 => exact hp.both hq rfl

theorem plainNames_of_mem_runs {links : List Link} (h : PlainLinks links) :
    ∀ p ∈ runs links, p.PlainNames := by
  fun_induction runs links with
  | case1 => exact List.forall_mem_nil _
  | case2 subject object rest ih =>
    refine List.forall_mem_cons.2 ⟨List.forall_mem_nil _, ih ?_⟩
    exact (List.forall_mem_cons.1 h).2
  | case3 t rest ts others hruns ih =>
    obtain ⟨ht, hrest⟩ := List.forall_mem_cons.1 h
    obtain ⟨hts, hothers⟩ := List.forall_mem_cons.1 (hruns ▸ ih hrest)
    refine List.forall_mem_cons.2 ⟨plainNames_bgp.2 ?_, hothers⟩
    exact List.forall_mem_cons.2 ⟨ht, plainNames_bgp.1 hts⟩
  | case4 t rest hnone ih =>
    obtain ⟨ht, hrest⟩ := List.forall_mem_cons.1 h
    refine List.forall_mem_cons.2 ⟨plainNames_bgp.2 ?_, ih hrest⟩
    exact List.forall_mem_singleton.2 ht

theorem plainNames_patternOfLinks {links : List Link} (h : PlainLinks links) :
    (patternOfLinks links).PlainNames := by
  have hfold (l : List Pattern) (p : Pattern) (hl : ∀ q ∈ l, q.PlainNames) (hp : p.PlainNames) :
      (l.foldl conjoin p).PlainNames := by
    induction l generalizing p with
    | nil => exact hp
    | cons q l ih =>
      obtain ⟨hq, hl⟩ := List.forall_mem_cons.1 hl
      exact ih _ hl (plainNames_conjoin hp hq)
  exact hfold _ _ (plainNames_of_mem_runs h) (plainNames_bgp.2 (List.forall_mem_nil _))

theorem gives_table : Gives PlainNames table := by
  unfold table
  refine Gives.orElse ?_ ?_
  · exact Gives.after fun _ => Gives.after fun _ => Gives.after fun _ =>
      gives_pure (List.forall_mem_nil _)
  · exact Gives.after fun _ => Gives.after fun _ => Gives.after fun _ => Gives.after fun _ =>
      gives_pure (List.forall_mem_nil _)

/-- A table that follows a query has no triples. -/
theorem gives_modifiers (inner : Inner) :
    Gives (fun m => ∀ p ∈ m.values, p.PlainNames) (modifiers inner) := by
  have hvalues : Gives PlainNames (do keyword "VALUES"; space; table) :=
    Gives.after fun _ => Gives.after fun _ => gives_table
  refine Gives.after fun grouping => Gives.after fun _ => Gives.after fun having => ?_
  refine Gives.after fun _ => Gives.after fun ordering => Gives.after fun _ => ?_
  refine Gives.after fun slice => Gives.after fun _ => ?_
  exact hvalues.optional.bind fun values hvalues => gives_pure hvalues

theorem plainNames_grouped {aggregates : List String} {body : Pattern}
    (hm : ∀ p ∈ m.values, p.PlainNames) (hbody : body.PlainNames) :
    (grouped m aggregates body).PlainNames := by
  have hbinds (names : List String) (p : Pattern) (hp : p.PlainNames) :
      (names.foldl extend p).PlainNames := by
    induction names generalizing p with
    | nil => exact hp
    | cons name names ih => exact ih _ (hp.above rfl)
  have hgrouped (g : Grouping) : (group (g.binds.foldl extend body) g.vars aggregates).PlainNames :=
    (hbinds g.binds body hbody).above rfl
  have hungrouped : (if aggregates.isEmpty then body else group body [] aggregates).PlainNames := by
    split
    · exact hbody
    · exact hbody.above rfl
  have hfiltered {p : Pattern} (hp : p.PlainNames) :
      (if m.isFiltered then filter p else p).PlainNames := by
    split
    · exact hp.above rfl
    · exact hp
  obtain ⟨grouping, isFiltered, isOrdered, isSliced, values⟩ := m
  cases grouping with
  | none =>
    cases values with
    | none => exact hfiltered hungrouped
    | some table => exact plainNames_conjoin (hfiltered hungrouped) (hm table rfl)
  | some g =>
    cases values with
    | none => exact hfiltered (hgrouped g)
    | some table => exact plainNames_conjoin (hfiltered (hgrouped g)) (hm table rfl)

theorem plainNames_of_listItems {isGrouped : Bool} {visible names names' : List String}
    {items : List Item} (hp : p.PlainNames)
    (h : listItems isGrouped visible items p names = some (q, names')) : q.PlainNames := by
  induction items generalizing p names with
  | nil =>
    cases h
    exact hp
  | cons item items ih =>
    cases item with
    | var name =>
      simp only [listItems] at h
      split at h
      · cases h
      · exact ih hp h
    | bind e name =>
      simp only [listItems] at h
      split at h
      · cases h
      · exact ih (hp.above rfl) h

/-- What a `SELECT` stands for: a projection below modifiers. -/
theorem exists_of_selected {d : Duplicates} {s : Selection} {aggregates : List String}
    {body : Pattern} (hm : ∀ p ∈ m.values, p.PlainNames) (hbody : body.PlainNames)
    (h : p ∈ selected d s m aggregates body) : ∃ inner names, inner.PlainNames ∧
      p = sliced m (withDuplicates d (.project (ordered m inner) names)) := by
  have hgrouped : (grouped m aggregates body).PlainNames := plainNames_grouped hm hbody
  cases s with
  | all =>
    change (if _ then none else some _) = some p at h
    split at h
    · cases h
    · exact ⟨_, _, hgrouped, (Option.some.inj h).symm⟩
  | items items =>
    obtain ⟨⟨inner, names⟩, hlist, hp⟩ := Option.bind_eq_some_iff.1 h
    exact ⟨inner, names, plainNames_of_listItems hgrouped hlist, (Option.some.inj hp).symm⟩

theorem plainNames_ordered (hp : p.PlainNames) : (ordered m p).PlainNames := by
  unfold ordered
  split
  · exact hp.above rfl
  · exact hp

theorem plainNames_sliced (hp : p.PlainNames) : (sliced m p).PlainNames := by
  unfold sliced
  split
  · exact hp.above rfl
  · exact hp

theorem plainNames_withDuplicates (d : Duplicates) (hp : p.PlainNames) :
    (withDuplicates d p).PlainNames := by
  cases d with
  | keep => exact hp
  | distinct => exact hp.above rfl
  | reduced => exact hp.above rfl

theorem plainNames_of_selected {d : Duplicates} {s : Selection} {aggregates : List String}
    {body : Pattern} (hm : ∀ p ∈ m.values, p.PlainNames) (hbody : body.PlainNames)
    (h : p ∈ selected d s m aggregates body) : p.PlainNames := by
  obtain ⟨inner, names, hinner, rfl⟩ := exists_of_selected hm hbody h
  have hproject : (project (ordered m inner) names).PlainNames :=
    (plainNames_ordered hinner).above rfl
  exact plainNames_sliced (plainNames_withDuplicates d hproject)

def Element.pattern? : Element → Option Pattern
  | join right | optional right | minus right => some right
  | filter | bind _ => none

def Element.Plain (e : Element) : Prop := ∀ p ∈ e.pattern?, p.PlainNames

theorem Element.plain_of_none {e : Element} (he : e.pattern? = none) : e.Plain := by
  simp [Plain, he]

theorem Element.plain_of_some {e : Element} (he : e.pattern? = some p) (hp : p.PlainNames) :
    e.Plain := by
  simpa [Plain, he] using hp

theorem plainNames_of_addElements {elements : List Element} (he : ∀ e ∈ elements, e.Plain)
    (hp : p.PlainNames) (hq : q ∈ addElements elements p) : q.PlainNames := by
  induction elements generalizing p with
  | nil =>
    cases hq
    exact hp
  | cons e elements ih =>
    obtain ⟨hfirst, hrest⟩ := List.forall_mem_cons.1 he
    cases e with
    | filter => exact ih hrest hp hq
    | join right => exact ih hrest (plainNames_conjoin hp (hfirst right rfl)) hq
    | optional right => exact ih hrest (hp.both (hfirst right rfl) rfl) hq
    | minus right => exact ih hrest (hp.both (hfirst right rfl) rfl) hq
    | bind name =>
      simp only [addElements] at hq
      split at hq
      · cases hq
      · exact ih hrest (hp.above rfl) hq

theorem plainNames_withoutFilter (hp : p.PlainNames) : (withoutFilter p).PlainNames := by
  unfold withoutFilter
  split
  · exact hp.child (by simp [children])
  · exact hp

theorem gives_block : Gives PlainNames block := by
  unfold block
  exact (gives_triples gives_pathVerb).map fun _ => plainNames_patternOfLinks

/-- The groups that are read have plain names. -/
def Inner.Plain (inner : Inner) : Prop := Gives PlainNames inner.group

theorem gives_whereClause (h : inner.Plain) : Gives PlainNames (whereClause inner) :=
  Gives.after fun _ => Gives.after fun _ => h

theorem gives_subSelect (h : inner.Plain) : Gives PlainNames (subSelect inner) := by
  refine Gives.after fun clause => (gives_whereClause h).bind fun body hbody => ?_
  refine Gives.after fun _ => (gives_modifiers inner).bind fun m hm => ?_
  refine Gives.after fun aggregates => ?_
  exact (gives_give _).mono fun p hp => plainNames_of_selected hm hbody hp

theorem gives_unions (h : inner.Plain) : Gives PlainNames (unions inner) := by
  refine ((h.seqLeft space).sepBy1 _).bind fun groups hgroups => ?_
  cases groups with
  | nil => exact gives_failure
  | cons first rest =>
    obtain ⟨hfirst, hrest⟩ := List.forall_mem_cons.1 hgroups
    refine gives_pure ?_
    induction rest generalizing first with
    | nil => exact hfirst
    | cons p rest ih =>
      obtain ⟨hp, hrest⟩ := List.forall_mem_cons.1 hrest
      have hunion : (union first p).PlainNames := hfirst.both hp rfl
      exact ih _ (List.forall_mem_cons.2 ⟨hunion, hrest⟩) hunion hrest

theorem gives_service (h : inner.Plain) : Gives PlainNames (service inner) := by
  have hclause : Gives PlainNames (do
      let name ← varOrIri
      space
      return .service name (← inner.group)) :=
    Gives.after fun _ => Gives.after fun _ => h.bind fun p hp => gives_pure (hp.above rfl)
  refine Gives.after fun _ => Gives.after fun _ => ?_
  exact Gives.orElse (Gives.after fun _ => hclause) hclause

theorem gives_graphClause (h : inner.Plain) : Gives PlainNames (graphClause inner) :=
  Gives.after fun _ => Gives.after fun _ => Gives.after fun _ => Gives.after fun _ =>
    h.bind fun _ hp => gives_pure (hp.above rfl)

theorem gives_element (h : inner.Plain) : Gives Element.Plain (element inner) := by
  unfold element
  -- groups, optional parts, differences, graphs, services, filters, bindings and tables
  refine Gives.orElse ?_ (Gives.orElse ?_ (Gives.orElse ?_ (Gives.orElse ?_ (Gives.orElse ?_
    (Gives.orElse ?_ (Gives.orElse ?_ ?_))))))
  · exact (gives_unions h).map fun _ => Element.plain_of_some rfl
  · refine Gives.after fun _ => Gives.after fun _ => h.bind fun p hp => gives_pure ?_
    exact Element.plain_of_some rfl (plainNames_withoutFilter hp)
  · refine Gives.after fun _ => Gives.after fun _ => h.bind fun p hp => gives_pure ?_
    exact Element.plain_of_some rfl hp
  · exact (gives_graphClause h).map fun _ => Element.plain_of_some rfl
  · exact (gives_service h).map fun _ => Element.plain_of_some rfl
  · refine Gives.after fun _ => Gives.after fun _ => Gives.after fun _ => gives_pure ?_
    exact Element.plain_of_none rfl
  · refine Gives.after fun _ => Gives.after fun _ => Gives.between ?_ _ _
    refine Gives.after fun _ => Gives.after fun _ => Gives.after fun _ => Gives.after fun _ => ?_
    exact Gives.after fun _ => gives_pure (Element.plain_of_none rfl)
  · refine Gives.after fun _ => Gives.after fun _ => gives_table.bind fun p hp => gives_pure ?_
    exact Element.plain_of_some rfl hp

theorem gives_elementAndBlock (h : inner.Plain) :
    Gives (∀ e ∈ ·, e.Plain) (elementAndBlock inner) := by
  refine (gives_element h).bind fun e he => Gives.after fun _ => Gives.after fun _ => ?_
  refine gives_block.optional.bind fun after hafter => Gives.after fun _ => gives_pure ?_
  refine List.forall_mem_cons.2 ⟨he, fun e' he' => ?_⟩
  obtain ⟨p, hp, rfl⟩ := by simpa using he'
  exact Element.plain_of_some rfl (hafter p hp)

theorem gives_groupBody (h : inner.Plain) : Gives PlainNames (groupBody inner) := by
  refine gives_block.optional.bind fun first hfirst => Gives.after fun _ => ?_
  refine (gives_elementAndBlock h).many.bind fun elements helements => ?_
  have hstart : (first.getD (.bgp [])).PlainNames :=
    getD_of_forall hfirst (plainNames_bgp.2 (List.forall_mem_nil _))
  have hall : ∀ e ∈ elements.flatten, e.Plain := by
    intro e he
    obtain ⟨l, hl, he⟩ := List.mem_flatten.1 he
    exact helements l hl e he
  refine (gives_give _).bind fun p hp => gives_pure ?_
  have hplain : p.PlainNames := plainNames_of_addElements hall hstart hp
  split
  · exact hplain.above rfl
  · exact hplain

theorem gives_groupOf (h : inner.Plain) : Gives PlainNames (groupOf inner) := by
  have hclosing {p : Reader Pattern} (hp : Gives PlainNames p) :
      Gives PlainNames (braced (do closeLabels; let a ← p; closeLabels; return a)) :=
    Gives.between (Gives.after fun _ => hp.bind fun _ ha => Gives.after fun _ => gives_pure ha) _ _
  exact Gives.orElse (hclosing (gives_groupBody h)) (hclosing (gives_subSelect h))

theorem plain_innerUpTo (n : Nat) : (innerUpTo n).Plain := by
  induction n with
  | zero => exact gives_failure
  | succ n ih => exact gives_groupOf ih

/-- What holds of every query that a text stands for. -/
structure Written (q : Query) : Prop where
  plain : q.pattern.PlainNames
  projected : q.ProjectsIfSelect ∨ ∃ inner, q.pattern = .slice inner

theorem splitProjection_of_selected {d : Duplicates} {s : Selection} {aggregates : List String}
    {body : Pattern} (hm : ∀ p ∈ m.values, p.PlainNames) (hbody : body.PlainNames)
    (h : p ∈ selected d s m aggregates body) :
    p.splitProjection.1.isSome ∨ ∃ inner, p = .slice inner := by
  obtain ⟨inner, names, -, rfl⟩ := exists_of_selected hm hbody h
  unfold sliced
  split
  · exact .inr ⟨_, rfl⟩
  · exact .inl (by cases d <;> rfl)

theorem written_of_form {q : Query} (hform : q.form ≠ .select) (hq : q.pattern.PlainNames) :
    Written q :=
  ⟨hq, .inl fun h => absurd h hform⟩

theorem gives_selectQuery (h : inner.Plain) : Gives Written (selectQuery inner) := by
  refine Gives.after fun (d, s) => Gives.after fun hasDataset => Gives.after fun _ => ?_
  refine (gives_whereClause h).bind fun body hbody => Gives.after fun _ => ?_
  refine (gives_modifiers inner).bind fun m hm => Gives.after fun aggregates => ?_
  refine (gives_give _).bind fun p hp => gives_pure ⟨plainNames_of_selected hm hbody hp, ?_⟩
  exact (splitProjection_of_selected hm hbody hp).imp_left fun hsome _ => hsome

theorem plainNames_unprojected {aggregates : List String} {body : Pattern}
    (hm : ∀ p ∈ m.values, p.PlainNames) (hbody : body.PlainNames) :
    (unprojected m aggregates body).PlainNames :=
  plainNames_sliced (plainNames_ordered (plainNames_grouped hm hbody))

theorem gives_askQuery (h : inner.Plain) : Gives Written (askQuery inner) := by
  refine Gives.after fun _ => Gives.after fun _ => Gives.after fun _ => Gives.after fun _ => ?_
  refine (gives_whereClause h).bind fun body hbody => Gives.after fun _ => ?_
  refine (gives_modifiers inner).bind fun m hm => Gives.after fun aggregates => gives_pure ?_
  exact written_of_form nofun (plainNames_unprojected hm hbody)

theorem gives_describeQuery (h : inner.Plain) : Gives Written (describeQuery inner) := by
  refine Gives.after fun _ => Gives.after fun _ => Gives.after fun items => Gives.after fun _ => ?_
  refine Gives.after fun hasDataset => Gives.after fun _ => ?_
  refine (gives_whereClause h).optional.bind fun body hbody => Gives.after fun _ => ?_
  refine (gives_modifiers inner).bind fun m hm => Gives.after fun aggregates => ?_
  have hplain : (body.getD (.bgp [])).PlainNames :=
    getD_of_forall hbody (plainNames_bgp.2 (List.forall_mem_nil _))
  cases items with
  | none => exact gives_pure (written_of_form nofun (plainNames_unprojected hm hplain))
  | some items =>
    refine (gives_give _).bind fun p hp => gives_pure ?_
    exact written_of_form nofun (plainNames_of_selected hm hplain hp)

theorem gives_templateBody : Gives PlainNames templateBody := by
  refine Gives.between ((gives_triples gives_simpleVerb).optional.bind fun links hlinks => ?_) _ _
  have hplain : PlainLinks (links.getD []) := getD_of_forall hlinks (List.forall_mem_nil _)
  exact gives_pure (plainNames_patternOfLinks hplain)

theorem gives_constructQuery (h : inner.Plain) : Gives Written (constructQuery inner) := by
  refine Gives.after fun _ => Gives.after fun _ => Gives.bind (P := fun b => b.1.PlainNames)
    (Gives.orElse ?_ ?_) fun (body, hasDataset) hbody => ?_
  · refine Gives.after fun _ => Gives.after fun _ => Gives.after fun hasDataset => ?_
    exact Gives.after fun _ => (gives_whereClause h).bind fun body hbody => gives_pure hbody
  · refine Gives.after fun hasDataset => Gives.after fun _ => Gives.after fun _ => ?_
    exact Gives.after fun _ => gives_templateBody.bind fun body hbody => gives_pure hbody
  · refine Gives.after fun _ => (gives_modifiers inner).bind fun m hm => ?_
    refine Gives.after fun aggregates => gives_pure ?_
    exact written_of_form nofun (plainNames_unprojected hm hbody)

theorem gives_query (h : inner.Plain) : Gives Written (query inner) := by
  have hform : Gives Written (selectQuery inner <|> constructQuery inner <|> describeQuery inner <|>
      askQuery inner) :=
    Gives.orElse (gives_selectQuery h) <| Gives.orElse (gives_constructQuery h) <|
      Gives.orElse (gives_describeQuery h) (gives_askQuery h)
  refine Gives.after fun _ => Gives.after fun _ => hform.bind fun q hq => ?_
  exact Gives.after fun _ => gives_pure hq

/-- The names of variables in a text are plain, and a `SELECT` is a projection below modifiers. -/
theorem written_of_ofText? {text : String} {q : Query} (h : ofText? text = some q) :
    Written q := by
  simp only [ofText?] at h
  split at h
  · next q' rest hrun =>
    split at h
    · obtain rfl := Option.some.inj h
      exact gives_query (plain_innerUpTo _) _ _ _ _ hrun
    · cases h
  · cases h

example : ofText? "SELECT ?s {?s ?p ?o}" =
    some ⟨.select, .project (.bgp [⟨.var "s", .var "p", .var "o"⟩]) ["s"], false⟩ := by
  decide +kernel

end Sparql

end QueryContainment
