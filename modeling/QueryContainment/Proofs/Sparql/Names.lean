import QueryContainment.Proofs.Sparql.Reader
import QueryContainment.Sparql.Triples

namespace QueryContainment.Sparql

open Reader

/-- Names without the mark that sets a scope apart. -/
def Plain (names : List String) : Prop := ∀ x ∈ names, '#' ∉ x.toList

theorem plain_nil : Plain [] := List.forall_mem_nil _

theorem plain_singleton {x : String} : Plain [x] ↔ '#' ∉ x.toList := List.forall_mem_singleton

theorem plain_append {l l' : List String} : Plain (l ++ l') ↔ Plain l ∧ Plain l' :=
  List.forall_mem_append

theorem plain_flatMap {α : Type} {f : α → List String} {l : List α} :
    Plain (l.flatMap f) ↔ ∀ a ∈ l, Plain (f a) := by
  constructor
  · exact fun h a ha x hx => h x (List.mem_flatMap.2 ⟨a, ha, hx⟩)
  · intro h x hx
    obtain ⟨a, ha, hx⟩ := List.mem_flatMap.1 hx
    exact h a ha x hx

theorem plain_iri (value : String) : Plain (PatternTerm.iri value).vars := plain_nil

theorem plain_blank (label : String) : Plain (PatternTerm.blank label).vars := plain_nil

theorem plain_triple {subject object : PatternTerm} {predicate : IriOrVar}
    (hs : Plain subject.vars) (hp : Plain predicate.vars) (ho : Plain object.vars) :
    Plain (TriplePattern.mk subject predicate object).vars :=
  plain_append.2 ⟨plain_append.2 ⟨hs, hp⟩, ho⟩

theorem gives_var : Gives (fun x => Plain [x]) var := by
  have hstart : ¬isVarStart '#' = true := by decide
  have hchar : ¬isVarChar '#' = true := by decide
  refine Gives.after fun _ => (gives_satisfy isVarStart).bind fun first hfirst => ?_
  refine (gives_satisfy isVarChar).many.bind fun more hmore => gives_pure ?_
  rw [plain_singleton, String.toList_ofList, List.mem_cons, not_or]
  exact ⟨fun h => hstart (h ▸ hfirst), fun h => hchar (hmore _ h)⟩

theorem gives_varOrIri : Gives (Plain ·.vars) varOrIri := by
  unfold varOrIri
  exact Gives.orElse (gives_var.map fun _ hx => hx) ((gives_true iri).map fun _ _ => plain_nil)

theorem gives_atom {quoted : Reader PatternTerm} (hquoted : Gives (Plain ·.vars) quoted) :
    Gives (Plain ·.vars) (atom quoted) := by
  unfold atom
  refine Gives.orElse (gives_var.map fun _ hx => hx) (Gives.orElse hquoted ?_)
  refine Gives.orElse ((gives_true iri).map fun _ _ => plain_nil) ?_
  refine Gives.orElse ((gives_true literal).map fun _ _ => plain_nil) ?_
  refine Gives.orElse ((gives_true blank).map fun _ _ => plain_nil) ?_
  exact Gives.after fun _ => gives_pure plain_nil

theorem gives_quotedUpTo (n : Nat) : Gives (Plain ·.vars) (quotedUpTo n) := by
  induction n with
  | zero => exact gives_failure
  | succ n ih =>
    have hpredicate : Gives (Plain ·.vars)
        (varOrIri <|> (do exact "a"; return .iri (rdfName "type"))) :=
      gives_varOrIri.orElse (Gives.after fun _ => gives_pure plain_nil)
    refine Gives.after fun _ => Gives.after fun _ => (gives_atom ih).bind fun subject hs => ?_
    refine Gives.after fun _ => hpredicate.bind fun predicate hp => ?_
    refine Gives.after fun _ => (gives_atom ih).bind fun object ho => ?_
    exact Gives.after fun _ => Gives.after fun _ => gives_pure (plain_triple hs hp ho)

theorem gives_term : Gives (Plain ·.vars) term :=
  gives_atom (Gives.after fun _ => gives_quotedUpTo _)

def Link.vars : Link → List String
  | triple t => t.vars
  | path subject object => subject.vars ++ object.vars

def Verb.vars : Verb → List String
  | var name => [name]
  | path _ => []

def PlainLinks (links : List Link) : Prop := ∀ link ∈ links, Plain link.vars

theorem plainLinks_append {l l' : List Link} :
    PlainLinks (l ++ l') ↔ PlainLinks l ∧ PlainLinks l' :=
  List.forall_mem_append

theorem plainLinks_flatten {l : List (List Link)} (h : ∀ links ∈ l, PlainLinks links) :
    PlainLinks l.flatten := by
  intro link hlink
  obtain ⟨links, hlinks, hmem⟩ := List.mem_flatten.1 hlink
  exact h links hlinks link hmem

/-- What is said about a triple has plain names if the triple has. -/
def PlainRemark (remark : Remark) : Prop := ∀ t, Plain t.vars → Gives PlainLinks (remark t)

variable {remark : Option Remark} {subject object : PatternTerm}

theorem gives_remarked {t : TriplePattern} (hremark : ∀ r ∈ remark, PlainRemark r)
    (ht : Plain t.vars) : Gives PlainLinks (remarked remark t) := by
  have htriple : PlainLinks [.triple t] := List.forall_mem_singleton.2 ht
  unfold remarked
  cases remark with
  | none => exact gives_pure htriple
  | some r =>
    have habout : Gives PlainLinks (r (.quoted t.subject t.predicate t.object)) :=
      hremark r rfl _ ht
    exact habout.bind fun links hl => gives_pure (plainLinks_append.2 ⟨hl, htriple⟩)

theorem Path.gives_links (hremark : ∀ r ∈ remark, PlainRemark r) (hs : Plain subject.vars)
    (ho : Plain object.vars) (p : Path) : Gives PlainLinks (p.links remark subject object) := by
  induction p generalizing remark subject object with
  | iri value => exact gives_remarked hremark (plain_triple hs plain_nil ho)
  | reverse p ih => exact ih hremark ho hs
  | sequence first second ih ih' =>
    -- the node in the middle is a blank node, which no variable is in
    have hnone : ∀ r ∈ (none : Option Remark), PlainRemark r := by simp
    refine Gives.after fun _ => Gives.after fun middle => ?_
    refine (ih hnone hs (plain_blank middle)).bind fun links hl => ?_
    refine (ih' hnone (plain_blank middle) ho).bind fun links' hl' => ?_
    exact gives_pure (plainLinks_append.2 ⟨hl, hl'⟩)
  | other =>
    refine Gives.after fun _ => gives_pure (List.forall_mem_singleton.2 ?_)
    exact plain_append.2 ⟨hs, ho⟩

theorem Verb.gives_links {verb : Verb} (hverb : Plain verb.vars)
    (hremark : ∀ r ∈ remark, PlainRemark r) (hs : Plain subject.vars) (ho : Plain object.vars) :
    Gives PlainLinks (verb.links remark subject object) := by
  cases verb with
  | var name => exact gives_remarked hremark (plain_triple hs hverb ho)
  | path p => exact p.gives_links hremark hs ho

theorem gives_pathVerb : Gives (Plain ·.vars) pathVerb := by
  unfold pathVerb
  exact Gives.orElse ((gives_true path).map fun _ _ => plain_nil) (gives_var.map fun _ hx => hx)

theorem gives_simpleVerb : Gives (Plain ·.vars) simpleVerb := by
  unfold simpleVerb
  exact Gives.orElse (gives_var.map fun _ hx => hx)
    ((gives_true typeOrIri).map fun _ _ => plain_nil)

structure Node.Plain (node : Node) : Prop where
  focus : Sparql.Plain node.focus.vars
  links : PlainLinks node.links

structure Object.Plain (object : Object) : Prop where
  focus : Sparql.Plain object.focus.vars
  remark : ∀ r ∈ object.remark, PlainRemark r

structure Properties.Plain (p : Properties) : Prop where
  objects : ∀ o ∈ p.objects, Sparql.Plain o.1.vars ∧ o.2.Plain
  links : PlainLinks p.links

structure Nested.Plain (nested : Nested) : Prop where
  node : Gives Node.Plain nested.node
  properties : Gives Properties.Plain nested.properties

namespace Properties

theorem plain_nil : Plain ⟨[], []⟩ := ⟨List.forall_mem_nil _, List.forall_mem_nil _⟩

theorem Plain.append {p p' : Properties} (h : p.Plain) (h' : p'.Plain) : (p.append p').Plain :=
  ⟨List.forall_mem_append.2 ⟨h.objects, h'.objects⟩, plainLinks_append.2 ⟨h.links, h'.links⟩⟩

theorem Plain.gives_own {p : Properties} (h : p.Plain) (hs : Sparql.Plain subject.vars) :
    Gives (fun own => PlainLinks own.flatten) (p.objects.mapM fun (verb, object) =>
      verb.links object.remark subject object.focus) := by
  refine (Gives.mapM fun o ho => ?_).mono fun own => plainLinks_flatten
  obtain ⟨hverb, hobject⟩ := h.objects o ho
  exact Verb.gives_links hverb hobject.remark hs hobject.focus

theorem Plain.gives_linksOf {p : Properties} (h : p.Plain) (hs : Sparql.Plain subject.vars) :
    Gives PlainLinks (p.linksOf subject) :=
  (h.gives_own hs).bind fun _ hown => gives_pure (plainLinks_append.2 ⟨h.links, hown⟩)

end Properties

variable {nested : Nested} {verb : Reader Verb}

theorem gives_object (h : nested.Plain) :
    Gives (fun o => o.1.Plain ∧ PlainLinks o.2) (Sparql.object nested) := by
  unfold Sparql.object
  refine h.node.bind fun node hnode => Gives.after fun _ => ?_
  have hproperties : Gives Properties.Plain (do
      exact "\x7b|"
      space
      let p ← nested.properties
      space
      exact "|\x7d"
      return p) := by
    refine Gives.after fun _ => Gives.after fun _ => h.properties.bind fun p hp => ?_
    exact Gives.after fun _ => Gives.after fun _ => gives_pure hp
  refine hproperties.optional.bind fun o ho => ?_
  cases o with
  | none => exact gives_pure ⟨⟨hnode.focus, by simp⟩, hnode.links⟩
  | some p =>
    have hp : p.Plain := ho p rfl
    refine gives_pure ⟨⟨hnode.focus, ?_⟩, plainLinks_append.2 ⟨hnode.links, hp.links⟩⟩
    -- the remark is read before the triple that it is about is known
    rintro r hr t ht
    obtain rfl := Option.some.inj hr
    exact (hp.gives_own ht).bind fun _ hown => gives_pure hown

theorem gives_property (hverb : Gives (Plain ·.vars) verb) (h : nested.Plain) :
    Gives Properties.Plain (property verb nested) := by
  refine hverb.bind fun v hv => Gives.after fun _ => ?_
  refine (((gives_object h).seqLeft space).sepBy1 _).bind fun objects hobjects => gives_pure ?_
  constructor
  · intro o ho
    obtain ⟨o', ho', rfl⟩ := List.mem_map.1 ho
    exact ⟨hv, (hobjects o' ho').1⟩
  · intro link hlink
    obtain ⟨o, ho, hmem⟩ := List.mem_flatMap.1 hlink
    exact (hobjects o ho).2 link hmem

theorem gives_propertiesOf (hverb : Gives (Plain ·.vars) verb) (h : nested.Plain) :
    Gives Properties.Plain (propertiesOf verb nested) := by
  have hmore : Gives Properties.Plain (do
      char ';'
      space
      let p ← optional (property verb nested <* space)
      return p.getD ⟨[], []⟩) := by
    refine Gives.after fun _ => Gives.after fun _ => ?_
    exact ((gives_property hverb h).seqLeft space).optional.bind fun p hp =>
      gives_pure (getD_of_forall hp Properties.plain_nil)
  refine (gives_property hverb h).bind fun first hfirst => Gives.after fun _ => ?_
  refine hmore.many.bind fun more hall => gives_pure ?_
  induction more generalizing first with
  | nil => exact hfirst
  | cons p more ih =>
    obtain ⟨hp, hmore⟩ := List.forall_mem_cons.1 hall
    exact ih _ (hfirst.append hp) hmore

theorem gives_bracketed {properties : Reader Properties}
    (h : Gives Properties.Plain properties) : Gives Node.Plain (bracketed properties) := by
  refine (h.between "[" "]").bind fun p hp => Gives.after fun label => ?_
  have hfocus := plain_blank label
  exact (hp.gives_linksOf hfocus).bind fun links hlinks => gives_pure ⟨hfocus, hlinks⟩

theorem gives_listCells {tail : PatternTerm} {links : List Link} (htail : Plain tail.vars)
    (hlinks : PlainLinks links) {nodes : List Node} (hnodes : ∀ node ∈ nodes, node.Plain) :
    Gives Node.Plain (listCells tail links nodes) := by
  induction nodes generalizing tail links with
  | nil => exact gives_pure ⟨htail, hlinks⟩
  | cons node before ih =>
    obtain ⟨hnode, hbefore⟩ := List.forall_mem_cons.1 hnodes
    refine Gives.after fun cell => ih plain_nil ?_ hbefore
    refine plainLinks_append.2 ⟨plainLinks_append.2 ⟨hlinks, ?_⟩, hnode.links⟩
    exact List.forall_mem_cons.2 ⟨plain_triple plain_nil plain_nil hnode.focus,
      List.forall_mem_singleton.2 (plain_triple plain_nil plain_nil htail)⟩

theorem gives_collection {node : Reader Node} (h : Gives Node.Plain node) :
    Gives Node.Plain (collection node) := by
  refine Gives.after fun _ => Gives.after fun _ => ?_
  refine (h.seqLeft space).many1.bind fun nodes hnodes => Gives.after fun _ => ?_
  exact gives_listCells (plain_iri _) (List.forall_mem_nil _)
    fun node hnode => hnodes node (List.mem_reverse.1 hnode)

theorem gives_compound (h : nested.Plain) : Gives Node.Plain (compound nested) :=
  (gives_collection h.node).orElse (gives_bracketed h.properties)

theorem plain_nestedUpTo (hverb : Gives (Plain ·.vars) verb) (n : Nat) :
    (nestedUpTo verb n).Plain := by
  induction n with
  | zero => exact ⟨gives_failure, gives_failure⟩
  | succ n ih =>
    refine ⟨?_, gives_propertiesOf hverb ih⟩
    exact (gives_term.map fun _ ht => ⟨ht, List.forall_mem_nil _⟩).orElse (gives_compound ih)

theorem gives_sameSubject (h : nested.Plain) : Gives PlainLinks (sameSubject nested) := by
  unfold sameSubject
  refine Gives.orElse ?_ ?_
  · refine gives_term.bind fun subject hs => Gives.after fun _ => ?_
    exact h.properties.bind fun p hp => hp.gives_linksOf hs
  · refine (gives_compound h).bind fun node hnode => Gives.after fun _ => ?_
    refine h.properties.optional.bind fun p hp => ?_
    have hplain : (p.getD ⟨[], []⟩).Plain := getD_of_forall hp Properties.plain_nil
    exact (hplain.gives_linksOf hnode.focus).bind fun links hlinks =>
      gives_pure (plainLinks_append.2 ⟨hnode.links, hlinks⟩)

theorem gives_triples (hverb : Gives (Plain ·.vars) verb) : Gives PlainLinks (triples verb) := by
  refine Gives.after fun text => ?_
  have hblock : Gives PlainLinks (space *> sameSubject (nestedUpTo verb text.length) <* space) :=
    (Gives.seqRight space (gives_sameSubject (plain_nestedUpTo hverb _))).seqLeft space
  refine (hblock.sepBy1 _).bind fun blocks hblocks => Gives.after fun _ => gives_pure ?_
  exact plainLinks_flatten hblocks

end QueryContainment.Sparql
