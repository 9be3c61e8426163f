import Mathlib.Data.List.Basic
import QueryContainment.Sparql.Reader

namespace QueryContainment.Sparql.Reader

variable {α β : Type} {P : α → Prop} {Q : β → Prop} {p p' : Reader α} {q : Reader β}
  {f : α → Reader β}

/-- What a reader gives and what it leaves of a text, and what is known afterwards. -/
def outcome (p : Reader α) (text : List Char) (s : Session) : Option (α × List Char) × Session :=
  (p.run text).run.run s

/-- Whatever a reader gives has the property `P`. -/
def Gives (P : α → Prop) (p : Reader α) : Prop :=
  ∀ text s a rest, (outcome p text s).1 = some (a, rest) → P a

theorem outcome_pure (a : α) (text : List Char) (s : Session) :
    outcome (pure a) text s = (some (a, text), s) := rfl

theorem outcome_bind (p : Reader α) (f : α → Reader β) (text : List Char) (s : Session) :
    outcome (p >>= f) text s = match outcome p text s with
      | (some (a, rest), s') => outcome (f a) rest s'
      | (none, s') => (none, s') := by
  simp only [outcome, StateT.run_bind, OptionT.run_bind, Option.elimM]
  rcases ((p.run text).run.run s : Id _) with ⟨_ | r, s'⟩ <;> rfl

theorem outcome_orElse (p p' : Reader α) (text : List Char) (s : Session) :
    outcome (p <|> p') text s = match outcome p text s with
      | (some r, s') => (some r, s')
      | (none, s') => outcome p' text s' := by
  have hrun : (p <|> p').run text = (p.run text <|> p'.run text) := rfl
  simp only [outcome, hrun, OptionT.run_orElse, Option.elimM, StateT.run_bind]
  rcases ((p.run text).run.run s : Id _) with ⟨_ | r, s'⟩ <;> rfl

theorem Gives.mono {P' : α → Prop} (hp : Gives P p) (h : ∀ a, P a → P' a) : Gives P' p :=
  fun text s a rest hrun => h a (hp text s a rest hrun)

theorem Gives.bind (hp : Gives P p) (hf : ∀ a, P a → Gives Q (f a)) : Gives Q (p >>= f) := by
  intro text s b rest hrun
  rw [outcome_bind] at hrun
  rcases hfirst : outcome p text s with ⟨_ | ⟨a, between⟩, s'⟩
  · rw [hfirst] at hrun
    cases hrun
  · rw [hfirst] at hrun
    exact hf a (hp text s a between (by rw [hfirst])) between s' b rest hrun

theorem gives_true (p : Reader α) : Gives (fun _ => True) p := fun _ _ _ _ _ => trivial

/-- What is read first does not matter where all that may follow gives the same. -/
theorem Gives.after (hf : ∀ a, Gives Q (f a)) : Gives Q (p >>= f) :=
  (gives_true p).bind fun a _ => hf a

theorem gives_pure {a : α} (h : P a) : Gives P (pure a) := by
  intro text s b rest hrun
  rw [outcome_pure] at hrun
  cases hrun
  exact h

theorem gives_failure : Gives P (failure : Reader α) := by
  intro text s a rest hrun
  cases hrun

theorem Gives.orElse (hp : Gives P p) (hp' : Gives P p') : Gives P (p <|> p') := by
  intro text s a rest hrun
  rw [outcome_orElse] at hrun
  rcases hfirst : outcome p text s with ⟨_ | r, s'⟩
  · rw [hfirst] at hrun
    exact hp' text s' a rest hrun
  · rw [hfirst] at hrun
    obtain rfl := Option.some.inj hrun
    exact hp text s a rest (by rw [hfirst])

theorem Gives.map {g : α → β} (hp : Gives P p) (h : ∀ a, P a → Q (g a)) : Gives Q (g <$> p) :=
  hp.bind fun a ha => gives_pure (h a ha)

theorem Gives.seqLeft (hp : Gives P p) (q : Reader β) : Gives P (p <* q) :=
  hp.bind fun _ ha => Gives.after fun _ => gives_pure ha

theorem Gives.seqRight (p : Reader α) (hq : Gives Q q) : Gives Q (p *> q) :=
  Gives.after fun _ => hq

theorem Gives.optional (hp : Gives P p) : Gives (fun o => ∀ a ∈ o, P a) (optional p) :=
  (hp.map fun a ha b hb => Option.some.inj hb ▸ ha).orElse (gives_pure (by simp))

theorem getD_of_forall {o : Option α} {a : α} (ho : ∀ b ∈ o, P b) (ha : P a) : P (o.getD a) := by
  cases o with
  | none => exact ha
  | some b => exact ho b rfl

theorem Gives.atMost (hp : Gives P p) (n : Nat) : Gives (fun l => ∀ a ∈ l, P a) (atMost p n) := by
  induction n with
  | zero => exact gives_pure (by simp)
  | succ n ih =>
    refine hp.optional.bind fun o ho => ?_
    cases o with
    | none => exact gives_pure (by simp)
    | some a => exact ih.bind fun l hl => gives_pure (List.forall_mem_cons.2 ⟨ho a rfl, hl⟩)

theorem Gives.many (hp : Gives P p) : Gives (fun l => ∀ a ∈ l, P a) (many p) :=
  Gives.after fun _ => hp.atMost _

theorem Gives.many1 (hp : Gives P p) : Gives (fun l => ∀ a ∈ l, P a) (many1 p) :=
  hp.bind fun _ ha => hp.many.bind fun _ hl => gives_pure (List.forall_mem_cons.2 ⟨ha, hl⟩)

theorem Gives.sepBy1 (hp : Gives P p) (q : Reader β) :
    Gives (fun l => ∀ a ∈ l, P a) (sepBy1 p q) :=
  hp.bind fun _ ha => (Gives.seqRight q hp).many.bind fun _ hl =>
    gives_pure (List.forall_mem_cons.2 ⟨ha, hl⟩)

theorem Gives.sepBy (hp : Gives P p) (q : Reader β) : Gives (fun l => ∀ a ∈ l, P a) (sepBy p q) :=
  (hp.sepBy1 q).orElse (gives_pure (by simp))

theorem Gives.between (hp : Gives P p) (left right : String) : Gives P (between left right p) :=
  Gives.after fun _ => Gives.after fun _ => hp.bind fun _ ha =>
    Gives.after fun _ => Gives.after fun _ => gives_pure ha

theorem Gives.mapM {g : α → Reader β} {l : List α} (h : ∀ a ∈ l, Gives Q (g a)) :
    Gives (fun l' => ∀ b ∈ l', Q b) (l.mapM g) := by
  induction l with
  | nil => exact gives_pure (by simp)
  | cons a l ih =>
    rw [List.mapM_cons]
    refine (h a List.mem_cons_self).bind fun b hb => ?_
    refine (ih fun c hc => h c (List.mem_cons_of_mem _ hc)).bind fun l' hl' => ?_
    exact gives_pure (List.forall_mem_cons.2 ⟨hb, hl'⟩)

theorem gives_satisfy (accepts : Char → Bool) : Gives (accepts · = true) (satisfy accepts) := by
  refine Gives.after fun text => ?_
  cases text with
  | nil => exact gives_failure
  | cons c rest =>
    show Gives _ (if accepts c then set rest *> pure c else failure)
    split
    · next h => exact Gives.seqRight _ (gives_pure h)
    · exact gives_failure

theorem gives_give (o : Option α) : Gives (· ∈ o) (give o) := by
  cases o with
  | none => exact gives_failure
  | some a => exact gives_pure rfl

end QueryContainment.Sparql.Reader
