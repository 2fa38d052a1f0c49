import Interop.Pass.State
import Mathlib.Data.List.Forall2

/-!
# Running the pass

`run m s` is what the step `m` comes to in the state `s` with no one else at the annotations, and
the state that it leaves.  `Ends m s a s'` says that it comes to the value `a` and leaves `s'`.  A
step that does one thing after another ends if both end (`ends_bind_iff`); a step for each element
of a list ends if these form a `Chain` (`ends_mapM_iff`).
-/

namespace Interop.Pass

variable {α β γ : Type}

/-- What the pass keeps to itself, and the annotations. -/
structure State where
  annotations : Annotations
  report : Report := []
  waiting : List (SymbolRef × Tree) := []

/-- What a step does with the annotations, when the pass has kept `n` to itself so far. -/
def script (m : PassM α) (n : Notes) : Script (Except Abort α × Notes) := ExceptT.run m n

/-- What a step comes to in a state, and the state after it. -/
def run (m : PassM α) (s : State) : Except Abort α × State :=
  let out := (script m ⟨s.report, s.waiting⟩).run s.annotations
  (out.1.1, ⟨out.2, out.1.2.report, out.1.2.waiting⟩)

/-- The step comes to `a` and leaves `s'`. -/
def Ends (m : PassM α) (s : State) (a : α) (s' : State) : Prop := run m s = (.ok a, s')

/-! ## Single steps -/

@[simp] theorem run_pure (a : α) (s : State) : run (pure a : PassM α) s = (.ok a, s) := rfl

@[simp] theorem run_throw (e : Abort) (s : State) :
    run (throw e : PassM α) s = (.error e, s) := rfl

theorem script_bind (m : PassM α) (f : α → PassM β) (n : Notes) :
    script (m >>= f) n = script m n >>= fun out => match out with
      | (.ok a, n') => script (f a) n'
      | (.error e, n') => pure (.error e, n') := by
  refine congrArg (script m n >>= ·) (funext fun out => ?_)
  rcases out with ⟨e | a, n'⟩ <;> rfl

theorem run_bind (m : PassM α) (f : α → PassM β) (s : State) :
    run (m >>= f) s = match run m s with
      | (.ok a, s') => run (f a) s'
      | (.error e, s') => (.error e, s') := by
  unfold run
  rw [script_bind, Script.run_bind]
  rcases (script m ⟨s.report, s.waiting⟩).run s.annotations with ⟨⟨e | a, n⟩, b⟩ <;> rfl

theorem run_liftExcept (x : Except Abort α) (s : State) :
    run (liftExcept x : PassM α) s = (x, s) := by
  cases x <;> rfl

@[simp] theorem run_look (s : State) : run look s = (.ok s.annotations, s) := rfl

@[simp] theorem run_mark (symbol : SymbolRef) (x : Annotation) (s : State) :
    run (mark symbol x) s
      = (.ok (), { s with annotations := s.annotations.prependOnce symbol x }) := rfl

@[simp] theorem run_emit (r : Report) (s : State) :
    run (emit r) s = (.ok (), { s with report := s.report ++ r }) := rfl

@[simp] theorem run_keep (owner : SymbolRef) (forwarders : List Tree) (s : State) :
    run (keep owner forwarders) s
      = (.ok (), { s with waiting := s.waiting ++ forwarders.map (owner, ·) }) := rfl

theorem script_release (owner : SymbolRef) (n : Notes) :
    script (release owner) n
      = pure (.ok ((n.waiting.filter (·.1 = owner)).map (·.2)),
          { n with waiting := n.waiting.filter fun w => !(decide (w.1 = owner)) }) := by
  have hsplit : n.waiting.partition (fun w => decide (w.1 = owner))
      = (n.waiting.filter (·.1 = owner), n.waiting.filter fun w => !(decide (w.1 = owner))) :=
    List.partition_eq_filter_filter
  have hscript : script (release owner) n
      = pure (.ok ((n.waiting.partition fun w => decide (w.1 = owner)).1.map (·.2)),
          { n with waiting := (n.waiting.partition fun w => decide (w.1 = owner)).2 }) := rfl
  rw [hscript, hsplit]

@[simp] theorem run_release (owner : SymbolRef) (s : State) :
    run (release owner) s
      = (.ok ((s.waiting.filter (·.1 = owner)).map (·.2)),
          { s with waiting := s.waiting.filter fun w => !(decide (w.1 = owner)) }) := by
  unfold run
  rw [script_release]
  rfl

theorem emit_nil : emit [] = pure () := by
  unfold emit
  simp only [List.append_nil]
  rfl

/-! ## Steps that end -/

@[simp] theorem ends_pure_iff {a b : α} {s s' : State} :
    Ends (pure a) s b s' ↔ b = a ∧ s' = s := by
  unfold Ends
  rw [run_pure]
  constructor
  · rintro ⟨⟩
    exact ⟨rfl, rfl⟩
  · rintro ⟨rfl, rfl⟩
    rfl

@[simp] theorem ends_liftExcept_iff {x : Except Abort α} {a : α} {s s' : State} :
    Ends (liftExcept x) s a s' ↔ x = .ok a ∧ s' = s := by
  unfold Ends
  rw [run_liftExcept, Prod.mk.injEq, eq_comm (a := s)]

theorem exists_ends_of_isOk {m : PassM α} {s : State} (h : (run m s).1.isOk) :
    ∃ a s', Ends m s a s' := by
  unfold Ends
  rcases hrun : run m s with ⟨e | a, s'⟩
  · rw [hrun] at h
    cases h
  · exact ⟨a, s', rfl⟩

theorem ends_bind_iff {m : PassM α} {f : α → PassM β} {s s'' : State} {b : β} :
    Ends (m >>= f) s b s'' ↔ ∃ a s', Ends m s a s' ∧ Ends (f a) s' b s'' := by
  unfold Ends
  rw [run_bind]
  constructor
  · intro h
    split at h
    next a s' hm => exact ⟨a, s', hm, h⟩
    next => cases h
  · rintro ⟨a, s', hm, hf⟩
    rw [hm]
    exact hf

/-! ## Steps for the elements of a list -/

/-- The elements of a list turn into those of another, one after the other. -/
inductive Chain (R : α → State → β → State → Prop) : List α → State → List β → State → Prop
  | nil {s : State} : Chain R [] s [] s
  | cons {a : α} {b : β} {as : List α} {bs : List β} {s s' s'' : State} :
      R a s b s' → Chain R as s' bs s'' → Chain R (a :: as) s (b :: bs) s''

theorem ends_mapM_iff {f : α → PassM β} {as : List α} {bs : List β} {s s' : State} :
    Ends (as.mapM f) s bs s' ↔ Chain (fun a => Ends (f a)) as s bs s' := by
  induction as generalizing s bs with
  | nil =>
    rw [List.mapM_nil, ends_pure_iff]
    constructor
    · rintro ⟨rfl, rfl⟩
      exact .nil
    · rintro ⟨⟩
      exact ⟨rfl, rfl⟩
  | cons a as ih =>
    simp only [List.mapM_cons, ends_bind_iff, ends_pure_iff]
    constructor
    · rintro ⟨b, s₁, hb, bs', s₂, hbs, rfl, rfl⟩
      exact .cons hb (ih.1 hbs)
    · intro h
      cases h with
      | cons hb hbs => exact ⟨_, _, hb, _, _, ih.2 hbs, rfl, rfl⟩

namespace Chain

variable {R : α → State → β → State → Prop} {as : List α} {bs : List β} {s s' : State}

theorem length_eq (h : Chain R as s bs s') : bs.length = as.length := by
  induction h with
  | nil => rfl
  | cons _ _ ih => rw [List.length_cons, List.length_cons, ih]

/-- Each element has its step, in some state along the way. -/
theorem exists_of_mem {P : State → Prop} (h : Chain R as s bs s')
    (hR : ∀ a ∈ as, ∀ s b s', P s → R a s b s' → P s') (hs : P s) {a : α} (ha : a ∈ as) :
    ∃ s₁ b s₂, P s₁ ∧ R a s₁ b s₂ := by
  induction h with
  | nil => cases ha
  | cons hab _ ih =>
    rcases List.mem_cons.1 ha with rfl | ha
    · exact ⟨_, _, _, hs, hab⟩
    · exact ih (fun a ha => hR a (.tail _ ha)) (hR _ (.head _) _ _ _ hs hab) ha

/-- If there is a step for each element wherever `P` holds, and it keeps `P`, there are steps for
all of them. -/
theorem exists_of_forall {P : State → Prop} (hR : ∀ a ∈ as, ∀ s, P s → ∃ b s', R a s b s' ∧ P s')
    (hs : P s) : ∃ bs s', Chain R as s bs s' := by
  induction as generalizing s with
  | nil => exact ⟨[], s, .nil⟩
  | cons a as ih =>
    obtain ⟨b, s₁, hab, hs₁⟩ := hR a (.head _) s hs
    obtain ⟨bs, s₂, hbs⟩ := ih (fun a ha => hR a (.tail _ ha)) hs₁
    exact ⟨b :: bs, s₂, .cons hab hbs⟩

/-- If every element has a step back to itself wherever `P` holds, so has the list. -/
theorem exists_self {R : α → State → α → State → Prop} {P : State → Prop} {as : List α}
    (hR : ∀ a ∈ as, ∀ s, P s → ∃ s', R a s a s' ∧ P s') (hs : P s) :
    ∃ s', Chain R as s as s' ∧ P s' := by
  induction as generalizing s with
  | nil => exact ⟨s, .nil, hs⟩
  | cons a as ih =>
    obtain ⟨s₁, ha, hs₁⟩ := hR a (.head _) s hs
    obtain ⟨s₂, has, hs₂⟩ := ih (fun a ha => hR a (.tail _ ha)) hs₁
    exact ⟨s₂, .cons ha has, hs₂⟩

/-- Two runs over one list, side by side.  If both steps for an element come to the same thing in
two forms and keep the states related, so do both runs. -/
theorem exists_of_both {γ : Type} {R R' : α → State → β → State → Prop} {P : State → State → Prop}
    {S : α → γ → Prop} {f f' : γ → β} {as : List α} {bs bs' : List β} {s₀ s₁ t₀ t₁ : State}
    (h : Chain R as s₀ bs t₀) (h' : Chain R' as s₁ bs' t₁)
    (hR : ∀ a ∈ as, ∀ s₀ b t₀ s₁ b' t₁, P s₀ s₁ → R a s₀ b t₀ → R' a s₁ b' t₁ →
      ∃ c, S a c ∧ b = f c ∧ b' = f' c ∧ P t₀ t₁)
    (hs : P s₀ s₁) :
    ∃ cs, List.Forall₂ S as cs ∧ bs = cs.map f ∧ bs' = cs.map f' ∧ P t₀ t₁ := by
  induction h generalizing s₁ bs' with
  | nil =>
    cases h' with
    | nil => exact ⟨[], .nil, rfl, rfl, hs⟩
  | cons hab _ ih =>
    cases h' with
    | cons hab' hbs' =>
      obtain ⟨c, hc, rfl, rfl, ht⟩ := hR _ (.head _) _ _ _ _ _ _ hs hab hab'
      obtain ⟨cs, hcs, rfl, rfl, ht'⟩ := ih hbs' (fun a ha => hR a (.tail _ ha)) ht
      exact ⟨c :: cs, .cons hc hcs, rfl, rfl, ht'⟩

/-- What each step keeps of the state and says of its result, given the steps before it and what
they keep, holds of all. -/
theorem forall₂_of_before (h : Chain R as s bs s') {P : State → Prop} {Q : α → β → Prop}
    (hR : ∀ before a, before ++ [a] <+: as → ∀ outs s₁ b s₂, Chain R before s outs s₁ → P s₁ →
      R a s₁ b s₂ → Q a b ∧ P s₂) (hs : P s) :
    List.Forall₂ Q as bs ∧ P s' := by
  induction h with
  | nil => exact ⟨.nil, hs⟩
  | cons hab _ ih =>
    obtain ⟨hQ, hP⟩ := hR [] _ ⟨_, rfl⟩ _ _ _ _ .nil hs hab
    obtain ⟨hQs, hP'⟩ := ih (fun before a ha outs s₁ b s₂ hbefore =>
      hR (_ :: before) a (List.cons_prefix_cons.2 ⟨rfl, ha⟩) _ _ _ _ (.cons hab hbefore)) hP
    exact ⟨.cons hQ hQs, hP'⟩

/-- What each step keeps of the state and says of its result, given what is kept, holds of all. -/
theorem forall₂_of_preserved (h : Chain R as s bs s') {P : State → Prop} {Q : α → β → Prop}
    (hR : ∀ a ∈ as, ∀ s b s', P s → R a s b s' → Q a b ∧ P s') (hs : P s) :
    List.Forall₂ Q as bs ∧ P s' :=
  h.forall₂_of_before (fun _ a ha _ s₁ b s₂ _ hP hb =>
    hR a (ha.subset (List.mem_append_right _ (.head _))) s₁ b s₂ hP hb) hs

/-- What comes of two lists one after the other comes of each from where the other ends. -/
theorem exists_of_append {as' : List α} (h : Chain R (as ++ as') s bs s') :
    ∃ cs s₁ cs', Chain R as s cs s₁ ∧ Chain R as' s₁ cs' s' ∧ bs = cs ++ cs' := by
  induction as generalizing s bs with
  | nil => exact ⟨[], s, bs, .nil, h, rfl⟩
  | cons a as ih =>
    cases h with
    | cons hab hbs =>
      obtain ⟨cs, s₁, cs', hcs, hcs', rfl⟩ := ih hbs
      exact ⟨_ :: cs, s₁, cs', .cons hab hcs, hcs', rfl⟩

end Chain

end Interop.Pass
