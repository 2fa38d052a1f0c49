import Interop.Proofs.Children

/-!
# Mapping over the children of a tree

Mapping a step over a tree takes the step for each child that reading the children gives, in that
order and once each, up to the first that fails:

    children   c₁ c₂ … cₖ … cₙ          called on   c₁ c₂ … cₙ,  or  c₁ c₂ … cₖ  if  cₖ  fails

What comes out is the same node over the results.  So mapping the identity changes nothing, and one
mapping after another is the mapping of both (`mapChildrenM_in_turn`).
-/

namespace Interop

/-! ## Algorithm -/

/-- The node without its subtrees: its kind, with the name, the constant or the export that it
carries, and how many parents, statements, parameters and arguments it has. -/
def Node.frame {α : Type} : Node α → Node Unit
  | packageDef stats => packageDef (stats.map fun _ => ())
  | classDef _ => classDef ()
  | objectDef _ => objectDef ()
  | template parents body => template (parents.map fun _ => ()) (body.map fun _ => ())
  | defDef params _ => defDef (params.map fun _ => ()) ()
  | valDef _ => valDef ()
  | block stats _ => block (stats.map fun _ => ()) ()
  | cond _ _ _ => cond () () ()
  | select _ name => select () name
  | apply _ args => apply () (args.map fun _ => ())
  | typeApply _ args => typeApply () (args.map fun _ => ())
  | ident name => ident name
  | this name => this name
  | literal value => literal value
  | typeTree => typeTree
  | forwarder jsName kind => forwarder jsName kind
  | empty => empty

/-- A step that reads and writes a state, and may fail; the state outlives the failure. -/
abbrev StepM (ε σ : Type) : Type → Type := ExceptT ε (StateM σ)

section

variable {α β ε σ : Type}

/-- Taken for one element after the other, the step `f` succeeds each time. -/
inductive Calls (f : α → StepM ε σ β) : List α → σ → List β → σ → Prop
  | nil {s : σ} : Calls f [] s [] s
  | cons {a : α} {b : β} {as : List α} {bs : List β} {s s₁ s' : σ} :
      (f a).run s = (.ok b, s₁) → Calls f as s₁ bs s' → Calls f (a :: as) s (b :: bs) s'

/-- Taken for one element after the other, the step `f` fails at the last of `called`, and is taken
for none behind it. -/
def Stops (f : α → StepM ε σ β) (as : List α) (s : σ) (called : List α) (e : ε) (s' : σ) : Prop :=
  ∃ before a later bs s₁, as = before ++ a :: later ∧ called = before ++ [a]
    ∧ Calls f before s bs s₁ ∧ (f a).run s₁ = (.error e, s')

/-- The step `f`, which also notes down what it is taken for. -/
def noting (f : α → StepM ε σ β) (a : α) : StepM ε (σ × List α) β :=
  ExceptT.mk fun (s, noted) => (((f a).run s).1, ((f a).run s).2, noted ++ [a])

/-! ## Steps for the elements of a list -/

theorem StepM.run_bind (m : StepM ε σ α) (k : α → StepM ε σ β) (s : σ) :
    (m >>= k).run s = match m.run s with
      | (.ok a, s') => (k a).run s'
      | (.error e, s') => (.error e, s') := by
  have hcont : (m >>= k).run s = ExceptT.bindCont k (m.run s).1 (m.run s).2 := rfl
  rw [hcont]
  rcases m.run s with ⟨e | a, s'⟩ <;> rfl

theorem StepM.run_noting (f : α → StepM ε σ β) (a : α) (s : σ) (noted : List α) :
    (noting f a).run (s, noted) = (((f a).run s).1, ((f a).run s).2, noted ++ [a]) := rfl

theorem Calls.length_eq {f : α → StepM ε σ β} {as : List α} {bs : List β} {s s' : σ}
    (h : Calls f as s bs s') : bs.length = as.length := by
  induction h with
  | nil => rfl
  | cons _ _ ih => rw [List.length_cons, List.length_cons, ih]

theorem Stops.cons {f : α → StepM ε σ β} {a : α} {b : β} {as called : List α} {s s₁ s' : σ} {e : ε}
    (ha : (f a).run s = (.ok b, s₁)) (h : Stops f as s₁ called e s') :
    Stops f (a :: as) s (a :: called) e s' := by
  obtain ⟨before, c, later, bs, s₂, rfl, rfl, hbefore, hc⟩ := h
  exact ⟨a :: before, c, later, b :: bs, s₂, rfl, rfl, .cons ha hbefore, hc⟩

/-- **Mapping over a list** takes the step in turn, up to the first that fails. -/
theorem mapM_in_turn (f : α → StepM ε σ β) (as : List α) (s : σ) (noted : List α) :
    (∃ bs s', Calls f as s bs s' ∧ (as.mapM f).run s = (.ok bs, s')
      ∧ (as.mapM (noting f)).run (s, noted) = (.ok bs, s', noted ++ as))
    ∨ ∃ called e s', Stops f as s called e s' ∧ (as.mapM f).run s = (.error e, s')
      ∧ (as.mapM (noting f)).run (s, noted) = (.error e, s', noted ++ called) := by
  induction as generalizing s noted with
  | nil => exact .inl ⟨[], s, .nil, rfl, by rw [List.append_nil]; rfl⟩
  | cons a as ih =>
    simp only [List.mapM_cons, StepM.run_bind, StepM.run_noting]
    rcases ha : (f a).run s with ⟨e | b, s₁⟩
    · refine .inr ⟨[a], e, s₁, ⟨[], a, as, [], s, rfl, rfl, .nil, ha⟩, ?_, ?_⟩
      · rfl
      · rfl
    · rcases ih s₁ (noted ++ [a]) with
        ⟨bs, s', hcalls, hrun, hnoting⟩ | ⟨called, e, s', hstops, hrun, hnoting⟩
      · refine .inl ⟨b :: bs, s', .cons ha hcalls, ?_, ?_⟩
        · simp only [hrun]
          rfl
        · simp only [hnoting, List.append_assoc]
          rfl
      · refine .inr ⟨a :: called, e, s', hstops.cons ha, ?_, ?_⟩
        · simp only [hrun]
        · simp only [hnoting, List.append_assoc]
          rfl

end

/-! ## The node around the children -/

theorem Node.frame_withChildren {α β : Type} [Inhabited β] {n : Node α} {bs : List β}
    (h : bs.length = n.children.length) : (n.withChildren bs).frame = n.frame := by
  -- the lists of a node are as long as before, and there is one list of units of each length
  cases n <;> simp [frame, withChildren, List.map_const', h, children]

namespace Tree

/-- Mapping over a tree is mapping over its children, and putting the node around the results. -/
theorem mapChildrenM_eq {m : Type → Type} [Monad m] [LawfulMonad m] (f : Tree → m Tree) (t : Tree) :
    t.mapChildrenM f = t.children.mapM f >>= fun cs => pure (t.withChildren cs) := by
  unfold mapChildrenM
  rw [Node.mapM_eq_withChildren, bind_assoc]
  simp only [pure_bind]
  rfl

/-- Mapping without effects. -/
def mapChildren (f : Tree → Tree) (t : Tree) : Tree := Id.run (t.mapChildrenM fun c => pure (f c))

theorem mapChildren_eq (f : Tree → Tree) (t : Tree) :
    t.mapChildren f = t.withChildren (t.children.map f) := by
  unfold mapChildren
  rw [mapChildrenM_eq, List.mapM_pure]
  rfl

/-! ## Top theorem -/

/-- **Reading and mapping the children agree.**  Whatever step is mapped, it is taken for the
children in order.  If it succeeds for all of them, the tree comes out with its node, place, type
and symbol, over the results; else mapping ends with the first failure, in the state that this left,
and the step is taken for no child behind it.  Without effects, mapping keeps identity and
composition. -/
theorem mapChildrenM_in_turn {ε σ : Type} (t : Tree) :
    (∀ (f : Tree → StepM ε σ Tree) (s : σ),
      (∃ t' s', Calls f t.children s t'.children s'
        ∧ t'.span = t.span ∧ t'.ty = t.ty ∧ t'.symbol = t.symbol ∧ t'.node.frame = t.node.frame
        ∧ (t.mapChildrenM f).run s = (.ok t', s')
        ∧ (t.mapChildrenM (noting f)).run (s, []) = (.ok t', s', t.children))
      ∨ ∃ called e s', Stops f t.children s called e s'
        ∧ (t.mapChildrenM f).run s = (.error e, s')
        ∧ (t.mapChildrenM (noting f)).run (s, []) = (.error e, s', called))
    ∧ (∀ f : Tree → Tree,
        (t.mapChildrenM fun c => (pure (f c) : StepM ε σ Tree)) = pure (t.mapChildren f))
    ∧ t.mapChildren id = t
    ∧ ∀ f g : Tree → Tree, (t.mapChildren f).mapChildren g = t.mapChildren (g ∘ f) := by
  refine ⟨fun f s => ?_, fun f => ?_, ?_, fun f g => ?_⟩
  · rw [mapChildrenM_eq, mapChildrenM_eq, StepM.run_bind, StepM.run_bind]
    rcases mapM_in_turn f t.children s [] with
      ⟨cs, s', hcalls, hrun, hnoting⟩ | ⟨called, e, s', hstops, hrun, hnoting⟩
    · have hlength := hcalls.length_eq
      have hframe := Node.frame_withChildren (n := t.node) hlength
      refine .inl ⟨t.withChildren cs, s', ?_, rfl, rfl, rfl, hframe, ?_, ?_⟩
      · rwa [children_withChildren hlength]
      · rw [hrun]
        rfl
      · rw [hnoting]
        rfl
    · refine .inr ⟨called, e, s', hstops, ?_, ?_⟩
      · rw [hrun]
      · rw [hnoting]
        rfl
  · rw [mapChildrenM_eq, List.mapM_pure, mapChildren_eq, pure_bind]
  · rw [mapChildren_eq, List.map_id, withChildren_children]
  · have hlength : (t.children.map f).length = t.children.length := List.length_map _
    rw [mapChildren_eq, mapChildren_eq, mapChildren_eq, children_withChildren hlength,
      withChildren_withChildren hlength, List.map_map]

end Tree

end Interop
