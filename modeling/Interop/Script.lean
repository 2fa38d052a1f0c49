import Interop.Annotations

/-!
# Scripts

All units of a batch share the annotations.  A script says what is done with them on the way to a
result, one access after the other.  Each access is made at one moment; between two of them others
may make theirs.
-/

namespace Interop

/-- A computation that shares the annotations with others. -/
inductive Script (α : Type) where
  | done (result : α)
  /-- look at the annotations of a symbol -/
  | look (next : Annotations → Script α)
  /-- put `x` before the other annotations of `symbol`, unless there is one of its class -/
  | mark (symbol : SymbolRef) (x : Annotation) (next : Unit → Script α)

namespace Script

variable {α β γ : Type}

/-- One script and then another. -/
def bind : Script α → (α → Script β) → Script β
  | done a, f => f a
  | look next, f => look fun annotations => (next annotations).bind f
  | mark symbol x next, f => mark symbol x fun _ => (next ()).bind f

instance : Monad Script where
  pure := done
  bind := bind

/-- The next access, and what is left of the script after it. -/
def step : Script α → Annotations → Script α × Annotations
  | done a, annotations => (done a, annotations)
  | look next, annotations => (next annotations, annotations)
  | mark symbol x next, annotations => (next (), annotations.prependOnce symbol x)

/-- From here to the end, with no one in between. -/
def run : Script α → Annotations → α × Annotations
  | done a, annotations => (a, annotations)
  | look next, annotations => (next annotations).run annotations
  | mark symbol x next, annotations => (next ()).run (annotations.prependOnce symbol x)

/-! ## Lemmas -/

theorem bind_done (m : Script α) : m.bind done = m := by
  induction m with
  | done a => rfl
  | look next ih => exact congrArg look (funext ih)
  | mark symbol x next ih => exact congrArg (mark symbol x) (funext ih)

theorem bind_assoc (m : Script α) (f : α → Script β) (g : β → Script γ) :
    (m.bind f).bind g = m.bind fun a => (f a).bind g := by
  induction m with
  | done a => rfl
  | look next ih => exact congrArg look (funext ih)
  | mark symbol x next ih => exact congrArg (mark symbol x) (funext ih)

instance : LawfulMonad Script :=
  LawfulMonad.mk' Script bind_done (fun _ _ => rfl) bind_assoc

theorem run_bind (m : Script α) (f : α → Script β) (a : Annotations) :
    (m >>= f).run a = (f (m.run a).1).run (m.run a).2 := by
  induction m generalizing a with
  | done x => rfl
  | look next ih => exact ih a a
  | mark symbol x next ih => exact ih () (a.prependOnce symbol x)

end Script

end Interop
