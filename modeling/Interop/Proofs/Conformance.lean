import Interop.Proofs.Aliases
import Interop.Proofs.Ancestry

/-!
# Conformance

Aliases and object types are looked through on both sides, once for all
(`underlying_underlying`), and then one type conforms to another for one of a few reasons
(`Suits`):

    a → noType      a → error      error → b      nothing → b      a → a
    a → Any         null → C       null → String      String → Object
    C → D           D is an ancestor of C

Two of them compose to a third unless they meet in an error (`Suits.trans`), since the classes that
are named, `Any` and `Object`, have no other ancestors, whatever else is declared.
-/

namespace Interop

/-! ## Algorithm -/

/-- Why a type conforms to another, when neither is an alias or an object type. -/
inductive Env.Suits (env : Env) : Ty → Ty → Prop
  | untyped (a : Ty) : Suits env a .noType
  | toError (a : Ty) : Suits env a .error
  | ofError (b : Ty) : Suits env .error b
  | ofNothing (b : Ty) : Suits env .nothing b
  | refl (a : Ty) : Suits env a a
  | toAny (a : Ty) : Suits env a (Library.classTy env.lib.anyClass)
  | nullClass (d : SymbolRef) : Suits env .null (.instanceOf d)
  | nullStr : Suits env .null .str
  | strObject : Suits env .str (Library.classTy env.lib.objectClass)
  | descent {c d : SymbolRef} :
      env.table.isSubclass c d → Suits env (.instanceOf c) (.instanceOf d)

/-! ## Looking through -/

namespace SymbolTable

variable {t : SymbolTable}

theorem dealias_widen {ty : Ty} (hty : ¬ ty.isAlias) : t.dealias (t.widen ty) = t.widen ty := by
  refine dealias_of_not_isAlias fun h => hty ?_
  cases ty with
  | singleton r => cases h
  | _ => exact h

theorem widen_widen (ty : Ty) : t.widen (t.widen ty) = t.widen ty := by
  cases ty <;> rfl

/-- Nothing more is to be looked through. -/
theorem underlying_underlying (t : SymbolTable) (ty : Ty) :
    t.underlying (t.underlying ty) = t.underlying ty := by
  unfold underlying
  rw [dealias_widen (not_isAlias_dealias t ty), widen_widen]

theorem underlying_eq_error_iff {ty : Ty} : t.underlying ty = .error ↔ t.dealias ty = .error := by
  unfold underlying
  cases t.dealias ty <;> simp [widen]

end SymbolTable

namespace Env

variable {env : Env} {a b c : Ty}

/-! ## Reasons -/

theorem fits_iff_suits : env.fits a b ↔ env.Suits a b := by
  constructor
  · intro h
    unfold fits at h
    split at h
    next => exact .untyped _
    next => exact .ofError _
    next => exact .toError _
    next => exact .ofNothing _
    next =>
      simp only [Bool.or_eq_true, decide_eq_true_eq] at h
      rcases h with rfl | h
      · exact .refl _
      · split at h
        next => exact .nullStr
        next =>
          simp only [Bool.or_eq_true, decide_eq_true_eq] at h
          rcases h with rfl | h
          · exact .toAny _
          · split at h
            next => exact .nullClass _
            next => exact .descent h
            next =>
              obtain rfl := of_decide_eq_true h
              exact .strObject
            next => cases h
        next => cases h
  · intro h
    cases h with
    | untyped | toError | refl | toAny => cases a <;> simp [fits, Library.classTy]
    | ofError | ofNothing => cases b <;> simp [fits]
    | descent h => simp [fits, h]
    | _ => simp [fits, Library.classTy]

/-! ## Ancestors of the named classes -/

namespace Installed

theorem eq_of_isSubclass_anyClass (henv : env.Installed) {base : SymbolRef}
    (h : env.table.isSubclass (some env.lib.anyClass) base) : base = some env.lib.anyClass := by
  cases base with
  | none => cases h
  | some base =>
    rw [henv.lib_eq] at h ⊢
    have hbase := henv.mem_of_isSubclass (S := [Library.fresh.1.anyClass]) (by decide) (by decide) h
    rw [List.mem_singleton.1 hbase]

theorem of_isSubclass_objectClass (henv : env.Installed) {base : SymbolRef}
    (h : env.table.isSubclass (some env.lib.objectClass) base) :
    base = some env.lib.objectClass ∨ base = some env.lib.anyClass := by
  cases base with
  | none => cases h
  | some base =>
    rw [henv.lib_eq] at h ⊢
    have hbase := henv.mem_of_isSubclass
      (S := [Library.fresh.1.objectClass, Library.fresh.1.anyClass]) (by decide) (by decide) h
    simpa using hbase

end Installed

/-- **Reasons compose**, but for what is let pass because it is wrong already. -/
theorem Suits.trans (henv : env.Installed) (hb : b ≠ .error) (hab : env.Suits a b)
    (hbc : env.Suits b c) : env.Suits a c := by
  cases hbc with
  | untyped => exact .untyped a
  | toError => exact .toError a
  | ofError => exact absurd rfl hb
  | refl => exact hab
  | toAny => exact .toAny a
  | ofNothing =>
    cases hab with
    | ofError => exact .ofError c
    | refl | ofNothing => exact .ofNothing c
  | nullClass d =>
    cases hab with
    | ofError => exact .ofError _
    | ofNothing => exact .ofNothing _
    | refl => exact .nullClass d
  | nullStr =>
    cases hab with
    | ofError => exact .ofError _
    | ofNothing => exact .ofNothing _
    | refl => exact .nullStr
  | strObject =>
    cases hab with
    | ofError => exact .ofError _
    | ofNothing => exact .ofNothing _
    | refl => exact .strObject
    | nullStr => exact .nullClass _
  | @descent _ d hcd =>
    cases hab with
    | ofError => exact .ofError _
    | ofNothing => exact .ofNothing _
    | nullClass => exact .nullClass d
    | refl => exact .descent hcd
    | descent hbc => exact .descent (SymbolTable.isSubclass_trans hbc hcd)
    | toAny =>
      obtain rfl := henv.eq_of_isSubclass_anyClass hcd
      exact .toAny a
    | strObject =>
      obtain rfl | rfl := henv.of_isSubclass_objectClass hcd
      · exact .strObject
      · exact .toAny .str

/-! ## Top theorem -/

theorem conforms_iff_suits :
    env.conforms a b ↔ env.Suits (env.table.underlying a) (env.table.underlying b) := fits_iff_suits

/-- **Conformance is a preorder** that does not see aliases and object types.  Every type conforms
to itself; whether one conforms to another is read off what aliases and objects stand for; and a
type conforms to whatever one conforms to that it conforms to, unless that one is an error. -/
theorem conforms_preorder (ds : List Declaration) :
    let env := declaring ds
    (∀ a, env.conforms a a)
      ∧ (∀ a b, env.conforms a b = env.conforms (env.table.widen (env.table.dealias a))
          (env.table.widen (env.table.dealias b)))
      ∧ ∀ a b c, env.table.dealias b ≠ .error → env.conforms a b → env.conforms b c →
          env.conforms a c := by
  intro env
  refine ⟨fun a => ?_, fun a b => ?_, fun a b c hb hab hbc => ?_⟩
  · exact conforms_iff_suits.2 (.refl _)
  · show _ = env.fits (env.table.underlying (env.table.underlying a))
      (env.table.underlying (env.table.underlying b))
    rw [SymbolTable.underlying_underlying, SymbolTable.underlying_underlying]
    rfl
  · rw [conforms_iff_suits] at hab hbc ⊢
    refine hab.trans (installed_declaring ds) (fun h => hb ?_) hbc
    exact SymbolTable.underlying_eq_error_iff.1 h

/-- Declarations with a cycle of aliases and a cycle of parents: an object, whose class extends a
class that extends itself and, by another name, the marker type. -/
def knotted : List Declaration :=
  let n := Library.fresh.2.size
  let lib := Library.fresh.1
  [⟨some SymbolTable.root, "Native", .typeAlias (Library.classTy lib.jsAny)⟩,
    ⟨some SymbolTable.root, "Loop", .typeAlias (.aliased (some (n + 1)))⟩,
    ⟨some SymbolTable.root, "Shape", .classDef false []
      [Library.classTy (n + 2), .aliased (some n)]⟩,
    ⟨some SymbolTable.root, "Round", .object [] [.aliased (some (n + 1)), Library.classTy (n + 2)]⟩]

/-- The type of the object conforms to the class of its parent, that one to the marker type, and so
the first to the last; what the cycle of aliases would stand for is let pass on both sides. -/
theorem conforms_preorder_knotted :
    let env := declaring knotted
    let n := Library.fresh.2.size
    let marker := Ty.aliased (some n)
    let shape := Library.classTy (n + 2)
    let round := Ty.singleton (some (n + 3))
    let loop := Ty.aliased (some (n + 1))
    env.table.dealias shape ≠ .error ∧ env.conforms round shape ∧ env.conforms shape marker
      ∧ env.conforms round marker ∧ ¬ env.conforms marker shape
      ∧ env.conforms .int loop ∧ env.conforms loop marker ∧ ¬ env.conforms .int marker := by
  intro env n marker shape round loop
  have hshape : env.table.dealias shape ≠ .error := by decide
  have hround : env.conforms round shape := by decide +kernel
  have hmarker : env.conforms shape marker := by decide +kernel
  refine ⟨hshape, hround, hmarker, ?_, by decide +kernel, by decide +kernel, by decide +kernel,
    by decide +kernel⟩
  exact (conforms_preorder knotted).2.2 round shape marker hshape hround hmarker

end Env

end Interop
