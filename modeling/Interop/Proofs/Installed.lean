import Interop.Env
import Interop.Typing.Retype
import Mathlib.Data.List.Basic

/-!
# The libraries in a larger table

A compilation declares its own symbols after those of the libraries.  The table only grows, so the
well-known symbols stay what they were when they were installed (`Installed`), and whatever a rule
looks up about them can be read off the fresh table:

    id < size of the fresh table → get? id  in  declaring ds  =  get? id  in the fresh table
-/

namespace Interop

namespace SymbolTable

/-! ## Growth -/

theorem size_push (t : SymbolTable) (s : Symbol) : (t.push s).size = t.size + 1 := by
  unfold push size
  cases s.owner <;> simp

/-- Adding a symbol changes no symbol before it. -/
theorem get?_push_of_lt (t : SymbolTable) (s : Symbol) {id : SymbolId} (h : id < t.size) :
    (t.push s).get? (some id) = t.get? (some id) := by
  unfold push get?
  unfold size at h
  cases s.owner with
  | none => simp [Array.getElem?_push, Nat.ne_of_lt h]
  | some o =>
    by_cases ho : o = id
    · subst ho
      simp [Array.getElem?_modify, Array.getElem?_push, Nat.ne_of_lt h]
      rfl
    · simp [Array.getElem?_modify, Array.getElem?_push, Nat.ne_of_lt h, ho]

theorem get?_foldl_push_of_lt (ss : List Symbol) (t : SymbolTable) {id : SymbolId}
    (h : id < t.size) :
    (ss.foldl push t).get? (some id) = t.get? (some id) ∧ id < (ss.foldl push t).size := by
  induction ss generalizing t with
  | nil => exact ⟨rfl, h⟩
  | cons s ss ih =>
    have hsize : id < (t.push s).size := by
      rw [size_push]
      exact Nat.lt_succ_of_lt h
    obtain ⟨hget, hlt⟩ := ih (t.push s) hsize
    exact ⟨hget.trans (get?_push_of_lt t s h), hlt⟩

theorem get?_foldl_enter_of_lt (ds : List Declaration) (t : SymbolTable) {id : SymbolId}
    (h : id < t.size) :
    (ds.foldl enter t).get? (some id) = t.get? (some id) := by
  induction ds generalizing t with
  | nil => rfl
  | cons d ds ih =>
    obtain ⟨hget, hlt⟩ := get?_foldl_push_of_lt (d.symbols t.size) t h
    exact (ih (t.enter d) hlt).trans hget

/-! ## Ancestors stay in a closed set -/

/-- A search that starts in a set that `next` does not leave finds only members of the set. -/
theorem mem_of_mem_visit {S : SymbolId → Prop} {next : SymbolId → List SymbolId}
    (hS : ∀ c, S c → ∀ p ∈ next c, S p) (unseen pending : List SymbolId)
    (hp : ∀ c ∈ pending, S c) {c : SymbolId} (hc : c ∈ visit next unseen pending) : S c := by
  fun_induction visit next unseen pending with
  | case1 => cases hc
  | case2 unseen pending id hid ih =>
    have hid : S id := hp id (List.mem_of_find?_eq_some hid)
    rcases List.mem_cons.1 hc with rfl | hc
    · exact hid
    · refine ih (fun p hp' => ?_) hc
      rcases List.mem_append.1 hp' with h | h
      · exact hS id hid p h
      · exact hp p h

/-- A set that holds the parent classes of its members holds their ancestors. -/
theorem mem_of_isSubclass {S : SymbolId → Prop} (t : SymbolTable)
    (hS : ∀ c, S c → ∀ p ∈ t.parentClasses c, S p) {sub base : SymbolId} (hsub : S sub)
    (h : t.isSubclass (some sub) (some base)) : S base := by
  unfold isSubclass at h
  simp only [Bool.or_eq_true, decide_eq_true_eq, List.any_eq_true, List.contains_iff_mem] at h
  rcases h with rfl | ⟨c, hc, hbase⟩
  · exact hsub
  · have : S c := mem_of_mem_visit hS _ _ (by simpa using hsub) hc
    exact hS c this base hbase

theorem lt_size_of_get?_eq_some {t : SymbolTable} {id : SymbolId} {s : Symbol}
    (h : t.get? (some id) = some s) : id < t.size := by
  obtain ⟨row, hrow, -⟩ := Option.map_eq_some_iff.1 h
  exact (Array.getElem?_eq_some_iff.1 hrow).1

/-- What has an ancestor in the table is in the table. -/
theorem lt_size_of_isSubclass {t : SymbolTable} {sub base : SymbolId} (hbase : base < t.size)
    (h : t.isSubclass (some sub) (some base)) : sub < t.size := by
  refine Decidable.byContradiction fun hsub => ?_
  unfold isSubclass at h
  simp only [lineage_of_not_lt hsub, List.any_nil, Bool.or_false, decide_eq_true_eq] at h
  exact hsub (h ▸ hbase)

end SymbolTable

namespace Env

/-! ## Environments -/

/-- What the pass reads when a compilation declares `ds`. -/
def declaring (ds : List Declaration) : Env where
  table := ds.foldl SymbolTable.enter Library.fresh.2
  lib := Library.fresh.1

/-- The well-known symbols are those of the libraries, and are what the libraries declare. -/
structure Installed (env : Env) : Prop where
  lib_eq : env.lib = Library.fresh.1
  get?_eq : ∀ id, id < Library.fresh.2.size →
    env.table.get? (some id) = Library.fresh.2.get? (some id)

theorem installed_declaring (ds : List Declaration) : (declaring ds).Installed :=
  ⟨rfl, fun _ h => SymbolTable.get?_foldl_enter_of_lt ds _ h⟩

/-- The type of a dynamic value. -/
def dynamicTy (env : Env) : Ty := Library.classTy env.lib.jsDynamic

/-- The type of a class literal. -/
def tokenTy (env : Env) : Ty := Library.classTy env.lib.classClass

/-- The type of an enumeration value. -/
def enumTy (env : Env) : Ty := Library.classTy env.lib.enumValue

namespace Installed

variable {env : Env} (henv : env.Installed)

include henv

theorem infoOf_selectDynamic :
    Typing.infoOf env (some env.lib.selectDynamic) = .ok (.method [.str] env.dynamicTy) := by
  unfold Typing.infoOf dynamicTy
  rw [henv.lib_eq, henv.get?_eq _ (by decide)]
  rfl

theorem infoOf_applyDynamic :
    Typing.infoOf env (some env.lib.applyDynamic)
      = .ok (.method [.str]
          (.method [.repeated (Library.classTy env.lib.anyClass)] env.dynamicTy)) := by
  unfold Typing.infoOf dynamicTy
  rw [henv.lib_eq, henv.get?_eq _ (by decide)]
  rfl

theorem infoOf_valueName :
    Typing.infoOf env (some env.lib.valueName) = .ok (.method [.str] env.enumTy) := by
  unfold Typing.infoOf enumTy
  rw [henv.lib_eq, henv.get?_eq _ (by decide)]
  rfl

theorem infoOf_valueIntName :
    Typing.infoOf env (some env.lib.valueIntName) = .ok (.method [.int, .str] env.enumTy) := by
  unfold Typing.infoOf enumTy
  rw [henv.lib_eq, henv.get?_eq _ (by decide)]
  rfl

theorem jsExport_ne_rawJSType : env.lib.jsExport ≠ env.lib.rawJSType := by
  rw [henv.lib_eq]
  decide

/-- A class that extends the marker type is in the table. -/
theorem exists_of_isJsAny {symbol : SymbolRef} (h : env.isJsAny symbol) :
    ∃ id, env.table.typeSymbolOf symbol = some id ∧ id < env.table.size := by
  have hbase : env.lib.jsAny < env.table.size := by
    rw [henv.lib_eq]
    exact SymbolTable.lt_size_of_get?_eq_some ((henv.get?_eq _ (by decide)).trans rfl)
  unfold isJsAny extendsClass at h
  cases hid : env.table.typeSymbolOf symbol with
  | none =>
    rw [hid] at h
    cases h
  | some id =>
    rw [hid] at h
    exact ⟨id, rfl, SymbolTable.lt_size_of_isSubclass hbase h⟩

/-- The classes of the libraries have the parents that they had in the fresh table. -/
theorem parentClasses_eq {id : SymbolId} (h : id < Library.fresh.2.size) :
    env.table.parentClasses id = Library.fresh.2.parentClasses id := by
  have hparents : ∀ id < Library.fresh.2.size,
      ∀ ty ∈ (Library.fresh.2.get? (some id)).elim [] (·.parents), ∃ r, ty = .instanceOf r := by
    have : ∀ id < Library.fresh.2.size,
        ((Library.fresh.2.get? (some id)).elim [] (·.parents)).all
          (fun ty => ty = .instanceOf (Library.fresh.2.typeSymbol ty)) := by
      decide +kernel
    intro id hid ty hty
    exact ⟨_, of_decide_eq_true (List.all_eq_true.1 (this id hid) ty hty)⟩
  have hparents := hparents id h
  unfold SymbolTable.parentClasses
  rw [henv.get?_eq id h]
  cases hget : Library.fresh.2.get? (some id) with
  | none => rfl
  | some s =>
    rw [hget] at hparents
    refine List.filterMap_congr fun ty hty => ?_
    obtain ⟨r, rfl⟩ := hparents ty hty
    rfl

/-- The ancestors of a class of the libraries are among those that it has in the fresh table. -/
theorem mem_of_isSubclass {S : List SymbolId} {sub base : SymbolId}
    (hS : ∀ c ∈ S, c < Library.fresh.2.size ∧ ∀ p ∈ Library.fresh.2.parentClasses c, p ∈ S)
    (hsub : sub ∈ S) (h : env.table.isSubclass (some sub) (some base)) : base ∈ S := by
  refine env.table.mem_of_isSubclass (S := (· ∈ S)) (fun c hc p hp => ?_) hsub h
  obtain ⟨hlt, hparents⟩ := hS c hc
  rw [henv.parentClasses_eq hlt] at hp
  exact hparents p hp

/-- A class of the libraries fits where a class is needed that is not among its ancestors only if
every class does. -/
theorem not_fits {S : List SymbolId} {sub base : SymbolId}
    (hS : ∀ c ∈ S, c < Library.fresh.2.size ∧ ∀ p ∈ Library.fresh.2.parentClasses c, p ∈ S)
    (hany : Library.fresh.1.anyClass ∈ S) (hsub : sub ∈ S) (hbase : base ∉ S) :
    ¬ env.fits (.instanceOf (some sub)) (.instanceOf (some base)) := by
  have hne : sub ≠ base := fun h => hbase (h ▸ hsub)
  have hne' : base ≠ env.lib.anyClass := by
    rw [henv.lib_eq]
    exact fun h => hbase (h ▸ hany)
  have hnot : ¬ env.table.isSubclass (some sub) (some base) :=
    fun h => hbase (henv.mem_of_isSubclass hS hsub h)
  simp [fits, hne, hne', hnot]

/-- A class literal is no dynamic value. -/
theorem not_conforms_tokenTy {ty : Ty} (h : env.table.typeSymbol ty = some env.lib.jsDynamic) :
    ¬ env.conforms env.tokenTy ty := by
  have hty : env.table.underlying ty = .instanceOf (some env.lib.jsDynamic) := by
    unfold SymbolTable.typeSymbol at h
    split at h
    next r hr => rw [hr, h]
    next => cases h
  show ¬ env.fits (.instanceOf (some env.lib.classClass)) (env.table.underlying ty)
  rw [hty, henv.lib_eq]
  exact henv.not_fits (S := [Library.fresh.1.classClass, Library.fresh.1.objectClass,
    Library.fresh.1.anyClass]) (by decide) (by decide) (by decide) (by decide)

/-- A dynamic value is no enumeration value. -/
theorem not_conforms_enumTy : ¬ env.conforms env.dynamicTy env.enumTy := by
  show ¬ env.fits (.instanceOf (some env.lib.jsDynamic)) (.instanceOf (some env.lib.enumValue))
  rw [henv.lib_eq]
  exact henv.not_fits (S := [Library.fresh.1.jsDynamic, Library.fresh.1.jsAny,
    Library.fresh.1.objectClass, Library.fresh.1.anyClass]) (by decide) (by decide) (by decide)
    (by decide)

end Installed

end Env

end Interop
