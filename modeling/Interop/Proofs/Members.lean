import Interop.Enumeration
import Interop.Proofs.Installed

/-!
# What classes list

A table lists a symbol with its owner and nowhere else, and takes none from a list again (`Filed`).
The libraries list with each symbol all that is declared in it (`Listed`).  The enumeration class
lists four factories, and they share a name:

    name is found in a class or its ancestors once  →  what is found is no factory

So typing, which looks members up by name, never makes a call that was none a factory call.
-/

namespace Interop

/-- The factories of the enumeration class. -/
def Library.factories (lib : Library) : List SymbolId :=
  [lib.valueNoArg, lib.valueInt, lib.valueName, lib.valueIntName]

/-- The symbol of a factory. -/
def Env.isFactory (env : Env) (symbol : SymbolRef) : Bool :=
  env.isUnnamedFactory symbol || env.isNamedFactory symbol

theorem Env.exists_of_isFactory {env : Env} {symbol : SymbolRef} (h : env.isFactory symbol) :
    ∃ id ∈ env.lib.factories, symbol = some id := by
  simp only [isFactory, isUnnamedFactory, isNamedFactory, Bool.or_eq_true, decide_eq_true_eq] at h
  rcases h with (rfl | rfl) | rfl | rfl
  all_goals exact ⟨_, by simp [Library.factories], rfl⟩

namespace SymbolTable

/-- What is declared in a symbol is listed with it, in the order of the numbers. -/
def Listed (t : SymbolTable) : Prop :=
  ∀ o, t.decls (some o) = (List.range t.size).filter fun id => t.owner (some id) = some o

/-- What is listed is listed with its owner, and the enumeration class lists its factories. -/
structure Filed (t : SymbolTable) : Prop where
  owner_eq : ∀ r, ∀ id ∈ t.decls r, t.owner (some id) = r
  factories_subset : Library.fresh.1.factories ⊆ t.decls (some Library.fresh.1.enumeration)

/-! ## Lists -/

theorem lt_size_of_mem_decls {t : SymbolTable} {o id : SymbolId} (h : id ∈ t.decls (some o)) :
    o < t.size := by
  unfold decls at h
  cases hrow : t.rows[o]? with
  | none =>
    rw [Option.bind_some, hrow] at h
    cases h
  | some row => exact (Array.getElem?_eq_some_iff.1 hrow).1

theorem decls_of_not_lt {t : SymbolTable} {o : SymbolId} (h : ¬ o < t.size) :
    t.decls (some o) = [] :=
  List.eq_nil_iff_forall_not_mem.2 fun _ hid => h (lt_size_of_mem_decls hid)

namespace Listed

variable {t : SymbolTable}

theorem owner_eq (h : t.Listed) : ∀ r, ∀ id ∈ t.decls r, t.owner (some id) = r
  | none, _, hid => nomatch hid
  | some o, _, hid => by
    rw [h o, List.mem_filter] at hid
    exact of_decide_eq_true hid.2

theorem mem_decls_iff (h : t.Listed) {o id : SymbolId} :
    id ∈ t.decls (some o) ↔ t.owner (some id) = some o := by
  refine ⟨h.owner_eq (some o) id, fun howner => ?_⟩
  rw [h o, List.mem_filter, List.mem_range]
  refine ⟨?_, decide_eq_true howner⟩
  obtain ⟨s, hs, -⟩ := Option.bind_eq_some_iff.1 howner
  exact lt_size_of_get?_eq_some hs

end Listed

theorem listed_fresh : Library.fresh.2.Listed := by
  have hlisted : ∀ o < Library.fresh.2.size, Library.fresh.2.decls (some o)
      = (List.range Library.fresh.2.size).filter fun id =>
          Library.fresh.2.owner (some id) = some o := by
    decide +kernel
  have howners : ∀ id < Library.fresh.2.size,
      (Library.fresh.2.owner (some id)).all (· < Library.fresh.2.size) := by
    decide +kernel
  intro o
  by_cases ho : o < Library.fresh.2.size
  · exact hlisted o ho
  · rw [decls_of_not_lt ho, eq_comm, List.filter_eq_nil_iff]
    intro id hid howner
    have hlt := howners id (List.mem_range.1 hid)
    rw [of_decide_eq_true howner] at hlt
    exact ho (of_decide_eq_true hlt)

/-! ## Growth -/

theorem get?_push_size (t : SymbolTable) (s : Symbol) : (t.push s).get? (some t.size) = some s := by
  unfold push get? size
  cases s.owner with
  | none => simp
  | some o => by_cases ho : o = t.rows.size <;> simp [Array.getElem?_modify, ho]

/-- A symbol is added to the list of its owner. -/
theorem decls_push (t : SymbolTable) (s : Symbol) (r : SymbolRef) :
    (t.push s).decls r = t.decls r
      ∨ (s.owner = r ∧ (t.push s).decls r = t.decls r ++ [t.size]) := by
  cases r with
  | none => exact .inl rfl
  | some id =>
    unfold push decls size
    cases s.owner with
    | none =>
      left
      by_cases hid : id = t.rows.size <;> simp [Array.getElem?_push, hid]
    | some o =>
      by_cases ho : o = id
      · subst ho
        rcases Nat.lt_trichotomy o t.rows.size with hlt | rfl | hgt
        · right
          simp [Array.getElem?_modify, Array.getElem?_push, Nat.ne_of_lt hlt, hlt]
        · right
          simp [Array.getElem?_modify]
        · left
          simp [Array.getElem?_modify, Array.getElem?_push, Nat.ne_of_gt hgt, Nat.le_of_lt hgt]
      · left
        by_cases hid : id = t.rows.size
        · subst hid
          simp [Array.getElem?_modify, ho]
        · simp [Array.getElem?_modify, Array.getElem?_push, hid, ho]

namespace Filed

variable {t : SymbolTable}

theorem push (h : t.Filed) (s : Symbol) : (t.push s).Filed where
  owner_eq r id hid := by
    have hold : id ∈ t.decls r → (t.push s).owner (some id) = r := by
      intro hid
      have howner := h.owner_eq r id hid
      have hlt : id < t.size := by
        cases hget : t.get? (some id) with
        | none =>
          -- only symbols with owners are listed
          unfold owner at howner
          rw [hget] at howner
          subst howner
          cases hid
        | some s => exact lt_size_of_get?_eq_some hget
      unfold owner at howner ⊢
      rw [get?_push_of_lt t s hlt, howner]
    rcases decls_push t s r with heq | ⟨hr, heq⟩
    · rw [heq] at hid
      exact hold hid
    · rw [heq, List.mem_append, List.mem_singleton] at hid
      rcases hid with hid | rfl
      · exact hold hid
      · unfold owner
        rw [get?_push_size]
        exact hr
  factories_subset := by
    rcases decls_push t s (some Library.fresh.1.enumeration) with heq | ⟨-, heq⟩
    · rw [heq]
      exact h.factories_subset
    · rw [heq]
      exact List.subset_append_of_subset_left _ h.factories_subset

theorem foldl_enter (h : t.Filed) (ds : List Declaration) : (ds.foldl enter t).Filed := by
  refine List.foldlRecOn ds enter h fun t ht d _ => ?_
  exact List.foldlRecOn (d.symbols t.size) SymbolTable.push ht fun _ ht s _ => ht.push s

end Filed

theorem filed_fresh : Library.fresh.2.Filed where
  owner_eq := listed_fresh.owner_eq
  factories_subset := by decide +kernel

end SymbolTable

/-! ## Look-up by name -/

theorem Env.filed_declaring (ds : List Declaration) : (declaring ds).table.Filed :=
  SymbolTable.filed_fresh.foldl_enter ds

/-- The factories are declared in one class, under one name. -/
theorem Library.factories_declared : ∀ f ∈ Library.fresh.1.factories, f < Library.fresh.2.size
    ∧ Library.fresh.2.owner (some f) = some Library.fresh.1.enumeration
    ∧ Library.fresh.2.isTermNamed "Value" f := by
  decide +kernel

/-- Where one factory is found by name, all of them are. -/
theorem Env.factories_subset_membersNamed {env : Env} (henv : env.Installed)
    (hfiled : env.table.Filed) {owner : SymbolRef} {name : String} {id : SymbolId}
    (hid : id ∈ Library.fresh.1.factories) (hmem : id ∈ env.table.membersNamed owner name) :
    Library.fresh.1.factories ⊆ env.table.membersNamed owner name := by
  have hget : ∀ f ∈ Library.fresh.1.factories,
      env.table.get? (some f) = Library.fresh.2.get? (some f) := fun f hf =>
    henv.get?_eq f (Library.factories_declared f hf).1
  obtain ⟨-, hfactoryOwner, hfactoryName⟩ := Library.factories_declared id hid
  obtain ⟨c, hc, hmem⟩ := List.mem_flatMap.1 hmem
  obtain ⟨hdecl, hnamed⟩ := List.mem_filter.1 hmem
  have hclass : c = Library.fresh.1.enumeration := by
    have howner := hfiled.owner_eq _ _ hdecl
    unfold SymbolTable.owner at howner
    rw [hget id hid] at howner
    exact Option.some.inj (howner.symm.trans hfactoryOwner)
  have hname : name = "Value" := by
    unfold SymbolTable.isTermNamed at hnamed hfactoryName
    rw [hget id hid] at hnamed
    rw [Option.any_eq_true] at hnamed hfactoryName
    obtain ⟨s, hs, hsname⟩ := hnamed
    obtain ⟨s', hs', hvalue⟩ := hfactoryName
    simp only [Bool.and_eq_true, decide_eq_true_eq] at hsname hvalue
    obtain rfl : s = s' := Option.some.inj (hs.symm.trans hs')
    exact hsname.1.symm.trans hvalue.1
  intro f hf
  refine List.mem_flatMap.2 ⟨c, hc, List.mem_filter.2 ⟨?_, ?_⟩⟩
  · rw [hclass]
    exact hfiled.factories_subset hf
  · unfold SymbolTable.isTermNamed
    rw [hname, hget f hf]
    exact (Library.factories_declared f hf).2.2

theorem Typing.membersNamed_of_resolveMember {env : Env} {owner : SymbolRef} {name : String}
    {id : SymbolId} (h : resolveMember env owner name = .ok id) :
    env.table.membersNamed owner name = [id] := by
  unfold resolveMember at h
  split at h
  next hm =>
    cases h
    exact hm
  all_goals cases h

/-- **What is found by name is no factory**: another factory would be found with it. -/
theorem Typing.isFactory_of_resolveMember {env : Env} (henv : env.Installed)
    (hfiled : env.table.Filed) {owner : SymbolRef} {name : String} {id : SymbolId}
    (h : resolveMember env owner name = .ok id) : env.isFactory (some id) = false := by
  rw [Bool.eq_false_iff]
  intro hfactory
  obtain ⟨_, hid, hsome⟩ := Env.exists_of_isFactory hfactory
  cases hsome
  rw [henv.lib_eq] at hid
  have hmembers := membersNamed_of_resolveMember h
  have hall : ∀ f ∈ Library.fresh.1.factories, f = id := by
    intro f hf
    have hf := Env.factories_subset_membersNamed henv hfiled hid (by rw [hmembers]; exact .head _) hf
    rw [hmembers] at hf
    exact List.mem_singleton.1 hf
  have htwo : Library.fresh.1.valueNoArg = Library.fresh.1.valueInt :=
    (hall _ (by simp [Library.factories])).trans (hall _ (by simp [Library.factories])).symm
  exact absurd htwo (by decide)

end Interop
