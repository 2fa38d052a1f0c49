import Mathlib.Data.List.Perm.Subperm
import Interop.SymbolTable.Owner
import Interop.Proofs.Inheritance

/-!
# Chains of owners

Whatever order symbols are declared in, as long as each stands nowhere or in a symbol that is there
already, the table stays `Consistent`: an owner has a smaller number than what it owns, an object is
followed by the class behind it, and each symbol lists what it owns.  So the owners of a symbol make
up a chain that ends (`exists_ownerChain`).  In any table a chain that ends has no more symbols than
the table, and what is looked up along it is read off the chain:

    the package around a symbol   the first package of the chain
    static                        the rest of the chain is objects, then a package
    full name                     the names of the chain up to the root package, outermost first

No symbol changes once it has its number (`foldl_enter_consistent`).
-/

namespace Interop

namespace SymbolTable

/-! ## Algorithm -/

/-- A symbol and its owners, from the inside out, as far as they are in the table. -/
inductive OwnerChain (t : SymbolTable) : SymbolRef → List SymbolId → Prop
  | stop {r : SymbolRef} : t.get? r = none → OwnerChain t r []
  | step {id : SymbolId} {s : Symbol} {ids : List SymbolId} :
      t.get? (some id) = some s → OwnerChain t s.owner ids → OwnerChain t (some id) (id :: ids)

/-- The symbol `m` is the object `s`, which is followed by the class `c` behind it. -/
structure IsObject (t : SymbolTable) (m : SymbolId) (s c : Symbol) : Prop where
  objectClass : s.objectClass = some (m + 1)
  get : t.get? (some (m + 1)) = some c
  kind : c.kind = .objectClass
  name : c.name = s.name
  owner : c.owner = s.owner
  modifiers : c.modifiers = s.modifiers

/-- The lists, the owners and the classes of a table fit together. -/
structure Consistent (t : SymbolTable) : Prop where
  listed : t.Listed
  owner_lt : ∀ id s o, t.get? (some id) = some s → s.owner = some o → o < id
  isObject : ∀ m s, t.get? (some m) = some s → s.kind = .object → ∃ c, t.IsObject m s c

variable {t : SymbolTable} {id : SymbolId} {r : SymbolRef} {s : Symbol} {ids ids' : List SymbolId}

/-! ## Declaring -/

theorem size_foldl_push (ss : List Symbol) (t : SymbolTable) :
    (ss.foldl push t).size = t.size + ss.length := by
  induction ss generalizing t with
  | nil => rfl
  | cons s ss ih => rw [List.foldl_cons, ih, size_push, List.length_cons, Nat.add_assoc,
      Nat.add_comm 1]

/-- Symbols get the next numbers, in order. -/
theorem get?_foldl_push_add (ss : List Symbol) (t : SymbolTable) (i : Nat) :
    (ss.foldl push t).get? (some (t.size + i)) = ss[i]? := by
  induction ss generalizing t i with
  | nil =>
    rw [List.foldl_nil, List.getElem?_nil, Option.eq_none_iff_forall_ne_some]
    exact fun s hs => absurd (lt_size_of_get?_eq_some hs) (Nat.not_lt.2 (Nat.le_add_right _ _))
  | cons s ss ih =>
    cases i with
    | zero =>
      have hlt : t.size < (t.push s).size := by rw [size_push]; omega
      rw [List.foldl_cons, Nat.add_zero, (get?_foldl_push_of_lt ss _ hlt).1, get?_push_size]
      rfl
    | succ i =>
      have hnext : t.size + (i + 1) = (t.push s).size + i := by rw [size_push]; omega
      rw [List.foldl_cons, hnext, ih, List.getElem?_cons_succ]

theorem size_enter (t : SymbolTable) (d : Declaration) :
    (t.enter d).size = t.size + (d.symbols t.size).length :=
  size_foldl_push _ t

theorem get?_enter_of_lt (d : Declaration) (h : id < t.size) :
    (t.enter d).get? (some id) = t.get? (some id) :=
  (get?_foldl_push_of_lt _ t h).1

/-- A symbol is one of before, or one of those that are declared. -/
theorem get?_enter_eq_some {d : Declaration} (h : (t.enter d).get? (some id) = some s) :
    t.get? (some id) = some s ∨ ∃ i, id = t.size + i ∧ (d.symbols t.size)[i]? = some s := by
  by_cases hlt : id < t.size
  · left
    rwa [get?_enter_of_lt d hlt] at h
  · right
    obtain ⟨i, rfl⟩ := Nat.exists_eq_add_of_le (Nat.le_of_not_lt hlt)
    exact ⟨i, rfl, (get?_foldl_push_add _ t i).symm.trans h⟩

/-- Of the symbols of a declaration an object is the first, and its class the second. -/
theorem exists_of_object_symbols {d : Declaration} {n i : Nat} (h : (d.symbols n)[i]? = some s)
    (hkind : s.kind = .object) : ∃ c, s.objectClass = some (n + i + 1)
      ∧ (d.symbols n)[i + 1]? = some c ∧ c.kind = .objectClass ∧ c.name = s.name
      ∧ c.owner = s.owner ∧ c.modifiers = s.modifiers := by
  obtain ⟨owner, name, what⟩ := d
  cases what with
  | object modifiers parents =>
    match i, h with
    | 0, h =>
      cases h
      exact ⟨_, rfl, rfl, rfl, rfl, rfl, rfl⟩
    | 1, h =>
      cases h
      cases hkind
  | classDef isTrait modifiers parents =>
    match i, h with
    | 0, h =>
      cases h
      cases isTrait <;> cases hkind
  | _ =>
    match i, h with
    | 0, h =>
      cases h
      cases hkind

namespace Consistent

theorem enter (h : t.Consistent) {d : Declaration} (hd : t.knows d.owner) :
    (t.enter d).Consistent where
  listed := h.listed.foldl_push (fun _ => owner_of_mem_symbols) hd
  owner_lt id s o hget ho := by
    rcases get?_enter_eq_some hget with hold | ⟨i, rfl, hnew⟩
    · exact h.owner_lt id s o hold ho
    · rw [← owner_of_mem_symbols (List.mem_of_getElem? hnew), ho, knows_some] at hd
      exact Nat.lt_add_right i hd
  isObject m s hget hkind := by
    rcases get?_enter_eq_some hget with hold | ⟨i, rfl, hnew⟩
    · obtain ⟨c, hc⟩ := h.isObject m s hold hkind
      have hlt : m + 1 < t.size := lt_size_of_get?_eq_some hc.get
      exact ⟨c, { hc with get := (get?_enter_of_lt d hlt).trans hc.get }⟩
    · obtain ⟨c, hclass, hc, hrest⟩ := exists_of_object_symbols hnew hkind
      obtain ⟨hkind', hname, howner, hmodifiers⟩ := hrest
      exact ⟨c, hclass, (get?_foldl_push_add _ t (i + 1)).trans hc, hkind', hname, howner,
        hmodifiers⟩

theorem foldl_enter (h : t.Consistent) {ds : List Declaration} (hds : t.isGrounded ds) :
    (ds.foldl SymbolTable.enter t).Consistent := by
  induction ds generalizing t with
  | nil => exact h
  | cons d ds ih =>
    rw [isGrounded, Bool.and_eq_true] at hds
    exact ih (h.enter hds.1) hds.2

end Consistent

theorem consistent_new : new.Consistent where
  listed := listed_new
  owner_lt id s o hget ho := by
    obtain rfl : id = 0 := Nat.lt_one_iff.1 (lt_size_of_get?_eq_some hget)
    cases hget
    cases ho
  isObject m s hget hkind := by
    obtain rfl : m = 0 := Nat.lt_one_iff.1 (lt_size_of_get?_eq_some hget)
    cases hget
    cases hkind

theorem consistent_fresh : Library.fresh.2.Consistent where
  listed := listed_fresh
  owner_lt id s o hget ho := by
    have howners : ∀ id < Library.fresh.2.size,
        (Library.fresh.2.owner (some id)).all (· < id) := by
      decide +kernel
    have := howners id (lt_size_of_get?_eq_some hget)
    unfold owner at this
    rw [hget, Option.bind_some, ho] at this
    exact of_decide_eq_true this
  isObject m s hget hkind := by
    have hobjects : ∀ m < Library.fresh.2.size, (Library.fresh.2.get? (some m)).all fun s =>
        s.kind = .object → (Library.fresh.2.get? (some (m + 1))).any fun c =>
          s.objectClass = some (m + 1) ∧ c.kind = .objectClass ∧ c.name = s.name
            ∧ c.owner = s.owner ∧ c.modifiers = s.modifiers := by
      decide +kernel
    have := hobjects m (lt_size_of_get?_eq_some hget)
    rw [hget, Option.all_some, decide_eq_true_eq] at this
    obtain ⟨c, hc, hclass⟩ := (Option.any_eq_true _ _).1 (this hkind)
    obtain ⟨hclass, hkind', hname, howner, hmodifiers⟩ := of_decide_eq_true hclass
    exact ⟨c, hclass, hc, hkind', hname, howner, hmodifiers⟩

/-! ## Chains -/

theorem OwnerChain.unique (h : t.OwnerChain r ids) (h' : t.OwnerChain r ids') : ids' = ids := by
  induction h generalizing ids' with
  | stop hnone =>
    cases h' with
    | stop => rfl
    | step hs => rw [hnone] at hs; cases hs
  | step hs _ ih =>
    cases h' with
    | stop hnone => rw [hnone] at hs; cases hs
    | step hs' hrest =>
      obtain rfl := Option.some.inj (hs.symm.trans hs')
      rw [ih hrest]

/-- Each symbol of a chain is in the table, and its owners are on the chain after it. -/
theorem OwnerChain.exists_of_mem (h : t.OwnerChain r ids) (hid : id ∈ ids) :
    ∃ s ids', t.get? (some id) = some s ∧ t.OwnerChain s.owner ids'
      ∧ ids'.length < ids.length := by
  induction h with
  | stop => cases hid
  | step hs hrest ih =>
    rcases List.mem_cons.1 hid with rfl | hid
    · exact ⟨_, _, hs, hrest, Nat.lt_succ_self _⟩
    · obtain ⟨s, ids', hs', hids', hlength⟩ := ih hid
      exact ⟨s, ids', hs', hids', Nat.lt_succ_of_lt hlength⟩

/-- No symbol is met twice on a chain that ends. -/
theorem OwnerChain.nodup (h : t.OwnerChain r ids) : ids.Nodup := by
  induction h with
  | stop => exact List.nodup_nil
  | step hs hrest ih =>
    refine List.nodup_cons.2 ⟨fun hid => ?_, ih⟩
    obtain ⟨s, ids', hs', hids', hlength⟩ := hrest.exists_of_mem hid
    obtain rfl := Option.some.inj (hs.symm.trans hs')
    rw [hrest.unique hids'] at hlength
    exact Nat.lt_irrefl _ hlength

/-- **Walks go as far as chains.**  A chain that ends has no more symbols than the table. -/
theorem OwnerChain.length_le_size (h : t.OwnerChain r ids) : ids.length ≤ t.size := by
  have hrange : ids ⊆ List.range t.size := by
    intro id hid
    obtain ⟨_, _, hs, -⟩ := h.exists_of_mem hid
    exact List.mem_range.2 (lt_size_of_get?_eq_some hs)
  have hlength := (h.nodup.subperm hrange).length_le
  rwa [List.length_range] at hlength

/-! ## Walks along the chain -/

/-- The names of a chain up to the root package, outermost first. -/
theorem pathWithin_eq (hids : t.OwnerChain r ids) {n : Nat} (hn : ids.length ≤ n) :
    t.pathWithin n r
      = (ids.takeWhile (· ≠ root)).reverse.map fun id => t.name (some id) := by
  induction hids generalizing n with
  | stop hnone =>
    cases n with
    | zero => rfl
    | succ n =>
      rw [pathWithin, hnone]
      split <;> rfl
  | @step id s ids hs _ ih =>
    obtain ⟨n, rfl⟩ := Nat.exists_eq_add_of_le' (Nat.le_trans (Nat.succ_pos _) hn)
    by_cases hroot : id = root
    · rw [pathWithin, if_pos (congrArg some hroot),
        List.takeWhile_cons_of_neg (by simpa using hroot)]
      rfl
    · have hname : t.name (some id) = s.name := by rw [name, hs]; rfl
      have hpath : t.pathWithin (n + 1) (some id) = t.pathWithin n s.owner ++ [s.name] := by
        rw [pathWithin, if_neg (mt Option.some.inj hroot), hs]
      rw [hpath, ih (Nat.le_of_succ_le_succ hn), List.takeWhile_cons_of_pos (by simpa using hroot),
        List.reverse_cons, List.map_append, List.map_singleton, hname]

/-- The first package of a chain. -/
theorem packageWithin_eq (hids : t.OwnerChain r ids) {n : Nat} (hn : ids.length ≤ n) :
    t.packageWithin n r = ids.find? fun id => t.kind? (some id) = some .package := by
  induction hids generalizing n with
  | stop hnone =>
    cases n with
    | zero => rfl
    | succ n =>
      rw [packageWithin, hnone]
      rfl
  | @step id s ids hs _ ih =>
    obtain ⟨n, rfl⟩ := Nat.exists_eq_add_of_le' (Nat.le_trans (Nat.succ_pos _) hn)
    have hkind : t.kind? (some id) = some s.kind := by rw [kind?, hs]; rfl
    have hpackage : t.packageWithin (n + 1) (some id)
        = if s.kind = .package then some id else t.packageWithin n s.owner := by
      rw [packageWithin, hs]
    rw [hpackage, List.find?_cons, hkind, ih (Nat.le_of_succ_le_succ hn)]
    by_cases hkind' : s.kind = .package <;> simp [hkind']

/-- Objects lead to a package from the owner. -/
theorem isStaticWithin_iff (hids : t.OwnerChain r ids) {n : Nat} (hn : ids.length ≤ n) :
    t.isStaticWithin n r ↔ ∃ objects package rest, ids.tail = objects ++ package :: rest
      ∧ (∀ o ∈ objects, t.kind? (some o) = some .objectClass)
      ∧ t.kind? (some package) = some .package := by
  induction hids generalizing n with
  | @stop r hnone =>
    cases n with
    | zero => simp [isStaticWithin]
    | succ n =>
      have hkind : t.kind? (t.owner r) = none := by rw [owner, hnone]; rfl
      simp [isStaticWithin, hkind]
  | @step id s ids hs hrest ih =>
    obtain ⟨n, rfl⟩ := Nat.exists_eq_add_of_le' (Nat.le_trans (Nat.succ_pos _) hn)
    have howner : t.owner (some id) = s.owner := by rw [owner, hs]; rfl
    have hstep : t.isStaticWithin (n + 1) (some id) ↔ t.kind? s.owner = some .package
        ∨ t.kind? s.owner = some .objectClass ∧ t.isStaticWithin n s.owner := by
      rw [isStaticWithin, howner]
      cases hkind : t.kind? s.owner with
      | none => simp
      | some k => cases k <;> simp
    rw [hstep, ih (Nat.le_of_succ_le_succ hn), List.tail_cons]
    generalize s.owner = r at hrest
    cases hrest with
    | stop hnone => simp [kind?, hnone]
    | @step o _ ids _ _ =>
      rw [List.tail_cons]
      constructor
      · rintro (hpackage | ⟨hobject, objects, package, rest, rfl, hobjects, hpackage⟩)
        · exact ⟨[], o, ids, rfl, by simp, hpackage⟩
        · exact ⟨o :: objects, package, rest, rfl, List.forall_mem_cons.2 ⟨hobject, hobjects⟩,
            hpackage⟩
      · rintro ⟨objects, package, rest, heq, hobjects, hpackage⟩
        cases objects with
        | nil =>
          cases heq
          exact .inl hpackage
        | cons o' objects =>
          cases heq
          rw [List.forall_mem_cons] at hobjects
          exact .inr ⟨hobjects.1, objects, package, rest, rfl, hobjects.2, hpackage⟩

theorem fullName_root (t : SymbolTable) : t.fullName (some root) = "" := by
  unfold fullName
  cases t.size with
  | zero => exact String.intercalate_nil
  | succ n => rw [pathWithin, if_pos rfl, String.intercalate_nil]

namespace Consistent

/-- **Owners make up a chain that ends**: their numbers fall. -/
theorem exists_ownerChain (h : t.Consistent) (r : SymbolRef) : ∃ ids, t.OwnerChain r ids := by
  cases r with
  | none => exact ⟨[], .stop rfl⟩
  | some id =>
    induction id using Nat.strong_induction_on with
    | _ id ih =>
      cases hs : t.get? (some id) with
      | none => exact ⟨[], .stop hs⟩
      | some s =>
        cases ho : s.owner with
        | none => exact ⟨[id], .step hs (ho ▸ .stop rfl)⟩
        | some o =>
          obtain ⟨ids, hids⟩ := ih o (h.owner_lt id s o hs ho)
          exact ⟨id :: ids, .step hs (ho ▸ hids)⟩

/-- A full name is that of the owner and the own name, or the own name alone. -/
theorem fullName_of_get? (h : t.Consistent) (hs : t.get? (some id) = some s) (hroot : id ≠ root) :
    t.fullName (some id) = if s.owner = none ∨ s.owner = some root then s.name
      else t.fullName s.owner ++ "." ++ s.name := by
  obtain ⟨ids, hids⟩ := h.exists_ownerChain s.owner
  have hchain : t.OwnerChain (some id) (id :: ids) := .step hs hids
  have howner := pathWithin_eq hids hids.length_le_size
  -- the names are those of the chain, whatever the bound on both walks
  have hpath : t.pathWithin t.size (some id) = t.pathWithin t.size s.owner ++ [s.name] := by
    have hname : t.name (some id) = s.name := by rw [name, hs]; rfl
    rw [pathWithin_eq hchain hchain.length_le_size, howner,
      List.takeWhile_cons_of_pos (by simpa using hroot), List.reverse_cons, List.map_append,
      List.map_singleton, hname]
  unfold fullName
  rw [hpath]
  cases ho : s.owner with
  | none =>
    rw [ho] at howner hids
    cases hids
    rw [howner]
    simp
  | some o =>
    rw [ho] at howner hids
    by_cases hoRoot : o = root
    · have hnone : t.pathWithin t.size (some o) = [] := by
        cases hids with
        | stop => exact howner
        | step => rw [howner, List.takeWhile_cons_of_neg (by simpa using hoRoot)]; rfl
      rw [hnone, hoRoot]
      simp
    · -- the owner is in the table, so it has a name of its own
      obtain ⟨s', hs'⟩ := exists_get?_iff.2
        (Nat.lt_trans (h.owner_lt id s o hs ho) (lt_size_of_get?_eq_some hs))
      have hne : t.pathWithin t.size (some o) ≠ [] := by
        cases hids with
        | stop hnone => rw [hs'] at hnone; cases hnone
        | step =>
          rw [howner, List.takeWhile_cons_of_pos (by simpa using hoRoot)]
          simp
      rw [String.intercalate_append_of_ne_nil hne (by simp), String.intercalate_singleton, if_neg]
      simp [hoRoot]

end Consistent

/-! ## Top theorem -/

/-- **A table stays consistent whatever is declared.**  Let each declaration stand nowhere or in a
symbol that is in the table by then.  It gets the next number, an object the next two; its symbols
are in the final table as they were declared, and those before it are not touched.  Each symbol
lists what it owns, in ascending order, and each object is followed by its class.  From each symbol
the owners make up one chain, and it ends; the package around the symbol, whether it is static, and
its full name are read off this chain. -/
theorem foldl_enter_consistent {base : SymbolTable} (hbase : base ∈ [new, Library.fresh.2])
    {ds : List Declaration} (hds : base.isGrounded ds) :
    let t := ds.foldl enter base
    (∀ earlier d later, ds = earlier ++ d :: later →
        let u := earlier.foldl enter base
        (declare d.owner d.name d.what).run u = (u.size, u.enter d)
          ∧ (u.enter d).size = u.size + (d.symbols u.size).length
          ∧ (∀ i < (d.symbols u.size).length,
              t.get? (some (u.size + i)) = (d.symbols u.size)[i]?)
          ∧ ∀ id < u.size, t.get? (some id) = u.get? (some id))
      ∧ (∀ o, (t.decls (some o)).Pairwise (· < ·)
          ∧ ∀ id, id ∈ t.decls (some o) ↔ t.owner (some id) = some o)
      ∧ (∀ m s, t.get? (some m) = some s → s.kind = .object → ∃ c, t.IsObject m s c)
      ∧ t.fullName (some root) = ""
      ∧ (∀ id s, t.get? (some id) = some s → id ≠ root →
          t.fullName (some id) = if s.owner = none ∨ s.owner = some root then s.name
            else t.fullName s.owner ++ "." ++ s.name)
      ∧ ∀ r, ∃ ids, t.OwnerChain r ids ∧ (∀ ids', t.OwnerChain r ids' → ids' = ids)
          ∧ t.fullName r = ".".intercalate ((ids.takeWhile (· ≠ root)).reverse.map fun id =>
              t.name (some id))
          ∧ t.enclosingPackage r = ids.find? (fun id => t.kind? (some id) = some .package)
          ∧ (t.isStatic r ↔ ∃ objects package rest, ids.tail = objects ++ package :: rest
              ∧ (∀ o ∈ objects, t.kind? (some o) = some .objectClass)
              ∧ t.kind? (some package) = some .package) := by
  intro t
  have ht : t.Consistent := by
    refine Consistent.foldl_enter ?_ hds
    rcases List.mem_pair.1 hbase with rfl | rfl
    · exact consistent_new
    · exact consistent_fresh
  refine ⟨?_, fun o => ⟨ht.listed.numbered.pairwise_lt (some o), fun id => ht.listed.mem_decls_iff⟩,
    ht.isObject, fullName_root t, fun id s => ht.fullName_of_get?, fun r => ?_⟩
  · rintro earlier d later rfl u
    have hlast : t = later.foldl enter (u.enter d) := by
      rw [show t = (earlier ++ d :: later).foldl enter base from rfl, List.foldl_append]
      rfl
    have hkept : ∀ id < (u.enter d).size, t.get? (some id) = (u.enter d).get? (some id) := by
      intro id hid
      rw [hlast]
      exact get?_foldl_enter_of_lt later _ hid
    have hsize := size_enter u d
    refine ⟨rfl, hsize, fun i hi => ?_, fun id hid => ?_⟩
    · rw [hkept _ (by omega)]
      exact get?_foldl_push_add _ u i
    · rw [hkept _ (by omega)]
      exact get?_enter_of_lt d hid
  · obtain ⟨ids, hids⟩ := ht.exists_ownerChain r
    have hlength := hids.length_le_size
    exact ⟨ids, hids, fun _ => hids.unique, congrArg _ (pathWithin_eq hids hlength),
      packageWithin_eq hids hlength, isStaticWithin_iff hids hlength⟩

/-- An object with a method, which has a type parameter, and with a class, which has an object of
its own.  One value stands nowhere. -/
def nestedObjects : List Declaration :=
  [⟨some root, "app", .package⟩, ⟨some 1, "Main", .object [.privateMod] []⟩,
    ⟨some 3, "run", .method [] [] .unit⟩, ⟨some 4, "T", .typeParam⟩,
    ⟨some 3, "Inner", .classDef false [] []⟩, ⟨none, "adrift", .value [] .int⟩,
    ⟨some 6, "Deep", .object [] []⟩]

/-- The class in the object is static, the object in that class is not. -/
theorem foldl_enter_consistent_nestedObjects :
    let t := nestedObjects.foldl enter new
    new.isGrounded nestedObjects ∧ t.size = 10
      ∧ t.fullName (some 8) = "app.Main.Inner.Deep" ∧ t.fullName (some 7) = "adrift"
      ∧ t.enclosingPackage (some 6) = some 1 ∧ t.enclosingPackage (some 7) = none
      ∧ t.isStatic (some 6) ∧ ¬ t.isStatic (some 8)
      ∧ (t.decls (some 3)).Pairwise (· < ·) ∧ 6 ∈ t.decls (some 3) ∧ 8 ∉ t.decls (some 3)
      ∧ t.objectClass (some 8) = some 9 := by
  intro t
  have hgrounded : new.isGrounded nestedObjects := by decide
  obtain ⟨-, hdecls, hobjects, -, hnames, hchains⟩ :=
    foldl_enter_consistent (List.mem_cons_self ..) hgrounded
  have hinner : t.OwnerChain (some 6) [6, 3, 1, 0] :=
    .step rfl (.step rfl (.step rfl (.step rfl (.stop rfl))))
  obtain ⟨ids, -, honly, -, hpackage, hstatic⟩ := hchains (some 6)
  obtain rfl := honly _ hinner
  obtain ⟨ids, -, honly, hname, -, -⟩ := hchains (some 8)
  obtain rfl := honly _ (.step rfl hinner)
  obtain ⟨c, hclass⟩ := hobjects 8 _ rfl rfl
  obtain ⟨ids, -, honly, -, hadrift, -⟩ := hchains (some 7)
  obtain rfl := honly [7] (.step rfl (.stop rfl))
  refine ⟨hgrounded, by decide +kernel, hname, hnames 7 _ rfl (by decide), hpackage, hadrift,
    hstatic.2 ⟨[3], 1, [0], rfl, by decide, rfl⟩, by decide +kernel, (hdecls 3).1,
    ((hdecls 3).2 6).2 rfl, fun h => ?_, hclass.objectClass⟩
  cases ((hdecls 3).2 8).1 h

end SymbolTable

end Interop
