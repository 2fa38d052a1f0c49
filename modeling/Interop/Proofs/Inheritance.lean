import Mathlib.Data.List.Chain
import Interop.Proofs.Ancestry
import Interop.Proofs.Ownership

/-!
# Inheritance

One class descends from another if declared parents lead from the first to the second, in a table
with any parents at all (`isSubclass_iff_path`).  A table that is filled from the outside in, so
that whatever is declared stands nowhere or in a symbol that is there already (`isGrounded`), lists
with each symbol what is declared in it, in the order of the numbers (`Listed`):

    decls o  =  those of 0 … size - 1 whose owner is o

Looking up a name in a class of such a table finds each term of that name that is declared in the
class or in an ancestor once, and those of the class itself first (`membersNamed_inherited`).
-/

namespace Interop

namespace SymbolTable

open Relation (ReflTransGen)

/-! ## Algorithm -/

/-- Each declaration stands nowhere or in a symbol that is in the table when it is declared. -/
def isGrounded (t : SymbolTable) : List Declaration → Bool
  | [] => true
  | d :: ds => t.knows d.owner && isGrounded (t.enter d) ds

variable {t : SymbolTable}

/-! ## Descent -/

theorem isParent_iff {c p : SymbolId} :
    t.IsParent c p ↔ ∃ s, t.get? (some c) = some s ∧ some p ∈ s.parents.map t.typeSymbol := by
  unfold IsParent parentClasses
  cases t.get? (some c) with
  | none => simp
  | some s => simp [List.mem_filterMap]

/-- **Descent is a path of declared parents.**  Whatever the parents are, the search visits each
symbol of the table at most once, and one class descends from another exactly if a path leads there,
each class on it being the class of a declared parent of the one before.  So a class descends from
itself, and from what an ancestor of it descends from. -/
theorem isSubclass_iff_path (t : SymbolTable) :
    (∀ sub base, t.isSubclass sub base ↔ ∃ path : List SymbolId, path ≠ []
        ∧ path.head? = sub ∧ path.getLast? = base
        ∧ path.IsChain fun c p =>
            ∃ s, t.get? (some c) = some s ∧ some p ∈ s.parents.map t.typeSymbol)
      ∧ (∀ id, t.isSubclass (some id) (some id))
      ∧ (∀ a b c, t.isSubclass a b → t.isSubclass b c → t.isSubclass a c)
      ∧ ∀ id, (t.lineage id).Nodup ∧ (t.lineage id).length ≤ t.size := by
  refine ⟨fun sub base => ⟨fun h => ?_, ?_⟩, fun id => isSubclass_iff.2 .refl,
    fun a b c => isSubclass_trans, fun id => ⟨nodup_lineage t id, length_lineage_le t id⟩⟩
  · obtain ⟨sub, base, rfl, rfl⟩ := exists_of_isSubclass h
    obtain ⟨path, hne, hchain, hhead, hlast⟩ :=
      List.exists_isChain_ne_nil_of_relationReflTransGen (isSubclass_iff.1 h)
    refine ⟨path, hne, ?_, ?_, hchain.imp fun c p => isParent_iff.1⟩
    · rw [List.head?_eq_some_head hne, hhead]
    · rw [List.getLast?_eq_some_getLast hne, hlast]
  · rintro ⟨path, hne, rfl, rfl, hchain⟩
    rw [List.head?_eq_some_head hne, List.getLast?_eq_some_getLast hne]
    exact isSubclass_iff.2 (List.relationReflTransGen_of_exists_isChain path
      (hchain.imp fun c p => isParent_iff.2) hne)

/-- A class and its parent, which is named by an alias and has for parents the class itself, a
symbol that is not in the table, an alias of nothing, and an object, whose class is its own
parent. -/
def circle : List Declaration :=
  [⟨some root, "Up", .typeAlias (.instanceOf (some 3))⟩,
    ⟨some root, "Lower", .classDef false [] [.aliased (some 1)]⟩,
    ⟨some root, "Upper", .classDef false []
      [.instanceOf (some 2), .instanceOf (some 9), .aliased none, .singleton (some 4)]⟩,
    ⟨some root, "Top", .object [] [.instanceOf (some 5)]⟩]

/-- Descent goes through the alias, round the circle and out of the table. -/
theorem isSubclass_iff_path_circle :
    let t := circle.foldl enter new
    t.isSubclass (some 2) (some 9) ∧ t.isSubclass (some 3) (some 9) ∧ t.isSubclass (some 9) (some 9)
      ∧ t.isSubclass (some 2) (some 5) ∧ ¬ t.isSubclass (some 5) (some 2)
      ∧ ¬ t.isSubclass (some 2) none := by
  intro t
  have hup : ∃ s, t.get? (some 2) = some s ∧ some 3 ∈ s.parents.map t.typeSymbol :=
    ⟨_, rfl, by decide⟩
  have hdown : ∃ s, t.get? (some 3) = some s ∧ some 2 ∈ s.parents.map t.typeSymbol :=
    ⟨_, rfl, by decide⟩
  have hout : ∃ s, t.get? (some 3) = some s ∧ some 9 ∈ s.parents.map t.typeSymbol :=
    ⟨_, rfl, by decide⟩
  obtain ⟨hpath, hself, htrans, -⟩ := isSubclass_iff_path t
  have hround : t.isSubclass (some 2) (some 9) := by
    refine (hpath _ _).2 ⟨[2, 3, 2, 3, 9], by decide, rfl, rfl, ?_⟩
    exact .cons_cons hup (.cons_cons hdown (.cons_cons hup (.cons_cons hout (.singleton 9))))
  have hback : t.isSubclass (some 3) (some 2) :=
    (hpath _ _).2 ⟨[3, 2], by decide, rfl, rfl, .cons_cons hdown (.singleton 2)⟩
  exact ⟨hround, htrans _ _ _ hback hround, hself 9, by decide +kernel, by decide +kernel,
    by decide +kernel⟩

/-! ## Lists of declarations -/

theorem decls_push_of_owner {s : Symbol} {o : SymbolId} (ho : s.owner = some o) (hlt : o < t.size) :
    (t.push s).decls (some o) = t.decls (some o) ++ [t.size] := by
  unfold size at hlt
  unfold push decls size
  simp [ho, Array.getElem?_modify, Array.getElem?_push, Nat.ne_of_lt hlt, hlt]

namespace Listed

theorem push (h : t.Listed) {s : Symbol} (hs : t.knows s.owner) : (t.push s).Listed := by
  intro o
  have hold : (List.range t.size).filter (fun id => (t.push s).owner (some id) = some o)
      = t.decls (some o) := by
    rw [h o]
    refine List.filter_congr fun id hid => ?_
    unfold owner
    rw [get?_push_of_lt t s (List.mem_range.1 hid)]
  have hnew : (t.push s).owner (some t.size) = s.owner := by
    unfold owner
    rw [get?_push_size]
    rfl
  rw [size_push, List.range_succ, List.filter_append, hold]
  by_cases ho : s.owner = some o
  · rw [ho, knows_some] at hs
    rw [decls_push_of_owner ho hs]
    simp [hnew, ho]
  · rcases decls_push t s (some o) with heq | ⟨howner, -⟩
    · rw [heq]
      simp [hnew, ho]
    · exact absurd howner ho

theorem foldl_push (h : t.Listed) {ss : List Symbol} {r : SymbolRef}
    (hss : ∀ s ∈ ss, s.owner = r) (hr : t.knows r) : (ss.foldl SymbolTable.push t).Listed := by
  refine (List.foldlRecOn (motive := fun t => t.Listed ∧ t.knows r) ss SymbolTable.push
    ⟨h, hr⟩ fun t ht s hs => ?_).1
  have howner : t.knows s.owner := by
    rw [hss s hs]
    exact ht.2
  exact ⟨ht.1.push howner, knows_push ht.2 s⟩

theorem foldl_enter (h : t.Listed) {ds : List Declaration} (hds : t.isGrounded ds) :
    (ds.foldl enter t).Listed := by
  induction ds generalizing t with
  | nil => exact h
  | cons d ds ih =>
    rw [isGrounded, Bool.and_eq_true] at hds
    exact ih (h.foldl_push (fun s hs => owner_of_mem_symbols hs) hds.1) hds.2

end Listed

theorem listed_new : new.Listed := by
  intro o
  have hnone : new.decls (some o) = [] := by
    cases o <;> simp [decls, new]
  rw [hnone]
  rfl

/-! ## Members -/

theorem isTermNamed_iff {name : String} {id : SymbolId} : t.isTermNamed name id
    ↔ ∃ s, t.get? (some id) = some s ∧ s.name = name ∧ s.kind ∈ [.object, .method, .value] := by
  have hterm : ∀ k : SymbolKind, k.isTerm ↔ k ∈ [.object, .method, .value] := fun k => by
    cases k <;> decide
  simp only [isTermNamed, Option.any_eq_true, Bool.and_eq_true, decide_eq_true_eq, hterm]

/-- **What is declared in the class itself is found first**, in the order of the numbers. -/
theorem exists_membersNamed_eq_append (h : t.Listed) (sub : SymbolId) (name : String) :
    ∃ inherited, t.membersNamed (some sub) name
      = (List.range t.size).filter (fun id => t.owner (some id) = some sub ∧ t.isTermNamed name id)
        ++ inherited := by
  have hown : (List.range t.size).filter
        (fun id => t.owner (some id) = some sub ∧ t.isTermNamed name id)
      = (t.decls (some sub)).filter (t.isTermNamed name) := by
    rw [h sub, List.filter_filter]
    refine List.filter_congr fun id _ => ?_
    rw [Bool.decide_and, Bool.decide_eq_true, Bool.and_comm]
  rw [hown]
  unfold membersNamed
  by_cases hlt : sub < t.size
  · rw [Option.elim_some, lineage_of_lt hlt, List.flatMap_cons]
    exact ⟨_, rfl⟩
  · refine ⟨[], ?_⟩
    rw [Option.elim_some, lineage_of_not_lt hlt, decls_of_not_lt hlt]
    rfl

/-- **Every member is found once.**  In a table that starts with the root package or with the
libraries and is filled from the outside in, whatever the parents are, looking a name up visits each
symbol of the table at most once and finds nothing twice.  It finds the objects, methods and values
of that name whose owner is the class or one to which declared parents lead from it, and those of the
class itself come first, in the order in which they were declared. -/
theorem membersNamed_inherited {base : SymbolTable} (hbase : base ∈ [new, Library.fresh.2])
    {ds : List Declaration} (hds : base.isGrounded ds) (owner : SymbolRef) (name : String) :
    let t := ds.foldl enter base
    (t.membersNamed owner name).Nodup
      ∧ (∀ id, id ∈ t.membersNamed owner name ↔ ∃ s sub c, t.get? (some id) = some s
          ∧ s.name = name ∧ s.kind ∈ [.object, .method, .value] ∧ s.owner = some c
          ∧ owner = some sub ∧ ReflTransGen t.IsParent sub c)
      ∧ (∀ sub, owner = some sub → ∃ inherited, t.membersNamed owner name
          = (List.range t.size).filter
              (fun id => t.owner (some id) = some sub ∧ t.isTermNamed name id)
            ++ inherited)
      ∧ ∀ sub, (t.lineage sub).length ≤ t.size := by
  intro t
  have hlisted : t.Listed := by
    refine Listed.foldl_enter ?_ hds
    rcases List.mem_pair.1 hbase with rfl | rfl
    · exact listed_new
    · exact listed_fresh
  refine ⟨nodup_membersNamed hlisted.owner_eq hlisted.numbered owner name, fun id => ?_, ?_,
    length_lineage_le t⟩
  · rw [mem_membersNamed_iff]
    unfold IsMember
    simp only [hlisted.mem_decls_iff, isTermNamed_iff]
    constructor
    · rintro ⟨sub, c, rfl, hreach, howner, s, hs, hname, hkind⟩
      unfold SymbolTable.owner at howner
      rw [hs] at howner
      exact ⟨s, sub, c, hs, hname, hkind, howner, rfl, hreach⟩
    · rintro ⟨s, sub, c, hs, hname, hkind, howner, rfl, hreach⟩
      refine ⟨sub, c, rfl, hreach, ?_, s, hs, hname, hkind⟩
      unfold SymbolTable.owner
      rw [hs]
      exact howner
  · rintro sub rfl
    exact exists_membersNamed_eq_append hlisted sub name

/-- Two classes with a common parent and a common heir, which is the parent of that parent.  All but
one declare something called `f`: a method, a value, and a method, an alias and an object. -/
def diamond : List Declaration :=
  let method (owner : SymbolId) : Declaration := ⟨some owner, "f", .method [] [] .unit⟩
  [⟨some root, "A", .classDef false [] [.instanceOf (some 4)]⟩,
    ⟨some root, "B", .classDef false [] [.instanceOf (some 1)]⟩,
    ⟨some root, "C", .classDef false [] [.instanceOf (some 1)]⟩,
    ⟨some root, "D", .classDef false [] [.instanceOf (some 2), .instanceOf (some 3)]⟩,
    method 1, ⟨some 2, "f", .value [] .int⟩, method 4, ⟨some 4, "f", .typeAlias .int⟩,
    ⟨some 4, "f", .object [] []⟩, ⟨none, "f", .value [] .int⟩]

/-- The heir finds its own method and object, and each of the other two once. -/
theorem membersNamed_inherited_diamond :
    let t := diamond.foldl enter new
    new.isGrounded diamond ∧ t.membersNamed (some 4) "f" = [7, 9, 6, 5]
      ∧ (t.membersNamed (some 3) "f").Nodup ∧ 9 ∈ t.membersNamed (some 3) "f"
      ∧ ∃ inherited, t.membersNamed (some 2) "f" = 6 :: inherited := by
  intro t
  have hgrounded : new.isGrounded diamond := by decide
  obtain ⟨hnodup, hmem, -, -⟩ := membersNamed_inherited (List.mem_cons_self ..) hgrounded (some 3) "f"
  obtain ⟨-, -, hown, -⟩ := membersNamed_inherited (List.mem_cons_self ..) hgrounded (some 2) "f"
  refine ⟨hgrounded, by decide +kernel, hnodup, (hmem 9).2 ?_, hown 2 rfl⟩
  refine ⟨_, 3, 4, rfl, rfl, by decide, rfl, rfl, ?_⟩
  have hup : t.IsParent 3 1 := isParent_iff.2 ⟨_, rfl, by decide⟩
  have hheir : t.IsParent 1 4 := isParent_iff.2 ⟨_, rfl, by decide⟩
  exact .head hup (.single hheir)

end SymbolTable

end Interop
