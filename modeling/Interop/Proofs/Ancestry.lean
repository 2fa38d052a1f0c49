import Mathlib.Data.List.Nodup
import Mathlib.Logic.Relation
import Interop.Proofs.Members

/-!
# Ancestors and members

The search for ancestors finds whatever is reached from a class through parents, each once, however
the parents are connected:

    c ∈ lineage id  ↔  c is in the table, and id leads to c by parents

So looking a name up in a class comes to the terms of that name declared in the class or in an
ancestor (`IsMember`), and as no symbol is listed twice it comes to one symbol exactly if there is
one such term (`membersNamed_eq_singleton_iff`).
-/

namespace Interop

namespace SymbolTable

open Relation (ReflTransGen)

/-! ## Algorithm -/

/-- The second class is behind a declared parent of the first. -/
def IsParent (t : SymbolTable) (c p : SymbolId) : Prop := p ∈ t.parentClasses c

/-- A term called `name`, declared in `owner` or in an ancestor of it. -/
def IsMember (t : SymbolTable) (owner : SymbolRef) (name : String) (id : SymbolId) : Prop :=
  ∃ sub base, owner = some sub ∧ ReflTransGen t.IsParent sub base
    ∧ id ∈ t.decls (some base) ∧ t.isTermNamed name id

/-- What is declared in a symbol is listed in the order in which it was numbered. -/
structure Numbered (t : SymbolTable) : Prop where
  lt_size : ∀ r, ∀ id ∈ t.decls r, id < t.size
  pairwise_lt : ∀ r, (t.decls r).Pairwise (· < ·)

/-! ## The search -/

section

variable {next : SymbolId → List SymbolId} {unseen pending : List SymbolId} {c p : SymbolId}

theorem mem_unseen_of_mem_visit (hc : c ∈ visit next unseen pending) : c ∈ unseen := by
  fun_induction visit next unseen pending with
  | case1 => cases hc
  | case2 unseen pending id hid ih =>
    rcases List.mem_cons.1 hc with rfl | hc
    · exact List.contains_iff_mem.1 (List.find?_some hid)
    · exact List.mem_of_mem_erase (ih hc)

/-- The search finds what is pending. -/
theorem mem_visit_of_mem_pending (hc : c ∈ pending) (hunseen : c ∈ unseen) :
    c ∈ visit next unseen pending := by
  fun_induction visit next unseen pending with
  | case1 unseen pending hnone =>
    have hnot := List.find?_eq_none.1 hnone c hc
    exact absurd (List.contains_iff_mem.2 hunseen) hnot
  | case2 unseen pending id hid ih =>
    by_cases hcid : c = id
    · rw [hcid]
      exact .head _
    · exact .tail _ (ih (List.mem_append_right _ hc) ((List.mem_erase_of_ne hcid).2 hunseen))

/-- The search finds what comes next to what it finds. -/
theorem mem_visit_of_mem_next (hc : c ∈ visit next unseen pending) (hp : p ∈ next c)
    (hunseen : p ∈ unseen) : p ∈ visit next unseen pending := by
  fun_induction visit next unseen pending with
  | case1 => cases hc
  | case2 unseen pending id hid ih =>
    by_cases hpid : p = id
    · rw [hpid]
      exact .head _
    · have hrest := (List.mem_erase_of_ne hpid).2 hunseen
      rcases List.mem_cons.1 hc with rfl | hc
      · exact .tail _ (mem_visit_of_mem_pending (List.mem_append_left _ hp) hrest)
      · exact .tail _ (ih hc hrest)

/-- The search finds nothing twice. -/
theorem nodup_visit (hunseen : unseen.Nodup) : (visit next unseen pending).Nodup := by
  fun_induction visit next unseen pending with
  | case1 => exact List.nodup_nil
  | case2 unseen pending id hid ih =>
    refine List.nodup_cons.2 ⟨fun hmem => ?_, ih (hunseen.erase id)⟩
    exact hunseen.not_mem_erase (mem_unseen_of_mem_visit hmem)

/-- The search goes on for no longer than something is unseen. -/
theorem length_visit_le : (visit next unseen pending).length ≤ unseen.length := by
  fun_induction visit next unseen pending with
  | case1 => exact Nat.zero_le _
  | case2 unseen pending id hid ih =>
    have hmem : id ∈ unseen := List.contains_iff_mem.1 (List.find?_some hid)
    have hpos := List.length_pos_of_mem hmem
    rw [List.length_erase_of_mem hmem] at ih
    rw [List.length_cons]
    omega

end

variable {t : SymbolTable} {sub base id : SymbolId} {owner : SymbolRef} {name : String}

theorem lt_size_of_isParent (h : t.IsParent sub base) : sub < t.size := by
  unfold IsParent parentClasses at h
  split at h
  next => cases h
  next s hs => exact lt_size_of_get?_eq_some hs

/-- **The lineage of a class** is what it leads to in the table. -/
theorem mem_lineage_iff :
    base ∈ t.lineage sub ↔ base < t.size ∧ ReflTransGen t.IsParent sub base := by
  constructor
  · intro h
    refine ⟨List.mem_range.1 (mem_unseen_of_mem_visit h), ?_⟩
    refine mem_of_mem_visit (fun c hc p hp => hc.tail hp) _ _ (fun c hc => ?_) h
    rw [List.mem_singleton.1 hc]
  · rintro ⟨hlt, hreach⟩
    induction hreach with
    | refl => exact mem_visit_of_mem_pending (.head _) (List.mem_range.2 hlt)
    | tail _ hparent ih =>
      have hbelow := ih (lt_size_of_isParent hparent)
      exact mem_visit_of_mem_next hbelow hparent (List.mem_range.2 hlt)

theorem nodup_lineage (t : SymbolTable) (id : SymbolId) : (t.lineage id).Nodup :=
  nodup_visit List.nodup_range

theorem length_lineage_le (t : SymbolTable) (id : SymbolId) :
    (t.lineage id).length ≤ t.size := by
  have hle : (t.lineage id).length ≤ (List.range t.size).length := length_visit_le
  rwa [List.length_range] at hle

/-- Descent is reached through parents, in and outside the table. -/
theorem isSubclass_iff :
    t.isSubclass (some sub) (some base) ↔ ReflTransGen t.IsParent sub base := by
  unfold isSubclass
  simp only [Bool.or_eq_true, decide_eq_true_eq, List.any_eq_true, List.contains_iff_mem]
  constructor
  · rintro (rfl | ⟨c, hc, hbase⟩)
    · exact .refl
    · exact (mem_lineage_iff.1 hc).2.tail hbase
  · intro h
    rcases Relation.ReflTransGen.cases_tail h with rfl | ⟨c, hc, hbase⟩
    · exact .inl rfl
    · exact .inr ⟨c, mem_lineage_iff.2 ⟨lt_size_of_isParent hbase, hc⟩, hbase⟩

theorem exists_of_isSubclass {a b : SymbolRef} (h : t.isSubclass a b) :
    ∃ sub base, a = some sub ∧ b = some base := by
  cases a with
  | none => cases h
  | some sub =>
    cases b with
    | none => cases h
    | some base => exact ⟨sub, base, rfl, rfl⟩

/-- Descent is reached through parents, so it is transitive. -/
theorem isSubclass_trans {a b c : SymbolRef} (hab : t.isSubclass a b) (hbc : t.isSubclass b c) :
    t.isSubclass a c := by
  obtain ⟨a, b, rfl, rfl⟩ := exists_of_isSubclass hab
  obtain ⟨_, c, ⟨⟩, rfl⟩ := exists_of_isSubclass hbc
  exact isSubclass_iff.2 ((isSubclass_iff.1 hab).trans (isSubclass_iff.1 hbc))

/-! ## Members -/

/-- **What a look-up by name finds.** -/
theorem mem_membersNamed_iff : id ∈ t.membersNamed owner name ↔ t.IsMember owner name id := by
  unfold membersNamed IsMember
  simp only [List.mem_flatMap, List.mem_filter]
  cases owner with
  | none => simp
  | some sub =>
    constructor
    · rintro ⟨base, hbase, hdecl, hnamed⟩
      exact ⟨sub, base, rfl, (mem_lineage_iff.1 hbase).2, hdecl, hnamed⟩
    · rintro ⟨_, base, ⟨⟩, hreach, hdecl, hnamed⟩
      exact ⟨base, mem_lineage_iff.2 ⟨lt_size_of_mem_decls hdecl, hreach⟩, hdecl, hnamed⟩

namespace Numbered

theorem push (h : t.Numbered) (s : Symbol) : (t.push s).Numbered := by
  have hlt : ∀ r, ∀ id ∈ t.decls r, id < (t.push s).size := fun r id hid => by
    rw [size_push]
    exact Nat.lt_succ_of_lt (h.lt_size r id hid)
  refine ⟨fun r id hid => ?_, fun r => ?_⟩
  · rcases decls_push t s r with heq | ⟨-, heq⟩
    · rw [heq] at hid
      exact hlt r id hid
    · rw [heq, List.mem_append, List.mem_singleton] at hid
      rcases hid with hid | rfl
      · exact hlt r id hid
      · rw [size_push]
        exact Nat.lt_succ_self t.size
  · rcases decls_push t s r with heq | ⟨-, heq⟩
    · rw [heq]
      exact h.pairwise_lt r
    · rw [heq, List.pairwise_append]
      refine ⟨h.pairwise_lt r, List.pairwise_singleton _ _, fun id hid new hnew => ?_⟩
      rw [List.mem_singleton.1 hnew]
      exact h.lt_size r id hid

theorem foldl_enter (h : t.Numbered) (ds : List Declaration) : (ds.foldl enter t).Numbered := by
  refine List.foldlRecOn ds enter h fun t ht d _ => ?_
  exact List.foldlRecOn (d.symbols t.size) SymbolTable.push ht fun _ ht s _ => ht.push s

end Numbered

theorem Listed.numbered (h : t.Listed) : t.Numbered where
  lt_size
    | none, _, hid => nomatch hid
    | some o, id, hid => by
      rw [h o, List.mem_filter] at hid
      exact List.mem_range.1 hid.1
  pairwise_lt
    | none => .nil
    | some o => by
      rw [h o]
      exact List.pairwise_lt_range.filter _

/-- Nothing is found twice. -/
theorem nodup_membersNamed (howner : ∀ r, ∀ id ∈ t.decls r, t.owner (some id) = r)
    (hnumbered : t.Numbered) (owner : SymbolRef) (name : String) :
    (t.membersNamed owner name).Nodup := by
  cases owner with
  | none => exact List.nodup_nil
  | some sub =>
    refine List.nodup_flatMap.2 ⟨fun c _ => ?_, (nodup_lineage t sub).imp fun {c c'} hne => ?_⟩
    · refine List.Nodup.filter _ ((hnumbered.pairwise_lt (some c)).imp fun hlt => ?_)
      exact Nat.ne_of_lt hlt
    · -- a symbol is listed with its owner only
      intro id hid hid'
      have hsame := howner _ id (List.mem_filter.1 hid).1
      rw [howner _ id (List.mem_filter.1 hid').1] at hsame
      exact hne (Option.some.inj hsame).symm

/-- **A name is found once** exactly if there is one term of that name. -/
theorem membersNamed_eq_singleton_iff (hfiled : t.Filed) (hnumbered : t.Numbered) :
    t.membersNamed owner name = [id]
      ↔ t.IsMember owner name id ∧ ∀ id', t.IsMember owner name id' → id' = id := by
  simp only [← mem_membersNamed_iff]
  constructor
  · intro h
    rw [h]
    exact ⟨.head _, fun id' hid' => List.mem_singleton.1 hid'⟩
  · rintro ⟨hmem, honly⟩
    have hnodup := nodup_membersNamed hfiled.owner_eq hnumbered owner name
    rw [← List.perm_singleton]
    refine (List.perm_ext_iff_of_nodup hnodup (List.nodup_singleton id)).2 fun id' => ?_
    rw [List.mem_singleton]
    exact ⟨honly id', fun h => h ▸ hmem⟩

end SymbolTable

theorem Env.numbered_declaring (ds : List Declaration) : (declaring ds).table.Numbered :=
  SymbolTable.listed_fresh.numbered.foldl_enter ds

end Interop
