import Interop.SymbolTable.Types

/-!
# Ancestors

The classes behind the declared parents of a class are its parent classes, and what is reached
through them are its ancestors.  Parents may form any graph: a class met before is passed over, so
the search ends on cycles too.
-/

namespace Interop.SymbolTable

/-- The classes behind the declared parents, in order. -/
def parentClasses (t : SymbolTable) (id : SymbolId) : List SymbolId :=
  match t.get? (some id) with
  | none => []
  | some s => s.parents.filterMap t.typeSymbol

/-- Visit what is pending, depth first and each symbol once; `unseen` is what may still be
visited. -/
def visit (next : SymbolId → List SymbolId) (unseen pending : List SymbolId) : List SymbolId :=
  match _h : pending.find? unseen.contains with
  | none => []
  | some id => id :: visit next (unseen.erase id) (next id ++ pending)
termination_by unseen.length
decreasing_by
  have hmem : id ∈ unseen := List.contains_iff_mem.mp (List.find?_some _h)
  have hlen := List.length_erase_of_mem hmem
  have hpos := List.length_pos_of_mem hmem
  omega

section

variable {next : SymbolId → List SymbolId} {unseen pending pending' : List SymbolId} {id : SymbolId}

theorem visit_nil : visit next unseen [] = [] := by
  rw [visit]
  split
  next => rfl
  next h => cases h

/-- Of what is pending, only what was not visited yet matters. -/
theorem visit_congr (h : pending.filter unseen.contains = pending'.filter unseen.contains) :
    visit next unseen pending = visit next unseen pending' := by
  have hfind : pending.find? unseen.contains = pending'.find? unseen.contains := by
    rw [← List.head?_filter, h, List.head?_filter]
  fun_induction visit next unseen pending generalizing pending' with
  | case1 unseen pending hnone =>
    rw [visit]
    split
    next => rfl
    next id hid =>
      rw [← hfind, hnone] at hid
      cases hid
  | case2 unseen pending id hid ih =>
    have hrest : (next id ++ pending).filter (unseen.erase id).contains
        = (next id ++ pending').filter (unseen.erase id).contains := by
      have hsub : ∀ l : List SymbolId, (l.filter unseen.contains).filter (unseen.erase id).contains
          = l.filter (unseen.erase id).contains := by
        intro l
        rw [List.filter_filter]
        refine List.filter_congr fun c _ => ?_
        rw [Bool.eq_iff_iff, Bool.and_eq_true, and_iff_left_iff_imp, List.contains_iff_mem,
          List.contains_iff_mem]
        exact List.mem_of_mem_erase
      rw [List.filter_append, List.filter_append, ← hsub pending, h, hsub]
    rw [visit.eq_def next unseen pending']
    split
    next hnone =>
      rw [← hfind, hid] at hnone
      cases hnone
    next id' hid' =>
      obtain rfl : id = id' := Option.some.inj (hid.symm.trans (hfind.trans hid'))
      rw [ih hrest (by rw [← List.head?_filter, hrest, List.head?_filter])]

/-- What was visited before is passed over. -/
theorem visit_cons_of_not_mem (h : id ∉ unseen) :
    visit next unseen (id :: pending) = visit next unseen pending :=
  visit_congr (by simp [h])

/-- What was not is visited, and what is next to it goes first. -/
theorem visit_cons_of_mem (hunseen : unseen.Nodup) (h : id ∈ unseen) :
    visit next unseen (id :: pending) = id :: visit next (unseen.erase id) (next id ++ pending) := by
  have hfind : (id :: pending).find? unseen.contains = some id :=
    List.find?_cons_of_pos (List.contains_iff_mem.2 h)
  rw [visit]
  split
  next hnone =>
    rw [hfind] at hnone
    cases hnone
  next id' hid' =>
    obtain rfl : id = id' := Option.some.inj (hfind.symm.trans hid')
    refine congrArg _ (visit_congr ?_)
    simp [hunseen.not_mem_erase]

end

/-- A class and its ancestors in the table: itself first, then the ancestors through its first
parent, and so on. -/
def lineage (t : SymbolTable) (id : SymbolId) : List SymbolId :=
  visit t.parentClasses (List.range t.size) [id]

theorem lineage_of_lt {t : SymbolTable} {id : SymbolId} (h : id < t.size) : t.lineage id
    = id :: visit t.parentClasses ((List.range t.size).erase id) (t.parentClasses id) := by
  unfold lineage
  rw [visit_cons_of_mem List.nodup_range (List.mem_range.2 h), List.append_nil]

theorem lineage_of_not_lt {t : SymbolTable} {id : SymbolId} (h : ¬ id < t.size) :
    t.lineage id = [] := by
  unfold lineage
  rw [visit_cons_of_not_mem (mt List.mem_range.1 h), visit_nil]

/-- `base` is `sub` or an ancestor of it.  A symbol outside the table has no parents, but may be
one. -/
def isSubclass (t : SymbolTable) : SymbolRef → SymbolRef → Bool
  | some sub, some base =>
    sub = base || (t.lineage sub).any fun c => (t.parentClasses c).contains base
  | _, _ => false

/-- Values of the type are instances of the class `base`. -/
def derivesFrom (t : SymbolTable) (ty : Ty) (base : SymbolRef) : Bool :=
  t.isSubclass (t.typeSymbol ty) base

/-- The symbol is a term called `name`. -/
def isTermNamed (t : SymbolTable) (name : String) (id : SymbolId) : Bool :=
  (t.get? (some id)).any fun s => s.name = name && s.kind.isTerm

/-- The terms called `name` that are declared in `owner` or in an ancestor of it, the nearest
first. -/
def membersNamed (t : SymbolTable) (owner : SymbolRef) (name : String) : List SymbolId :=
  (owner.elim [] t.lineage).flatMap fun c => (t.decls (some c)).filter (t.isTermNamed name)

end Interop.SymbolTable
