import Interop.Proofs.Members

/-!
# Symbols and their owners

A compilation declares its symbols from the outside in: whatever it declares stands in a symbol that
is in the table already (`isOrderly`).  Then every symbol but the root package has an owner, which
is in the table too,

    isOrderly ds  →  get? id = some s,  id ≠ root  →  s.owner = some o,  o < size

and so is every symbol that a look-up finds by name.
-/

namespace Interop

namespace SymbolTable

/-! ## Algorithm -/

/-- The symbol is absent or in the table. -/
def knows (t : SymbolTable) (r : SymbolRef) : Bool := r.all (· < t.size)

/-- Each declaration stands in a symbol that is in the table when it is declared. -/
def isOrderly (t : SymbolTable) : List Declaration → Bool
  | [] => true
  | d :: ds => d.owner.any (· < t.size) && isOrderly (t.enter d) ds

/-- Every symbol but the root package has an owner in the table. -/
def Owned (t : SymbolTable) : Prop :=
  ∀ id s, t.get? (some id) = some s → id ≠ root → ∃ o < t.size, s.owner = some o

variable {t : SymbolTable}

/-! ## Symbols in the table -/

@[simp] theorem knows_none (t : SymbolTable) : t.knows none = true := rfl

@[simp] theorem knows_some {id : SymbolId} : t.knows (some id) ↔ id < t.size := by
  simp [knows]

theorem knows_push {r : SymbolRef} (h : t.knows r) (s : Symbol) : (t.push s).knows r := by
  cases r with
  | none => rfl
  | some o =>
    rw [knows_some] at h ⊢
    rw [size_push]
    exact Nat.lt_succ_of_lt h

theorem exists_get?_iff {id : SymbolId} : (∃ s, t.get? (some id) = some s) ↔ id < t.size := by
  constructor
  · rintro ⟨s, hs⟩
    exact lt_size_of_get?_eq_some hs
  · intro h
    obtain ⟨row, hrow⟩ : ∃ row, t.rows[id]? = some row := ⟨_, Array.getElem?_eq_getElem h⟩
    exact ⟨row.symbol, by simp [get?, hrow]⟩

theorem lt_size_of_isTermNamed {name : String} {id : SymbolId} (h : t.isTermNamed name id) :
    id < t.size := by
  unfold isTermNamed at h
  obtain ⟨s, hs, -⟩ := (Option.any_eq_true _ _).1 h
  exact lt_size_of_get?_eq_some hs

/-- What is found by name is a term of that name. -/
theorem isTermNamed_of_mem_membersNamed {owner : SymbolRef} {name : String} {id : SymbolId}
    (h : id ∈ t.membersNamed owner name) : t.isTermNamed name id := by
  obtain ⟨c, -, h⟩ := List.mem_flatMap.1 h
  exact (List.mem_filter.1 h).2

/-! ## Owners -/

theorem owner_of_mem_symbols {d : Declaration} {id : SymbolId} {s : Symbol}
    (h : s ∈ d.symbols id) : s.owner = d.owner := by
  obtain ⟨owner, name, what⟩ := d
  cases what with
  | object modifiers parents =>
    simp only [Declaration.symbols, List.mem_cons, List.not_mem_nil, or_false] at h
    rcases h with rfl | rfl
    · rfl
    · rfl
  | _ =>
    simp only [Declaration.symbols, List.mem_singleton] at h
    rw [h]

namespace Owned

theorem push (h : t.Owned) {s : Symbol} {o : SymbolId} (ho : s.owner = some o) (hlt : o < t.size) :
    (t.push s).Owned := by
  intro id s' hget hroot
  have hid : id < t.size + 1 := by
    rw [← size_push t s]
    exact lt_size_of_get?_eq_some hget
  rcases Nat.lt_succ_iff_lt_or_eq.1 hid with hold | rfl
  · rw [get?_push_of_lt t s hold] at hget
    obtain ⟨o', hlt', ho'⟩ := h id s' hget hroot
    exact ⟨o', by rw [size_push]; exact Nat.lt_succ_of_lt hlt', ho'⟩
  · rw [get?_push_size] at hget
    cases hget
    exact ⟨o, by rw [size_push]; exact Nat.lt_succ_of_lt hlt, ho⟩

theorem foldl_push (h : t.Owned) {ss : List Symbol} {o : SymbolId}
    (hss : ∀ s ∈ ss, s.owner = some o) (hlt : o < t.size) :
    (ss.foldl SymbolTable.push t).Owned := by
  refine (List.foldlRecOn (motive := fun t => t.Owned ∧ t.knows (some o)) ss SymbolTable.push
    ⟨h, knows_some.2 hlt⟩ fun t ht s hs => ?_).1
  exact ⟨ht.1.push (hss s hs) (knows_some.1 ht.2), knows_push ht.2 s⟩

theorem foldl_enter (h : t.Owned) {ds : List Declaration} (hds : t.isOrderly ds) :
    (ds.foldl enter t).Owned := by
  induction ds generalizing t with
  | nil => exact h
  | cons d ds ih =>
    rw [isOrderly, Bool.and_eq_true] at hds
    obtain ⟨o, ho, hlt⟩ := (Option.any_eq_true _ _).1 hds.1
    refine ih (h.foldl_push (fun s hs => ?_) (of_decide_eq_true hlt)) hds.2
    rw [owner_of_mem_symbols hs, ho]

end Owned

theorem owned_fresh : Library.fresh.2.Owned := by
  intro id s hget hroot
  have howners : ∀ id < Library.fresh.2.size, id ≠ root →
      (Library.fresh.2.owner (some id)).any (· < Library.fresh.2.size) := by
    decide +kernel
  have := howners id (lt_size_of_get?_eq_some hget) hroot
  unfold owner at this
  rw [hget, Option.bind_some] at this
  obtain ⟨o, ho, hlt⟩ := (Option.any_eq_true _ _).1 this
  exact ⟨o, of_decide_eq_true hlt, ho⟩

end SymbolTable

namespace Env

/-- The declarations stand in symbols that are declared before them. -/
def isOrderly (ds : List Declaration) : Bool := Library.fresh.2.isOrderly ds

theorem owned_declaring {ds : List Declaration} (hds : isOrderly ds) :
    (declaring ds).table.Owned :=
  SymbolTable.owned_fresh.foldl_enter hds

variable {env : Env}

/-- The well-known symbols are in the table. -/
theorem Installed.knows (henv : env.Installed) {id : SymbolId} (h : id < Library.fresh.2.size) :
    env.table.knows (some id) := by
  obtain ⟨s, hs⟩ := SymbolTable.exists_get?_iff.2 h
  exact SymbolTable.knows_some.2 (SymbolTable.lt_size_of_get?_eq_some
    ((henv.get?_eq id h).trans hs))

/-- **A constructor belongs to a class in the table.** -/
theorem exists_class_of_isConstructor (henv : env.Installed) (howned : env.table.Owned)
    {symbol : SymbolRef} {s : Symbol} (hget : env.table.get? symbol = some s)
    (hctor : s.isConstructor) : ∃ c, env.table.get? s.owner = some c := by
  cases symbol with
  | none => cases hget
  | some id =>
    have hroot : id ≠ SymbolTable.root := by
      rintro rfl
      rw [henv.get?_eq _ (by decide)] at hget
      cases hget
      cases hctor
    obtain ⟨o, hlt, ho⟩ := howned id s hget hroot
    rw [ho]
    exact SymbolTable.exists_get?_iff.2 hlt

end Env

end Interop
