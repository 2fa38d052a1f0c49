import Interop.Proofs.Forwarders
import Interop.Proofs.Nesting
import Interop.Proofs.Splicing
import Mathlib.Data.List.Nodup

/-!
# Bodies and the forwarders for them

    bodies t    the symbols of the bodies in t
    called t    the forwarders for the methods in t, each with the owner of its method
    outgoing t  those of them whose body is not in t

A tree is `Tidy` if no two of its bodies have one symbol, and each method whose forwarders go to a
body in the tree stands in that body.  Then so are the parts of a node, and no part calls for
forwarders in the bodies of another:

    outgoing t  =  what the node and its parts send out, but what is for the node itself
-/

namespace Interop

/-- The symbol of a body. -/
def Tree.bodyOf? (t : Tree) : Option SymbolId := if t.node.isTemplate then t.symbol else none

namespace Pass

variable (env : Env) (a : Annotations)

/-! ## Algorithm -/

/-- The symbols of the bodies outside type tokens. -/
def bodies (t : Tree) : List SymbolId := (env.live t).filterMap Tree.bodyOf?

/-- The forwarders for one method, with its owner. -/
def calls (t : Tree) : List (SymbolRef × Tree) :=
  if t.node.isDefDef then (env.forwarders a t.symbol).map (env.table.owner t.symbol, ·) else []

/-- The forwarders for the methods outside type tokens, each with the owner of its method. -/
def called (t : Tree) : List (SymbolRef × Tree) := (env.live t).flatMap (calls env a)

/-- The forwarders for bodies that are not in the tree. -/
def outgoing (t : Tree) : List (SymbolRef × Tree) :=
  (called env a t).filter fun w => (bodies env t).all fun r => w.1 ≠ some r

/-- The forwarders for the methods of one owner. -/
def calledFor (t : Tree) (r : SymbolRef) : List Tree :=
  ((env.live t).filter fun d => d.node.isDefDef && env.table.owner d.symbol = r).flatMap
    fun d => env.forwarders a d.symbol

/-- Bodies are told apart by their symbols, and forwarders go to a body around their method, if they
go to one in the tree. -/
structure Tidy (t : Tree) : Prop where
  nodup : (bodies env t).Nodup
  owned : ∀ w ∈ called env a t, w.1 ≠ none
  inside : ∀ v ∈ env.nested (·.node.isTemplate) [] t, ∀ w ∈ calls env a v.1,
    ∀ r ∈ bodies env t, w.1 = some r → ∃ o ∈ v.2, o.symbol = some r

/-! ## Lemmas -/

variable {env a} {t c : Tree} {scope : Scope}

theorem isTemplate_of_isTypable (t : Tree) (ht : t.node.isTypable) : t.node.isTemplate = false := by
  cases hnode : t.node <;> simp [hnode, Node.isTypable, Node.isTemplate] at ht ⊢

theorem isDefDef_of_isTypable (t : Tree) (ht : t.node.isTypable) : t.node.isDefDef = false := by
  cases hnode : t.node <;> simp [hnode, Node.isTypable, Node.isDefDef] at ht ⊢

/-- A list made of nodes that the pass does not build is made of a node and its parts. -/
theorem flatMap_live_parts {α : Type} {f : Tree → List α} (hf : ∀ t, t.node.isTypable → f t = [])
    (t : Tree) (scope : Scope) : (env.live t).flatMap f
      = f t ++ (parts env t scope).flatMap fun c => (env.live c).flatMap f := by
  rw [Env.live_eq, List.flatMap_cons]
  cases htoken : env.isTypeToken t with
  | true =>
    rw [parts_of_typeToken (Rule.find?_eq_typeToken_iff.2 htoken)]
    rfl
  | false =>
    have hflat : ∀ u : Tree, u.node.isTypable →
        (env.live u).flatMap f = u.children.flatMap fun c => (env.live c).flatMap f := by
      intro u hu
      rw [Env.live_eq, isTypeToken_eq_false_of_isTypable hu, List.flatMap_cons, hf u hu,
        if_neg (by simp), List.nil_append, List.flatMap_assoc]
    rw [flatMap_parts hflat htoken, if_neg (by simp), List.flatMap_assoc]

theorem bodies_eq (env : Env) (t : Tree) (scope : Scope) :
    bodies env t = t.bodyOf?.toList ++ (parts env t scope).flatMap (bodies env) := by
  have hflat : ∀ u, bodies env u = (env.live u).flatMap fun u => u.bodyOf?.toList := fun u =>
    List.filterMap_eq_flatMap_toList _ _
  rw [hflat, flatMap_live_parts (fun u hu => ?_) t scope]
  · exact congrArg _ (List.flatMap_congr fun c _ => (hflat c).symm)
  · simp [Tree.bodyOf?, isTemplate_of_isTypable u hu]

theorem called_eq (env : Env) (a : Annotations) (t : Tree) (scope : Scope) :
    called env a t = calls env a t ++ (parts env t scope).flatMap (called env a) :=
  flatMap_live_parts (fun u hu => by simp [calls, isDefDef_of_isTypable u hu]) t scope

/-- The forwarders for a body are those called for under its symbol. -/
theorem calledFor_eq (env : Env) (a : Annotations) (t : Tree) (r : SymbolRef) :
    calledFor env a t r = ((called env a t).filter (·.1 = r)).map (·.2) := by
  unfold calledFor called
  rw [List.filter_flatMap, List.map_flatMap]
  induction env.live t with
  | nil => rfl
  | cons d ds ih =>
    rw [List.filter_cons, List.flatMap_cons, ← ih]
    unfold calls
    by_cases hdef : d.node.isDefDef
    · by_cases howner : env.table.owner d.symbol = r
      · simp [hdef, howner, List.filter_map, Function.comp_def]
      · simp [hdef, howner, List.filter_map, Function.comp_def]
    · simp [hdef]

theorem isDefDef_of_mem_calls {w : SymbolRef × Tree} (hw : w ∈ calls env a t) :
    t.node.isDefDef := by
  unfold calls at hw
  split at hw
  next h => exact h
  next => cases hw

theorem calls_of_isTemplate (ht : t.node.isTemplate) : calls env a t = [] := by
  unfold calls
  cases hnode : t.node <;> simp [hnode, Node.isTemplate, Node.isDefDef] at ht ⊢

theorem mem_bodies_of_mem_live {o : Tree} (ho : o ∈ env.live t) (hnode : o.node.isTemplate)
    {r : SymbolId} (hr : o.symbol = some r) : r ∈ bodies env t :=
  List.mem_filterMap.2 ⟨o, ho, by rw [Tree.bodyOf?, if_pos hnode, hr]⟩

theorem bodies_subset_of_mem_parts (hc : c ∈ parts env t scope) : bodies env c ⊆ bodies env t := by
  intro r hr
  rw [bodies_eq env t scope]
  exact List.mem_append_right _ (List.mem_flatMap.2 ⟨c, hc, hr⟩)

theorem called_subset_of_mem_parts (hc : c ∈ parts env t scope) :
    called env a c ⊆ called env a t := by
  intro w hw
  rw [called_eq env a t scope]
  exact List.mem_append_right _ (List.mem_flatMap.2 ⟨c, hc, hw⟩)

namespace Tidy

variable (h : Tidy env a t)

include h

/-- A node is not the body of what is in its parts. -/
theorem ne_symbol (ht : t.node.isTemplate) {r : SymbolId}
    (hr : r ∈ (parts env t scope).flatMap (bodies env)) : t.symbol ≠ some r := by
  intro hsymbol
  have hnodup := h.nodup
  rw [bodies_eq env t scope, Tree.bodyOf?, if_pos ht, hsymbol, List.nodup_append] at hnodup
  exact hnodup.2.2 r (.head _) r hr rfl

/-- The bodies around a method in a part are in the part, or the node is one. -/
theorem inside_part (hc : c ∈ parts env t scope) {v : Tree × List Tree}
    (hv : v ∈ env.nested (·.node.isTemplate) [] c) {w : SymbolRef × Tree}
    (hw : w ∈ calls env a v.1) {r : SymbolId}
    (hr : r ∈ (parts env t scope).flatMap (bodies env)) (hwr : w.1 = some r) :
    ∃ o ∈ v.2, o.symbol = some r := by
  have hmem := mem_nested_of_mem_parts isTemplate_of_isTypable isDefDef_of_isTypable hc hv
    (isDefDef_of_mem_calls hw)
  have hrt : r ∈ bodies env t := by
    rw [bodies_eq env t scope]
    exact List.mem_append_right _ hr
  obtain ⟨o, ho, hsymbol⟩ := h.inside _ hmem w hw r hrt hwr
  rcases List.mem_append.1 ho with ho | ho
  · exact ⟨o, ho, hsymbol⟩
  · split at ho
    next ht =>
      rw [List.mem_singleton.1 ho] at hsymbol
      exact absurd hsymbol (h.ne_symbol ht hr)
    next => cases ho

/-- **The parts of a tidy tree are tidy.** -/
theorem part (hc : c ∈ parts env t scope) : Tidy env a c where
  nodup := by
    have hnodup := h.nodup
    rw [bodies_eq env t scope, List.nodup_append] at hnodup
    exact (List.nodup_flatMap.1 hnodup.2.1).1 c hc
  owned w hw := h.owned w (called_subset_of_mem_parts hc hw)
  inside _ hv _ hw r hr hwr :=
    h.inside_part hc hv hw (List.mem_flatMap.2 ⟨c, hc, hr⟩) hwr

/-- No part calls for forwarders in a body of another. -/
theorem mem_bodies_of_mem_called (hc : c ∈ parts env t scope) {w : SymbolRef × Tree}
    (hw : w ∈ called env a c) {r : SymbolId} (hr : r ∈ (parts env t scope).flatMap (bodies env))
    (hwr : w.1 = some r) : r ∈ bodies env c := by
  obtain ⟨u, hu, hw⟩ := List.mem_flatMap.1 hw
  rw [← Env.map_fst_nested env (·.node.isTemplate) [] c] at hu
  obtain ⟨v, hv, rfl⟩ := List.mem_map.1 hu
  obtain ⟨o, ho, hsymbol⟩ := h.inside_part hc hv hw hr hwr
  obtain ⟨hnode, ho⟩ := (Env.of_mem_nested hv ho).resolve_left (by simp)
  exact mem_bodies_of_mem_live ho hnode hsymbol

/-- What a part sends out is not for another part. -/
theorem ne_of_mem_outgoing (hc : c ∈ parts env t scope) {w : SymbolRef × Tree}
    (hw : w ∈ outgoing env a c) {r : SymbolId}
    (hr : r ∈ (parts env t scope).flatMap (bodies env)) : w.1 ≠ some r := by
  obtain ⟨hw, hout⟩ := List.mem_filter.1 hw
  intro hwr
  have hrc := h.mem_bodies_of_mem_called hc hw hr hwr
  exact of_decide_eq_true (List.all_eq_true.1 hout r hrc) hwr

/-- What a node calls for is not for a body in the tree. -/
theorem ne_of_mem_calls {w : SymbolRef × Tree} (hw : w ∈ calls env a t) {r : SymbolId}
    (hr : r ∈ bodies env t) : w.1 ≠ some r := by
  intro hwr
  obtain ⟨o, ho, -⟩ := h.inside _ (Env.mem_nested_self env _ _ _) w hw r hr hwr
  cases ho

/-- **What a tree sends out.** -/
theorem outgoing_eq (scope : Scope) : outgoing env a t
    = (calls env a t ++ (parts env t scope).flatMap (outgoing env a)).filter
        fun w => t.bodyOf?.toList.all fun r => w.1 ≠ some r := by
  have hcalls : (calls env a t).filter
      (fun w => ((parts env t scope).flatMap (bodies env)).all fun r => w.1 ≠ some r)
        = calls env a t := by
    rw [List.filter_eq_self]
    intro w hw
    rw [List.all_eq_true]
    intro r hr
    refine decide_eq_true (h.ne_of_mem_calls hw ?_)
    rw [bodies_eq env t scope]
    exact List.mem_append_right _ hr
  have hparts : ((parts env t scope).flatMap (called env a)).filter
      (fun w => ((parts env t scope).flatMap (bodies env)).all fun r => w.1 ≠ some r)
        = (parts env t scope).flatMap (outgoing env a) := by
    rw [List.filter_flatMap]
    refine List.flatMap_congr fun c hc => List.filter_congr fun w hw => ?_
    rw [Bool.eq_iff_iff, List.all_eq_true, List.all_eq_true]
    constructor
    · intro hout r hr
      exact hout r (List.mem_flatMap.2 ⟨c, hc, hr⟩)
    · intro hout r hr
      refine decide_eq_true fun hwr => ?_
      exact of_decide_eq_true (hout r (h.mem_bodies_of_mem_called hc hw hr hwr)) hwr
  rw [outgoing, called_eq env a t scope, bodies_eq env t scope]
  simp only [List.all_append]
  rw [← List.filter_filter, List.filter_append, hcalls, hparts]

/-- A body in a part gets what it gets in the part. -/
theorem calledFor_part (hc : c ∈ parts env t scope) {r : SymbolId} (hr : r ∈ bodies env c) :
    calledFor env a t (some r) = calledFor env a c (some r) := by
  have hnodup := h.nodup
  rw [bodies_eq env t scope, List.nodup_append] at hnodup
  have hparts : r ∈ (parts env t scope).flatMap (bodies env) := List.mem_flatMap.2 ⟨c, hc, hr⟩
  have hcalls : (calls env a t).filter (·.1 = some r) = [] := by
    rw [List.filter_eq_nil_iff]
    intro w hw
    simpa using h.ne_of_mem_calls hw (bodies_subset_of_mem_parts hc hr)
  rw [calledFor_eq, calledFor_eq, called_eq env a t scope, List.filter_append, hcalls,
    List.nil_append, List.filter_flatMap, flatMap_eq_of_nodup hnodup.2.1 hc hr]
  intro d hd hne
  obtain ⟨w, hw⟩ := List.exists_mem_of_ne_nil _ hne
  obtain ⟨hw, hwr⟩ := List.mem_filter.1 hw
  exact h.mem_bodies_of_mem_called hd hw hparts (of_decide_eq_true hwr)

end Tidy

end Pass

end Interop
