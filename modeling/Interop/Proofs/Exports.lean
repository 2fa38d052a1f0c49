import Interop.Export

/-!
# What exports come to

The members that show the methods of a class are forwarders, and whatever is reported about an
export has a code of that group.  Annotations count only through the exports they ask for, so
lists that ask for the same exports come to the same.
-/

namespace Interop

def IsForwarder (t : Tree) : Prop := ∃ jsName kind, t.node = .forwarder jsName kind

namespace Env

variable {env : Env} {a : Annotations} {symbol : SymbolRef}

theorem exists_of_mem_mapM {α β : Type} {f : α → Option β} {as : List α} {bs : List β}
    (h : as.mapM f = some bs) {b : β} (hb : b ∈ bs) : ∃ a ∈ as, f a = some b := by
  induction as generalizing bs with
  | nil =>
    cases h
    cases hb
  | cons a as ih =>
    rw [List.mapM_cons] at h
    obtain ⟨b', hb', h⟩ := Option.bind_eq_some_iff.1 h
    obtain ⟨bs', hbs', h⟩ := Option.bind_eq_some_iff.1 h
    cases h
    rcases List.mem_cons.1 hb with rfl | hb
    · exact ⟨a, .head _, hb'⟩
    · obtain ⟨a', ha', h⟩ := ih hbs' hb
      exact ⟨a', .tail _ ha', h⟩

/-! ## Codes -/

theorem isExport_of_methodProblem? {s : Symbol} {p : Diagnostic.Problem}
    (h : env.methodProblem? s = some p) : p.code.isExport := by
  unfold methodProblem? at h
  grind [Diagnostic.Code.isExport]

theorem isExport_of_classProblem? {c : Symbol} {p : Diagnostic.Problem}
    (h : env.classProblem? c = some p) : p.code.isExport := by
  unfold classProblem? at h
  grind [Diagnostic.Code.isExport]

theorem isExport_of_objectProblem? {o : Symbol} {p : Diagnostic.Problem}
    (h : env.objectProblem? o = some p) : p.code.isExport := by
  unfold objectProblem? at h
  grind [Diagnostic.Code.isExport]

theorem exportMember?_eq_some {s : Symbol} {e : Export} {r : List Tree × Report}
    (h : env.exportMember? symbol s e = some r) :
    (∀ f ∈ r.1, IsForwarder f) ∧ ∀ d ∈ r.2, d.code.isExport := by
  unfold exportMember? at h
  split at h
  next =>
    cases h
    refine ⟨by simp, fun d hd => ?_⟩
    rw [List.mem_singleton.1 hd]
    rfl
  next =>
    split at h
    next =>
      obtain ⟨c, -, h⟩ := Option.bind_eq_some_iff.1 h
      cases h
      refine ⟨by simp, fun d hd => ?_⟩
      obtain ⟨p, hp, rfl⟩ := List.mem_map.1 hd
      exact isExport_of_classProblem? (Option.mem_toList.1 hp)
    next =>
      cases h
      refine ⟨fun f hf => ?_, by simp⟩
      rw [List.mem_singleton.1 hf]
      exact ⟨_, _, rfl⟩

/-- Methods are shown by forwarders. -/
theorem exportMembers?_eq_some {r : List Tree × Report} (h : env.exportMembers? a symbol = some r) :
    (∀ f ∈ r.1, IsForwarder f) ∧ ∀ d ∈ r.2, d.code.isExport := by
  unfold exportMembers? at h
  split at h
  next s first rest _ _ =>
    split at h
    next =>
      cases h
      simp
    next =>
      split at h
      next problem hproblem =>
        cases h
        refine ⟨by simp, fun d hd => ?_⟩
        rw [List.mem_singleton.1 hd]
        exact isExport_of_methodProblem? hproblem
      next =>
        obtain ⟨parts, hparts, h⟩ := Option.bind_eq_some_iff.1 h
        cases h
        constructor
        · intro f hf
          obtain ⟨part, hpart, hf⟩ := List.mem_flatMap.1 hf
          obtain ⟨e, -, he⟩ := exists_of_mem_mapM hparts hpart
          exact (exportMember?_eq_some he).1 f hf
        · intro d hd
          obtain ⟨part, hpart, hd⟩ := List.mem_flatMap.1 hd
          obtain ⟨e, -, he⟩ := exists_of_mem_mapM hparts hpart
          exact (exportMember?_eq_some he).2 d hd
  next =>
    cases h
    simp

theorem isExport_of_mem_localProblems {d : Diagnostic} (h : d ∈ env.localProblems a symbol) :
    d.code.isExport := by
  unfold localProblems at h
  split at h
  next => cases h
  next s _ =>
    simp only at h
    split at h
    next => cases h
    next =>
      obtain ⟨_, -, rfl⟩ := List.mem_map.1 h
      rfl

theorem isExport_of_mem_objectProblems {d : Diagnostic} (h : d ∈ env.objectProblems a symbol) :
    d.code.isExport := by
  unfold objectProblems at h
  split at h
  next => cases h
  next problem hproblem =>
    obtain ⟨_, -, rfl⟩ := List.mem_map.1 h
    obtain ⟨s, -, hs⟩ := Option.bind_eq_some_iff.1 hproblem
    exact isExport_of_objectProblem? hs

/-! ## The same exports -/

variable {b : Annotations}

theorem exportMembers?_congr (h : env.exportsOf a = env.exportsOf b) (symbol : SymbolRef) :
    env.exportMembers? a symbol = env.exportMembers? b symbol := by
  unfold exportMembers?
  rw [h]

theorem localProblems_congr (h : env.exportsOf a = env.exportsOf b) (symbol : SymbolRef) :
    env.localProblems a symbol = env.localProblems b symbol := by
  unfold localProblems
  rw [h]

theorem objectProblems_congr (h : env.exportsOf a = env.exportsOf b) (symbol : SymbolRef) :
    env.objectProblems a symbol = env.objectProblems b symbol := by
  unfold objectProblems
  rw [h]

end Env

end Interop
