import Mathlib.Data.List.Basic
import Mathlib.Logic.Relation
import Interop.Pool
import Interop.Proofs.Marking

/-!
# Scripts beside others

Between two accesses of a script others may change the annotations.  `ComesTo a m x ms` says that
the script comes to `x` and puts on the marks `ms`, whatever others do, as long as the annotations
ask for the same exports as `a` at each look.  Marks ask for no exports, so scripts of this kind
come to the same beside each other as alone (`Pool.run_eq`), and a pool mixes their marks:

    pool.run scripts b  =  (what each script comes to,  w on b)      w a merge of their marks

The pools leave out no way to mix the accesses of the scripts (`Pool.exists_run_eq`).
-/

namespace Interop

variable {α β : Type} {env : Env}

/-! ## One script -/

namespace Script

/-- The script comes to the value and puts on the marks, wherever the same exports are asked for as
in `a`. -/
inductive ComesTo (env : Env) (a : Annotations) : Script α → α → List (SymbolRef × Span) → Prop
  | done (x : α) : ComesTo env a (done x) x []
  | look {next : Annotations → Script α} {x : α} {ms : List (SymbolRef × Span)}
      (h : ∀ b, env.exportsOf b = env.exportsOf a → ComesTo env a (next b) x ms) :
      ComesTo env a (look next) x ms
  | mark {symbol : SymbolRef} {span : Span} {next : Unit → Script α} {x : α}
      {ms : List (SymbolRef × Span)} (h : ComesTo env a (next ()) x ms) :
      ComesTo env a (mark symbol (env.marker span) next) x ((symbol, span) :: ms)

namespace ComesTo

variable {a b : Annotations} {m : Script α} {f : α → Script β} {x : α} {y : β}
  {ms ns : List (SymbolRef × Span)}

theorem bind (hm : ComesTo env a m x ms) (hf : ComesTo env a (f x) y ns) :
    ComesTo env a (m >>= f) y (ms ++ ns) := by
  induction hm with
  | done x => exact hf
  | look _ ih => exact .look fun b hb => ih b hb hf
  | mark _ ih => exact .mark (ih hf)

/-- What is only worked out from the value puts on no further marks. -/
theorem bind_done (hm : ComesTo env a m x ms) (hf : f x = .done y) :
    ComesTo env a (m >>= f) y ms := by
  have hdone : ComesTo env a (f x) y [] := by
    rw [hf]
    exact .done y
  have h := hm.bind hdone
  rwa [List.append_nil] at h

/-- One access of a script. -/
theorem step (hm : ComesTo env a m x ms)
    (hb : env.exportsOf b = env.exportsOf a) :
    ∃ now later, ms = now ++ later ∧ (m.step b).2 = env.markAll now b
      ∧ ComesTo env a (m.step b).1 x later := by
  cases hm with
  | done => exact ⟨[], [], rfl, rfl, .done x⟩
  | look h => exact ⟨[], ms, rfl, rfl, h b hb⟩
  | mark h => exact ⟨[_], _, rfl, rfl, h⟩

/-- The whole script, with no one in between. -/
theorem run_eq (henv : env.Installed) (hm : ComesTo env a m x ms)
    (hb : env.exportsOf b = env.exportsOf a) : m.run b = (x, env.markAll ms b) := by
  induction hm generalizing b with
  | done => rfl
  | look _ ih => exact ih b hb hb
  | @mark symbol span _ _ _ _ ih =>
    exact ih ((Env.exportsOf_markAll henv [(symbol, span)] b).trans hb)

end ComesTo

end Script

/-! ## Merges -/

/-- The list has the elements of all the others, those of each in their order. -/
inductive Merge : List (List α) → List α → Prop
  | nil {xss : List (List α)} (h : ∀ xs ∈ xss, xs = []) : Merge xss []
  | cons {before after : List (List α)} {x : α} {xs ys : List α}
      (h : Merge (before ++ xs :: after) ys) : Merge (before ++ (x :: xs) :: after) (x :: ys)

namespace Merge

variable {xss before after : List (List α)} {xs ys zs : List α} {p : α → Bool}

/-- Several elements of one list. -/
theorem append (zs : List α) (h : Merge (before ++ xs :: after) ys) :
    Merge (before ++ (zs ++ xs) :: after) (zs ++ ys) := by
  induction zs with
  | nil => exact h
  | cons z zs ih => exact .cons ih

theorem flatten (xss : List (List α)) : Merge xss xss.flatten := by
  suffices h : ∀ before, (∀ xs ∈ before, xs = []) → Merge (before ++ xss) xss.flatten from
    h [] fun _ h => nomatch h
  induction xss with
  | nil =>
    intro before hbefore
    rw [List.append_nil]
    exact .nil hbefore
  | cons xs xss ih =>
    intro before hbefore
    have hrest := ih (before ++ [[]]) fun ys hys => by
      rcases List.mem_append.1 hys with hys | hys
      · exact hbefore ys hys
      · exact List.mem_singleton.1 hys
    rw [List.append_assoc, List.singleton_append] at hrest
    have happend := append xs hrest
    rwa [List.append_nil] at happend

theorem mem_iff (h : Merge xss ys) {x : α} : x ∈ ys ↔ ∃ xs ∈ xss, x ∈ xs := by
  induction h with
  | nil hnil =>
    refine iff_of_false List.not_mem_nil ?_
    rintro ⟨xs, hxs, hx⟩
    rw [hnil xs hxs] at hx
    cases hx
  | cons h ih =>
    rw [List.mem_cons, ih]
    simp only [List.mem_append, List.mem_cons, or_and_right, exists_or, exists_eq_left]
    rw [or_left_comm, or_assoc]

/-- If only one of the lists has elements of a kind, these are in its order. -/
theorem find?_eq (h : Merge xss ys)
    (hone : xss.Pairwise fun xs ys => (∀ x ∈ xs, p x = false) ∨ ∀ y ∈ ys, p y = false) :
    ys.find? p = xss.flatten.find? p := by
  induction h with
  | nil hnil =>
    rw [eq_comm, List.find?_nil, List.find?_eq_none]
    intro x hx
    obtain ⟨xs, hxs, hx⟩ := List.mem_flatten.1 hx
    rw [hnil xs hxs] at hx
    cases hx
  | @cons before after x xs ys h ih =>
    have hsub : ∀ {q : List α → Prop}, (∀ y ∈ x :: xs, p y = false) → ∀ y ∈ xs, p y = false :=
      fun h y hy => h y (.tail _ hy)
    rw [List.pairwise_append, List.pairwise_cons] at hone
    obtain ⟨hbefore, ⟨hhead, hafter⟩, hacross⟩ := hone
    cases hx : p x with
    | true =>
      -- No list but the one that `x` is from has an element of the kind.
      have hnone : before.flatten.find? p = none := by
        rw [List.find?_eq_none]
        intro y hy
        obtain ⟨zs, hzs, hy⟩ := List.mem_flatten.1 hy
        rcases hacross zs hzs _ (.head _) with hall | hall
        · simp [hall y hy]
        · simp [hall x (.head _)] at hx
      rw [List.find?_cons_of_pos hx, List.flatten_append, List.find?_append, hnone,
        Option.none_or, List.flatten_cons, List.cons_append, List.find?_cons_of_pos hx]
    | false =>
      have hrest := ih (List.pairwise_append.2 ⟨hbefore, List.pairwise_cons.2
        ⟨fun zs hzs => (hhead zs hzs).imp_left fun h y hy => h y (.tail _ hy), hafter⟩,
        fun zs hzs ws hws => by
          rcases List.mem_cons.1 hws with rfl | hws
          · exact (hacross zs hzs _ (.head _)).imp_right fun h y hy => h y (.tail _ hy)
          · exact hacross zs hzs ws (.tail _ hws)⟩)
      rw [List.find?_cons_of_neg (by simp [hx]), hrest]
      simp only [List.flatten_append, List.flatten_cons, List.find?_append, List.cons_append]
      rw [List.find?_cons_of_neg (by simp [hx])]
      simp [List.find?_append]

end Merge

/-! ## Scripts on a pool -/

/-- One of the scripts makes its next access. -/
inductive Pool.Access : List (Script α) × Annotations → List (Script α) × Annotations → Prop
  | step (before : List (Script α)) (script : Script α) (after : List (Script α))
      (a : Annotations) :
      Access (before ++ script :: after, a)
        (before ++ (script.step a).1 :: after, (script.step a).2)

/-- A script of which it is known what it comes to and which marks it puts on. -/
structure Foreseen (env : Env) (a : Annotations) (α : Type) where
  script : Script α
  value : α
  marks : List (SymbolRef × Span)
  comesTo : script.ComesTo env a value marks

namespace Pool

variable {a b : Annotations}

theorem finish_map_done (xs : List α) (a : Annotations) :
    finish (xs.map Script.done) a = (xs, a) := by
  induction xs with
  | nil => rfl
  | cons x xs ih => simp [finish, Script.run, ih]

/-- A first turn is an access. -/
theorem run_cons_turn (before : List (Script α)) (script : Script α) (after : List (Script α))
    (turns : List Nat) (a : Annotations) :
    run ⟨before.length :: turns⟩ (before ++ script :: after) a
      = run ⟨turns⟩ (before ++ (script.step a).1 :: after) (script.step a).2 := by
  unfold run
  simp [takeTurns]

/-- **Every mix of accesses is one of a pool.**  If the scripts get through by any accesses, in any
order, then some pool comes to the same. -/
theorem exists_run_eq {scripts : List (Script α)} {xs : List α}
    (h : Relation.ReflTransGen Access (scripts, a) (xs.map Script.done, b)) :
    ∃ pool : Pool, pool.run scripts a = (xs, b) := by
  generalize hs : (scripts, a) = s at h
  induction h using Relation.ReflTransGen.head_induction_on generalizing scripts a with
  | refl =>
    cases hs
    exact ⟨⟨[]⟩, finish_map_done xs b⟩
  | head hstep _ ih =>
    subst hs
    cases hstep with
    | step before script after =>
      obtain ⟨⟨turns⟩, hrun⟩ := ih rfl
      exact ⟨⟨before.length :: turns⟩, (run_cons_turn before script after turns a).trans hrun⟩

/-- **What turns leave.**  The values are still the same, and the marks put on so far belong in
front of any merge of those to come. -/
theorem takeTurns_eq (henv : env.Installed) (turns : List Nat) (fs : List (Foreseen env a α))
    (hb : env.exportsOf b = env.exportsOf a) :
    ∃ (ms : List (SymbolRef × Span)) (rest : List (Foreseen env a α)),
      takeTurns turns (fs.map (·.script)) b = (rest.map (·.script), env.markAll ms b)
        ∧ rest.map (·.value) = fs.map (·.value)
        ∧ ∀ ns, Merge (rest.map (·.marks)) ns → Merge (fs.map (·.marks)) (ms ++ ns) := by
  induction turns generalizing fs b with
  | nil => exact ⟨[], fs, rfl, rfl, fun _ h => h⟩
  | cons turn turns ih =>
    unfold takeTurns
    rw [List.getElem?_map]
    cases hturn : fs[turn]? with
    | none => exact ih fs hb
    | some f =>
      obtain ⟨hlt, rfl⟩ := List.getElem?_eq_some_iff.1 hturn
      obtain ⟨now, later, hmarks, hstep, hlater⟩ := fs[turn].comesTo.step hb
      obtain ⟨before, after, hfs, -, hset⟩ :=
        @List.exists_of_set _ turn (⟨_, _, _, hlater⟩ : Foreseen env a α) fs hlt
      obtain ⟨ms, rest, hrun, hvalue, hmerge⟩ := ih (fs.set turn ⟨_, _, _, hlater⟩)
        ((Env.exportsOf_markAll henv now b).trans hb)
      refine ⟨now ++ ms, rest, ?_, ?_, fun ns hns => ?_⟩
      · rw [Env.markAll_append, ← hrun, List.map_set, ← hstep]
        rfl
      · rw [hvalue, hset]
        nth_rewrite 3 [hfs]
        simp
      · have hrest := hmerge ns hns
        rw [hset, List.map_append, List.map_cons] at hrest
        rw [hfs, List.map_append, List.map_cons, hmarks, List.append_assoc]
        exact hrest.append now

theorem finish_eq (henv : env.Installed) (fs : List (Foreseen env a α))
    (hb : env.exportsOf b = env.exportsOf a) :
    finish (fs.map (·.script)) b
      = (fs.map (·.value), env.markAll (fs.map (·.marks)).flatten b) := by
  induction fs generalizing b with
  | nil => rfl
  | cons f fs ih =>
    rw [List.map_cons, finish, f.comesTo.run_eq henv hb]
    simp only
    rw [ih ((Env.exportsOf_markAll henv f.marks b).trans hb), ← Env.markAll_append]
    rfl

/-- **Scripts on a pool come to what they come to alone**, and their marks are mixed. -/
theorem run_eq (henv : env.Installed) (pool : Pool) (fs : List (Foreseen env a α))
    (hb : env.exportsOf b = env.exportsOf a) :
    ∃ ms, Merge (fs.map (·.marks)) ms
      ∧ pool.run (fs.map (·.script)) b = (fs.map (·.value), env.markAll ms b) := by
  obtain ⟨ms, rest, hturns, hvalue, hmerge⟩ := takeTurns_eq henv pool.turns fs hb
  refine ⟨ms ++ (rest.map (·.marks)).flatten, hmerge _ (Merge.flatten _), ?_⟩
  unfold run
  rw [hturns]
  simp only
  rw [finish_eq henv rest ((Env.exportsOf_markAll henv ms b).trans hb), hvalue, Env.markAll_append]

end Pool

end Interop
