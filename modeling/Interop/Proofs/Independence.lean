import Interop.Batch
import Interop.Proofs.Log

/-!
# Units do not depend on each other

The units of a batch share their annotations, which each of them reads for exports and puts marks
into.  Marks ask for no exports, so each unit comes to what it comes to alone, in every order and on
every pool:

    prepareAll units a pool  =  (what each unit comes to on a,  w on a)

where `w` has the marks of all units, those of each in their order.  Of two marks for one class the
first stays, so it counts who comes first only for the place of a mark for a class that two units
declare.
-/

namespace Interop

/-! ## First marks in another order -/

namespace Env

variable {env : Env} {α : Type} {f : α → List (SymbolRef × Span)} {as bs : List α} {r : SymbolRef}

/-- Where no two elements have marks for the class, the first mark does not depend on their
order. -/
theorem firstMark_flatMap_of_perm (hperm : as.Perm bs)
    (h : as.Pairwise fun a b => env.firstMark (f a) r = none ∨ env.firstMark (f b) r = none) :
    env.firstMark (as.flatMap f) r = env.firstMark (bs.flatMap f) r := by
  induction hperm with
  | nil => rfl
  | cons a _ ih =>
    rw [List.flatMap_cons, List.flatMap_cons, firstMark_append, firstMark_append,
      ih (List.pairwise_cons.1 h).2]
  | swap a b as =>
    have hab := (List.pairwise_cons.1 h).1 a (.head _)
    simp only [List.flatMap_cons, firstMark_append]
    rcases hab with hb | ha
    · rw [hb, Option.none_or, Option.none_or]
    · rw [ha, Option.none_or, Option.none_or]
  | trans hab _ ihab ihbc =>
    have hsymm : ∀ a b, (env.firstMark (f a) r = none ∨ env.firstMark (f b) r = none) →
        env.firstMark (f b) r = none ∨ env.firstMark (f a) r = none := fun _ _ => Or.symm
    exact (ihab h).trans (ihbc ((hab.pairwise_iff (hsymm _ _)).1 h))

/-- Where only one of the lists has marks for the class, the first mark of a merge is the first one
of that list. -/
theorem firstMark_of_merge {mss : List (List (SymbolRef × Span))} {ms : List (SymbolRef × Span)}
    (h : Merge mss ms)
    (hone : mss.Pairwise fun ms ns => env.firstMark ms r = none ∨ env.firstMark ns r = none) :
    env.firstMark ms r = env.firstMark mss.flatten r := by
  unfold firstMark
  rw [h.find?_eq (hone.imp fun {ms ns} h => ?_)]
  simpa only [firstMark_eq_none_iff, decide_eq_false_iff_not] using h

end Env

namespace Batch

variable {env : Env} {options : Options} {settings : Settings} {a b : Annotations}
  {units : List Source} {ms : Source → List (SymbolRef × Span)}

/-- The classes that a unit declares; for an object this is the class behind it. -/
def declaredClasses (env : Env) (unit : Source) : List SymbolId :=
  (Pass.declarations env unit.tree).filterMap fun d => env.table.typeSymbolOf d.symbol

/-! ## One unit -/

/-- A unit comes to what it comes to alone, whatever marks others put on in between, and puts its own
on classes that it declares. -/
theorem exists_comesTo (henv : env.Installed) (options : Options) (a : Annotations)
    (unit : Source) :
    ∃ ms, (∀ m ∈ ms, ∀ id, m.1 = some id → id ∈ declaredClasses env unit)
      ∧ (preparingOne env options unit).ComesTo env a (prepareOne env options unit a).1 ms := by
  obtain ⟨result, done, w, hstart, -, hcomes⟩ :=
    Pass.writes_transform henv options a unit.tree .root []
  obtain ⟨x, hx⟩ : ∃ x, (preparing env options unit.tree).ComesTo env a x (Pass.marks done) :=
    ⟨_, (hcomes []).bind_done rfl⟩
  obtain ⟨y, hy⟩ : ∃ y, (preparingOne env options unit).ComesTo env a y (Pass.marks done) :=
    ⟨_, hx.bind_done rfl⟩
  refine ⟨Pass.marks done, fun m hm id hid => ?_, ?_⟩
  · have hmem : m ∈ Pass.marks (Pass.log env options a unit.tree .root) := by
      unfold Pass.marks at hm ⊢
      exact (hstart.filterMap _).subset hm
    obtain ⟨d, hd, rfl⟩ := Pass.mem_declarations_of_mem_marks hmem
    exact List.mem_filterMap.2 ⟨d, hd, hid⟩
  · unfold prepareOne
    rwa [hy.run_eq henv rfl]

/-! ## All units -/

section

variable (henv : env.Installed)
  (hms : ∀ u, (preparingOne env options u).ComesTo env a (prepareOne env options u a).1 (ms u))

include henv hms

theorem prepareInOrder_eq (units : List Source) (hb : env.exportsOf b = env.exportsOf a) :
    (prepareInOrder env options units b).1 = units.mapM (fun u => (prepareOne env options u a).1)
      ∧ ((∀ u ∈ units, (prepareOne env options u a).1.isOk) →
        (prepareInOrder env options units b).2 = env.markAll (units.map ms).flatten b) := by
  induction units generalizing b with
  | nil => exact ⟨rfl, fun _ => rfl⟩
  | cons u units ih =>
    have hu : prepareOne env options u b
        = ((prepareOne env options u a).1, env.markAll (ms u) b) := (hms u).run_eq henv hb
    obtain ⟨hrest, hmarks⟩ := ih ((Env.exportsOf_markAll henv (ms u) b).trans hb)
    unfold prepareInOrder
    rw [hu, List.mapM_cons]
    cases hone : (prepareOne env options u a).1 with
    | error stop =>
      refine ⟨rfl, fun hok => ?_⟩
      have hok := hok u (.head _)
      rw [hone] at hok
      cases hok
    | ok outcome =>
      refine ⟨?_, fun hok => ?_⟩
      · simp only
        rw [hrest]
        rfl
      · rw [List.map_cons, List.flatten_cons, Env.markAll_append]
        exact hmarks fun v hv => hok v (.tail _ hv)

/-- **What a pool comes to**: whatever turns it gives, the outcomes of the units alone and a merge of
their marks. -/
theorem prepareOnPool_eq (pool : Pool) (units : List Source) :
    ∃ w, Merge (units.map ms) w ∧ prepareOnPool env options pool units a
      = (units.mapM (fun u => (prepareOne env options u a).1), env.markAll w a) := by
  let foreseen : Source → Foreseen env a (Except Stop Outcome) := fun u => ⟨_, _, _, hms u⟩
  obtain ⟨w, hmerge, hrun⟩ := pool.run_eq henv (units.map foreseen) rfl
  rw [List.map_map] at hmerge hrun
  refine ⟨w, hmerge, ?_⟩
  unfold prepareOnPool
  have hscripts : units.map (preparingOne env options)
      = units.map ((fun f => f.script) ∘ foreseen) := rfl
  rw [hscripts, hrun, List.map_map]
  simp only [List.mapM_map]
  rfl

end

/-- **What a batch comes to**, with or without a pool. -/
theorem prepareAll_eq (henv : env.Installed) (settings : Settings)
    (hms : ∀ u, (preparingOne env settings.options u).ComesTo env a
      (prepareOne env settings.options u a).1 (ms u))
    (units : List Source) (pool? : Option Pool) :
    (prepareAll env settings units a pool?).1
        = units.mapM (fun u => (prepareOne env settings.options u a).1)
      ∧ ((∀ u ∈ units, (prepareOne env settings.options u a).1.isOk) →
        ∃ w, Merge (units.map ms) w
          ∧ (prepareAll env settings units a pool?).2 = env.markAll w a) := by
  have horder : (prepareInOrder env settings.options units a).1
        = units.mapM (fun u => (prepareOne env settings.options u a).1)
      ∧ ((∀ u ∈ units, (prepareOne env settings.options u a).1.isOk) →
        ∃ w, Merge (units.map ms) w
          ∧ (prepareInOrder env settings.options units a).2 = env.markAll w a) :=
    (prepareInOrder_eq henv hms units rfl).imp_right fun hmarks hok =>
      ⟨(units.map ms).flatten, Merge.flatten _, hmarks hok⟩
  unfold prepareAll
  cases pool? with
  | none => exact horder
  | some pool =>
    simp only
    split
    next =>
      obtain ⟨w, hmerge, hrun⟩ := prepareOnPool_eq henv hms pool units
      rw [hrun]
      exact ⟨rfl, fun _ => ⟨w, hmerge, rfl⟩⟩
    next => exact horder

theorem isOk_mapM_iff {α β ε : Type} {f : α → Except ε β} {as : List α} :
    (as.mapM f).isOk ↔ ∀ a ∈ as, (f a).isOk := by
  induction as with
  | nil => simp [Except.isOk, Except.toBool, pure, Except.pure]
  | cons a as ih =>
    rw [List.mapM_cons, List.forall_mem_cons, ← ih]
    cases f a with
    | error e => simp [bind, Except.bind, Except.isOk, Except.toBool]
    | ok b =>
      cases as.mapM f <;>
        simp [bind, Except.bind, Except.isOk, Except.toBool, pure, Except.pure]

/-- A batch breaks off only if one of its units does so alone. -/
theorem isOk_prepareAll_iff (henv : env.Installed) {pool? : Option Pool} :
    (prepareAll env settings units a pool?).1.isOk
      ↔ ∀ u ∈ units, (prepareOne env settings.options u a).1.isOk := by
  choose ms _ hms using fun u => exists_comesTo henv settings.options a u
  rw [(prepareAll_eq henv settings hms units pool?).1, isOk_mapM_iff]

/-- Of units with no class in common only one has marks for a class. -/
theorem pairwise_firstMark {r : SymbolRef} (hr : r ≠ none)
    (hdeclared : ∀ u, ∀ m ∈ ms u, ∀ id, m.1 = some id → id ∈ declaredClasses env u)
    (hdisjoint : units.Pairwise fun u v => ∀ id ∈ declaredClasses env u,
      id ∉ declaredClasses env v) :
    units.Pairwise fun u v =>
      env.firstMark (ms u) r = none ∨ env.firstMark (ms v) r = none := by
  refine hdisjoint.imp fun {u v} huv => ?_
  by_contra hmarked
  obtain ⟨hu, hv⟩ := not_or.1 hmarked
  rw [Env.firstMark_eq_none_iff] at hu hv
  push Not at hu hv
  obtain ⟨m, hm, rfl⟩ := hu
  obtain ⟨n, hn, hnm⟩ := hv
  obtain ⟨id, hid⟩ := Option.ne_none_iff_exists'.1 hr
  exact huv id (hdeclared u m hm id hid) (hdeclared v n hn id (hnm.trans hid))

/-! ## Top theorem -/

/-- **Units do not influence each other.**  A batch gets through if each unit does alone.  Then each
outcome is that of its unit alone, in every order of the units and whatever turns a pool gives them.
The same classes have the marker in the end, and where no two units declare a class together all
annotations are the same. -/
theorem prepareAll_independent (ds : List Declaration) (settings : Settings) (units : List Source)
    (a : Annotations) (pool? : Option Pool) :
    ((prepareAll (.declaring ds) settings units a pool?).1.isOk
        ↔ ∀ u ∈ units, (prepareOne (.declaring ds) settings.options u a).1.isOk)
      ∧ ∀ alone : Source → Outcome,
        (∀ u ∈ units, (prepareOne (.declaring ds) settings.options u a).1 = .ok (alone u)) →
        ∀ (units' : List Source) (parallel : Bool) (pool?' : Option Pool), units'.Perm units →
          (prepareAll (.declaring ds) { settings with parallel } units' a pool?').1
            = .ok (units'.map alone)
          ∧ (∀ r, (prepareAll (.declaring ds) { settings with parallel } units' a pool?').2.has r
                (some (Env.declaring ds).lib.rawJSType)
              = (prepareAll (.declaring ds) settings units a pool?).2.has r
                (some (Env.declaring ds).lib.rawJSType))
          ∧ ((units.Pairwise fun u v => ∀ id ∈ declaredClasses (.declaring ds) u,
                id ∉ declaredClasses (.declaring ds) v) →
              ∀ r, (prepareAll (.declaring ds) { settings with parallel } units' a pool?').2.of r
                = (prepareAll (.declaring ds) settings units a pool?).2.of r) := by
  have henv := Env.installed_declaring ds
  choose ms hdeclared hms using fun u => exists_comesTo henv settings.options a u
  refine ⟨isOk_prepareAll_iff henv, fun alone h units' parallel pool?' hperm => ?_⟩
  have hisOk : ∀ u ∈ units, (prepareOne (.declaring ds) settings.options u a).1.isOk :=
    fun u hu => by rw [h u hu]; rfl
  obtain ⟨-, hmarks⟩ := prepareAll_eq henv settings hms units pool?
  obtain ⟨hresult', hmarks'⟩ :=
    prepareAll_eq henv { settings with parallel } hms units' pool?'
  obtain ⟨w, hmerge, hw⟩ := hmarks hisOk
  obtain ⟨w', hmerge', hw'⟩ := hmarks' fun u hu => hisOk u (hperm.subset hu)
  rw [hw, hw', hresult']
  refine ⟨mapM_eq_ok_iff.2 (List.forall₂_map_right_iff.2 (List.forall₂_same.2
    fun u hu => h u (hperm.subset hu))), fun r => ?_, fun hdisjoint r => ?_⟩
  · rw [Bool.eq_iff_iff, Env.has_markAll, Env.has_markAll]
    simp only [hmerge.mem_iff, hmerge'.mem_iff, List.mem_map, hperm.mem_iff]
  · rw [Env.of_markAll, Env.of_markAll]
    congr 1
    split
    next hlacks =>
      have hr : r ≠ none := by
        rintro rfl
        cases hlacks
      have hone := pairwise_firstMark hr hdeclared hdisjoint
      have hsymm : ∀ u v : Source,
          ((Env.declaring ds).firstMark (ms u) r = none
            ∨ (Env.declaring ds).firstMark (ms v) r = none) →
          ((Env.declaring ds).firstMark (ms v) r = none
            ∨ (Env.declaring ds).firstMark (ms u) r = none) := fun _ _ => Or.symm
      have hone' := (hperm.pairwise_iff (hsymm _ _)).2 hone
      rw [Env.firstMark_of_merge hmerge (List.pairwise_map.2 hone),
        Env.firstMark_of_merge hmerge' (List.pairwise_map.2 hone'),
        ← List.flatMap_def, ← List.flatMap_def, Env.firstMark_flatMap_of_perm hperm.symm hone]
    next => rfl

/-- A trait and an object that extend the marker type, and a dynamic value. -/
def shapes : List Declaration :=
  [⟨some SymbolTable.root, "app", .package⟩,
   ⟨some 29, "Shape", .classDef true [] [Library.classTy Library.fresh.1.jsAny]⟩,
   ⟨some 29, "Canvas", .object [] [Library.classTy Library.fresh.1.jsObject]⟩,
   ⟨some 29, "d", .value [] (Library.classTy Library.fresh.1.jsDynamic)⟩]

/-- A unit that declares the trait. -/
def shapeUnit : Source where
  name := "shape"
  tree :=
    { node := .classDef { node := .template [] [], span := ⟨6, 8⟩, symbol := some 30 }
      span := ⟨0, 8⟩, symbol := some 30 }

/-- A unit that declares the object and then breaks off, as `d.x(())` does not fit its place. -/
def canvasUnit : Source where
  name := "canvas"
  tree :=
    let object : Tree :=
      { node := .objectDef { node := .template [] [], span := ⟨6, 8⟩, symbol := some 32 }
        span := ⟨0, 8⟩, symbol := some 31 }
    let d : Tree :=
      { node := .ident "d", span := ⟨10, 11⟩, symbol := some 33
        ty := Library.classTy Library.fresh.1.jsDynamic }
    let call : Tree :=
      { node := .apply { node := .select d "x", span := ⟨10, 13⟩ }
          [{ node := .literal .unit, span := ⟨14, 16⟩, ty := .unit }]
        span := ⟨10, 17⟩, ty := .str }
    { node := .packageDef [object, call], span := ⟨0, 17⟩, symbol := some 29 }

/-- What a unit of `shapes` comes to alone. -/
def aloneInShapes (u : Source) : Outcome :=
  (prepareOne (.declaring shapes) {} u (.blank 34)).1.toOption.getD ⟨u.name, none, []⟩

/-- The pool lets the second unit go first.  The unit that breaks off leaves its mark all the same, as
it does where the units come one after the other and the other way round. -/
theorem prepareAll_shapes :
    (prepareAll (.declaring shapes) {} [canvasUnit, shapeUnit] (.blank 34) (some ⟨[1, 0, 1]⟩)).1
        = .ok [aloneInShapes canvasUnit, aloneInShapes shapeUnit]
      ∧ (prepareAll (.declaring shapes) {} [canvasUnit, shapeUnit] (.blank 34)
          (some ⟨[1, 0, 1]⟩)).2.of (some 32)
        = [{ symbol := some Library.fresh.1.rawJSType, span := ⟨0, 8⟩ }]
      ∧ (prepareAll (.declaring shapes) {} [canvasUnit, shapeUnit] (.blank 34)
          (some ⟨[1, 0, 1]⟩)).2.of (some 32)
        = (prepareAll (.declaring shapes) { parallel := false } [shapeUnit, canvasUnit] (.blank 34)
            none).2.of (some 32) := by
  have hok : ∀ u ∈ [shapeUnit, canvasUnit],
      (prepareOne (.declaring shapes) {} u (.blank 34)).1.isOk := by
    decide +kernel
  have halone : ∀ u ∈ [shapeUnit, canvasUnit],
      (prepareOne (.declaring shapes) {} u (.blank 34)).1 = .ok (aloneInShapes u) := by
    intro u hu
    have hu := hok u hu
    unfold aloneInShapes
    cases h : (prepareOne (.declaring shapes) {} u (.blank 34)).1 with
    | error stop =>
      rw [h] at hu
      cases hu
    | ok outcome => rfl
  have hdisjoint : [shapeUnit, canvasUnit].Pairwise fun u v =>
      ∀ id ∈ declaredClasses (.declaring shapes) u, id ∉ declaredClasses (.declaring shapes) v := by
    decide +kernel
  obtain ⟨hresult, -, hof⟩ := (prepareAll_independent shapes { parallel := false }
    [shapeUnit, canvasUnit] (.blank 34) none).2 aloneInShapes halone [canvasUnit, shapeUnit] true
    (some ⟨[1, 0, 1]⟩) (List.Perm.swap _ _ _)
  exact ⟨hresult, by decide +kernel, hof hdisjoint (some 32)⟩

end Batch

end Interop
