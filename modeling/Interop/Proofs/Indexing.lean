import Interop.Proofs.Forwarders
import Interop.Proofs.Lookups
import Interop.Proofs.Nesting
import Interop.Proofs.Openings
import Interop.Proofs.Visits

/-!
# Only symbols in the table are indexed

To read the exports of a definition is to index the table at its symbol, and so is to type a
reference, to follow the found member of a selection or to check the class of a constructor.
`indexing` is the traversal with the first kind of indexing made a step of its own, which fails
like the others if there is no such symbol.  Where a compilation declares its symbols in order and
the unit names no others, the step never fails, so it may as well be left out:

    run (indexing t) s  =  run (transform t) s,   which does not end in missingSymbol

What carries this through a unit is that the forwarders that wait are closed trees.
-/

namespace Interop.Pass

/-! ## Algorithm -/

variable (env : Env) (options : Options)

/-- Index the table at a symbol. -/
def index (symbol : SymbolRef) : PassM Symbol :=
  match env.table.get? symbol with
  | some s => return s
  | none => throw .missingSymbol

/-- Index the table at a symbol if it has exports. -/
def indexExports (symbol : SymbolRef) : PassM Unit := do
  match env.exportsOf (← look) symbol with
  | [] => return
  | _ :: _ => discard (index env symbol)

/-- The rule reads the exports of what is declared. -/
def Rule.readsExports : Rule → Bool
  | method | object => true
  | _ => false

def indexOpening (t : Tree) (scope : Scope) : PassM Unit := do
  if (Rule.find? env t scope).any (·.readsExports) then indexExports env t.symbol

def indexLeaving (t : Tree) : PassM Unit := do
  if t.node.isMemberDef then indexExports env t.symbol

/-- The traversal, indexing the table for exports on entering and on leaving a node. -/
def indexing (t : Tree) (scope : Scope) : PassM Tree := do
  indexOpening env t scope
  opening env options t scope
  let cs ← (parts env t scope).attach.mapM fun ⟨c, _⟩ => indexing c (inner env t scope)
  let t' ← liftExcept (rebuild env options t scope cs)
  indexLeaving env t'
  leave env t'
termination_by t.weight
decreasing_by exact weight_lt_of_mem_parts ‹_›

/-- The forwarders that wait name symbols of the table only. -/
def Stocked (s : State) : Prop := ∀ w ∈ s.waiting, env.Closed w.2

variable {env options}

/-- From a stocked state both steps come to the same, which is a value with the property or a
failure other than for a missing symbol, and leave the state stocked. -/
def Indexes {α : Type} (env : Env) (m' m : PassM α) (Q : α → Prop) : Prop :=
  ∀ s, Stocked env s →
    run m' s = run m s ∧ Avoids .missingSymbol Q (run m s).1 ∧ Stocked env (run m s).2

/-! ## Lemmas -/

variable {t : Tree} {scope : Scope} {symbol : SymbolRef} {a : Annotations}

theorem indexing_eq (env : Env) (options : Options) (t : Tree) (scope : Scope) :
    indexing env options t scope = (do
      indexOpening env t scope
      opening env options t scope
      let cs ← (parts env t scope).mapM fun c => indexing env options c (inner env t scope)
      let t' ← liftExcept (rebuild env options t scope cs)
      indexLeaving env t'
      leave env t') := by
  rw [indexing]
  simp

namespace Indexes

variable {α β : Type} {Q : α → Prop} {R : β → Prop} {m' m : PassM α}

theorem liftExcept {x : Except Abort α} (h : Avoids .missingSymbol Q x) :
    Indexes env (liftExcept x) (liftExcept x) Q := by
  intro s hs
  rw [run_liftExcept]
  exact ⟨rfl, h, hs⟩

theorem bind {f' f : α → PassM β} (hm : Indexes env m' m Q)
    (hf : ∀ a, Q a → Indexes env (f' a) (f a) R) : Indexes env (m' >>= f') (m >>= f) R := by
  intro s hs
  obtain ⟨hsame, havoids, hstocked⟩ := hm s hs
  rw [run_bind, run_bind, hsame]
  rcases hrun : run m s with ⟨e | a, s'⟩
  · rw [hrun] at havoids hstocked
    exact ⟨rfl, havoids, hstocked⟩
  · rw [hrun] at havoids hstocked
    exact hf a havoids s' hstocked

theorem mapM {f' f : β → PassM α} {as : List β} (h : ∀ a ∈ as, Indexes env (f' a) (f a) Q) :
    Indexes env (as.mapM f') (as.mapM f) fun bs => bs.length = as.length ∧ ∀ b ∈ bs, Q b := by
  induction as with
  | nil => exact fun s hs => ⟨rfl, ⟨rfl, List.forall_mem_nil _⟩, hs⟩
  | cons a as ih =>
    rw [List.mapM_cons, List.mapM_cons]
    refine (h a (.head _)).bind fun b hb => ?_
    refine (ih fun a' ha' => h a' (.tail _ ha')).bind fun bs hbs => fun s hs => ?_
    exact ⟨rfl, ⟨congrArg (· + 1) hbs.1, List.forall_mem_cons.2 ⟨hb, hbs.2⟩⟩, hs⟩

/-- Indexing the table for exports first makes no difference if the symbol is in it. -/
theorem of_run {m'' : PassM Unit} (hm'' : ∀ s, run m'' s = (.ok (), s)) (h : Indexes env m' m Q) :
    Indexes env (m'' >>= fun _ => m') m Q := by
  intro s hs
  rw [run_bind, hm'']
  exact h s hs

end Indexes

/-! ## The stages -/

theorem run_indexExports (h : env.table.knows symbol) (s : State) :
    run (indexExports env symbol) s = (.ok (), s) := by
  unfold indexExports
  rw [run_bind, run_look]
  simp only
  split
  next => rfl
  next first rest hexports =>
    cases symbol with
    | none => cases hexports
    | some id =>
      obtain ⟨found, hget⟩ := SymbolTable.exists_get?_iff.2 (SymbolTable.knows_some.1 h)
      simp only [index, hget]
      rfl

/-- The class of an exported constructor is in the table. -/
theorem exportMembers?_ne_none (henv : env.Installed) (howned : env.table.Owned)
    (a : Annotations) (method : SymbolRef) : env.exportMembers? a method ≠ none := by
  unfold Env.exportMembers?
  split
  next s first rest hget hexports =>
    split
    next => simp
    next =>
      split
      next => simp
      next =>
        have hmember : ∀ e, ∃ r, env.exportMember? method s e = some r := by
          intro e
          unfold Env.exportMember?
          split
          next => exact ⟨_, rfl⟩
          next =>
            split
            next hctor =>
              obtain ⟨c, hc⟩ := Env.exists_class_of_isConstructor henv howned hget hctor
              rw [hc]
              exact ⟨_, rfl⟩
            next => exact ⟨_, rfl⟩
        choose r hr using hmember
        have hall : ∀ es : List Export,
            es.mapM (env.exportMember? method s) = some (es.map r) := by
          intro es
          induction es with
          | nil => rfl
          | cons e es ih => rw [List.mapM_cons, hr, ih]; rfl
        rw [hall]
        simp
  next => simp

theorem closed_of_mem_forwarders {f : Tree} (hf : f ∈ env.forwarders a symbol) : env.Closed f := by
  obtain ⟨s, e, hget, -, -, rfl⟩ := Env.exists_of_mem_forwarders hf
  refine Env.closed_of_children_eq_nil ?_ rfl
  show env.table.knows symbol
  cases symbol with
  | none => rfl
  | some id => exact SymbolTable.knows_some.2 (SymbolTable.lt_size_of_get?_eq_some hget)

variable (henv : env.Installed) (howned : env.table.Owned)

include henv howned

theorem avoids_fst_opened (ht : env.Closed t) (options : Options) (a : Annotations)
    (scope : Scope) :
    Avoids .missingSymbol (fun _ => True) (opened env options a t scope).1 := by
  unfold opened opening
  cases hfind : Rule.find? env t scope with
  | none => trivial
  | some rule =>
    cases rule with
    | jsAnyClass | jsAnyDef =>
      simp only [Rule.enter]
      rw [run_checkJsAny (by simp [hfind])]
      trivial
    | enumValueDef =>
      simp only [run_discard_liftExcept]
      have hvalue := avoids_nameValueDef henv ht
      cases hcase : nameValueDef env t with
      | error e =>
        rw [hcase] at hvalue
        exact hvalue
      | ok t' => trivial
    | method =>
      simp only [Rule.enter, run_collectExports]
      cases hmembers : env.exportMembers? a t.symbol with
      | none => exact absurd hmembers (exportMembers?_ne_none henv howned a t.symbol)
      | some r => trivial
    | _ => trivial

/-- **Opening a node.** -/
theorem indexes_opening (ht : env.Closed t) (options : Options) (scope : Scope) :
    Indexes env (opening env options t scope) (opening env options t scope) fun _ => True := by
  intro s hs
  rw [run_opening]
  refine ⟨rfl, avoids_fst_opened henv howned ht options s.annotations scope, ?_⟩
  intro w hw
  rcases List.mem_append.1 hw with hw | hw
  · exact hs w hw
  · by_cases hfind : Rule.find? env t scope = some .method
    · rw [opened_of_method hfind, run_collectExports] at hw
      split at hw
      next => cases hw
      next forwarders report hmembers =>
        obtain ⟨f, hf, rfl⟩ := List.mem_map.1 (by simpa using hw)
        have hforwarders : forwarders = env.forwarders s.annotations t.symbol :=
          Env.fst_of_exportMembers? hmembers
        rw [hforwarders] at hf
        exact closed_of_mem_forwarders hf
    · rw [waiting_opened_of_ne_method hfind] at hw
      cases hw

omit henv howned

/-- **Leaving a node.** -/
theorem indexes_leave (ht : env.Closed t) :
    Indexes env (leave env t) (leave env t) env.Closed := by
  intro s hs
  by_cases hbody : ∃ parents body, t.node = .template parents body
  · obtain ⟨parents, body, hbody⟩ := hbody
    rw [run_leave_of_template hbody]
    refine ⟨rfl, Env.closed_iff.2 ⟨ht.symbol, fun c hc => ?_⟩, fun w hw => hs w ?_⟩
    · rw [Tree.children, Node.children, ← List.append_assoc] at hc
      rcases List.mem_append.1 hc with hc | hc
      · refine ht.of_mem_children ?_
        rw [Tree.children, hbody]
        exact hc
      · obtain ⟨w, hw, rfl⟩ := List.mem_map.1 hc
        exact hs w (List.mem_filter.1 hw).1
    · exact (List.mem_filter.1 hw).1
  · rw [run_leave_of_not_template fun parents body h => hbody ⟨parents, body, h⟩]
    exact ⟨rfl, ht, hs⟩

theorem run_indexOpening (ht : env.Closed t) (scope : Scope) (s : State) :
    run (indexOpening env t scope) s = (.ok (), s) := by
  unfold indexOpening
  split
  next => exact run_indexExports ht.symbol s
  next => rfl

theorem run_indexLeaving (ht : env.Closed t) (s : State) :
    run (indexLeaving env t) s = (.ok (), s) := by
  unfold indexLeaving
  split
  next => exact run_indexExports ht.symbol s
  next => rfl

include henv howned

/-- **A visit to a closed tree indexes symbols of the table only.** -/
theorem indexes_transform (options : Options) (t : Tree) (scope : Scope) (ht : env.Closed t) :
    Indexes env (indexing env options t scope) (transform env options t scope) env.Closed := by
  induction t, scope using parts_induction env with
  | h t scope ih =>
    rw [indexing_eq, transform_eq]
    refine .of_run (run_indexOpening ht scope) ?_
    refine (indexes_opening henv howned ht options scope).bind fun _ _ => ?_
    refine (Indexes.mapM fun c hc => ih c hc (closed_of_mem_parts henv ht hc)).bind ?_
    rintro cs ⟨hlength, hcs⟩
    refine (Indexes.liftExcept (avoids_rebuild henv options ht hlength hcs)).bind fun t' ht' => ?_
    exact .of_run (run_indexLeaving ht') (indexes_leave ht')

omit henv howned

/-! ## Top theorem -/

/-- **No symbol outside the table is indexed.**  Where a compilation declares its symbols in order,
whatever their parents and types are, and a unit names symbols of the table only, all indexing of
the table succeeds: with any annotations a run that checks it is the run without, and it does not
end for a missing symbol. -/
theorem indexing_declaring {ds : List Declaration} (hds : Env.isOrderly ds) (options : Options)
    (a : Annotations) {t : Tree} (ht : (Env.declaring ds).Closed t) :
    run (indexing (.declaring ds) options t .root) { annotations := a }
        = run (transform (.declaring ds) options t .root) { annotations := a }
      ∧ (run (indexing (.declaring ds) options t .root) { annotations := a }).1
        ≠ .error .missingSymbol
      ∧ (prepare (.declaring ds) options t a).1 ≠ .error .missingSymbol := by
  obtain ⟨hsame, havoids, -⟩ := indexes_transform (Env.installed_declaring ds)
    (Env.owned_declaring hds) options t .root ht { annotations := a } (List.forall_mem_nil _)
  refine ⟨hsame, hsame ▸ havoids.ne_error, ?_⟩
  intro hprepare
  obtain hrun | ⟨tree, -, -, hstop⟩ := prepare_eq_error_iff.1 hprepare
  · exact havoids.ne_error hrun
  · cases hstop

/-- A class with a constructor, and a dynamic value.  The parent of the class is not in the
table. -/
def boxAndDynamic : List Declaration :=
  [⟨some SymbolTable.root, "app", .package⟩,
   ⟨some 29, "Box", .classDef false [] [Library.classTy 700]⟩,
   ⟨some 30, "<init>", .method [.constructor] [] (Library.classTy 30)⟩,
   ⟨some 29, "d", .value [] (Library.classTy Library.fresh.1.jsDynamic)⟩]

/-- The constructor is exported under the name of its class, and so is a symbol that is not in the
table. -/
def boxExports : Annotations :=
  let asks : List Annotation := [{ symbol := some Library.fresh.1.jsExport, span := ⟨1, 2⟩ }]
  ((Annotations.blank 34).set (some 31) asks).set (some 33) asks

/-- The class, and `d.x(d)` with nothing typed but the receiver. -/
def boxUnit : Tree :=
  let constructor : Tree :=
    { node := .defDef [] { node := .literal .unit, span := ⟨12, 14⟩, ty := .unit }
      span := ⟨10, 14⟩, symbol := some 31 }
  let d : Tree := { node := .ident "d", span := ⟨20, 21⟩, symbol := some 32 }
  let receiver : Tree := { d with ty := Library.classTy Library.fresh.1.jsDynamic }
  let call : Tree :=
    { node := .apply { node := .select receiver "x", span := ⟨20, 23⟩ } [d], span := ⟨20, 26⟩ }
  { node := .packageDef [classTree 30 ⟨0, 18⟩ [constructor], call], span := ⟨0, 26⟩
    symbol := some 29 }

/-- The table is indexed at the constructor, at its class, and at what the call refers to. -/
theorem indexing_boxAndDynamic :
    run (indexing (.declaring boxAndDynamic) {} boxUnit .root) { annotations := boxExports }
        = run (transform (.declaring boxAndDynamic) {} boxUnit .root) { annotations := boxExports }
      ∧ (prepare (.declaring boxAndDynamic) {} boxUnit boxExports).1 ≠ .error .missingSymbol := by
  have horderly : Env.isOrderly boxAndDynamic := by decide +kernel
  have hclosed : (Env.declaring boxAndDynamic).Closed boxUnit := by
    unfold Env.Closed
    decide +kernel
  obtain ⟨hsame, -, hprepare⟩ := indexing_declaring horderly {} boxExports hclosed
  exact ⟨hsame, hprepare⟩

/-- A constructor that is declared in a symbol outside the table has no class to check. -/
example : (Env.declaring [⟨some 700, "<init>", .method [.constructor] [] .unit⟩]).exportMembers?
    ((Annotations.blank 30).set (some 29)
      [{ symbol := some Library.fresh.1.jsExport, span := ⟨1, 2⟩ }]) (some 29) = none := by
  decide +kernel

end Interop.Pass
