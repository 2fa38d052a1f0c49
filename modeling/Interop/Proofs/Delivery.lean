import Interop.Proofs.Quiet

/-!
# Forwarders go where they belong

A forwarder waits from the visit of its method until a body with the owner's symbol is left.  In a
tidy tree the first such body is the right one, and it gets all of its forwarders.  What a visit
leaves to wait is what the tree sends out, and what the tree comes to is what it comes to without
exports, with the forwarders put into the bodies:

    waiting after t  =  waiting before  ++  outgoing t
    with exports     =  (without exports).spliced forwarders
-/

namespace Interop.Pass

/-- All that waits is for a body with a symbol, and not for one of `rs`. -/
def Clear (rs : List SymbolId) (ws : List (SymbolRef × Tree)) : Prop :=
  ∀ w ∈ ws, w.1 ≠ none ∧ ∀ r ∈ rs, w.1 ≠ some r

variable {env : Env} {options : Options} {a : Annotations} {t u : Tree} {scope : Scope}
  {s s' s₀ : State} {out : Tree}

/-! ## Lemmas -/

theorem Clear.mono {rs rs' : List SymbolId} {ws : List (SymbolRef × Tree)} (h : Clear rs' ws)
    (hrs : rs ⊆ rs') : Clear rs ws :=
  fun w hw => ⟨(h w hw).1, fun r hr => (h w hw).2 r (hrs hr)⟩

theorem Clear.append {rs : List SymbolId} {ws ws' : List (SymbolRef × Tree)} (h : Clear rs ws)
    (h' : Clear rs ws') : Clear rs (ws ++ ws') :=
  fun w hw => (List.mem_append.1 hw).elim (h w) (h' w)

/-- What takes the place of a node is a body if the node is, of the same symbol. -/
theorem of_rebuild_eq_ok (henv : env.Installed) {cs : List Tree}
    (h : rebuild env options t scope cs = .ok u) :
    u.node.isTemplate = t.node.isTemplate ∧ (t.node.isTemplate → u.symbol = t.symbol) := by
  rcases stages_cases env t scope with
    hkept | ⟨hfind, callee, arg, ht⟩ | ⟨hfind, hvalue⟩
      | ⟨hfind, callee, args, receiver, name, ht, hcallee⟩ | ⟨hfind, receiver, name, ht⟩
  · rw [rebuild_of_kept hkept] at h
    cases h
    exact ⟨Node.isTemplate_withChildren _ _, fun _ => rfl⟩
  · rw [rebuild_of_typeToken hfind] at h
    rw [ht]
    rcases (tokenResult_eq_ok_iff ht).1 h with ⟨-, rfl⟩ | ⟨-, -, rfl⟩
    · exact ⟨rfl, fun h => nomatch h⟩
    · exact ⟨rfl, fun h => nomatch h⟩
  · rw [rebuild_of_enumValueDef hfind] at h
    cases h
    obtain ⟨rhs, hnamed⟩ := named_of_isUnnamedValueDef hvalue
    obtain ⟨_, _, _, ht, -⟩ := Env.isUnnamedValueDef_iff.1 hvalue
    rw [hnamed, ht]
    exact ⟨rfl, fun h => nomatch h⟩
  · rw [rebuild_of_dynamicApply hfind ht] at h
    obtain ⟨_, _, _, _, _, rfl⟩ := (applyDynamic_eq_ok_iff henv).1 h
    rw [ht]
    exact ⟨rfl, fun h => nomatch h⟩
  · rw [rebuild_of_dynamicSelect hfind] at h
    obtain ⟨_, _, _, rfl⟩ := (selectDynamic_eq_ok_iff henv).1 h
    rw [ht]
    exact ⟨rfl, fun h => nomatch h⟩

/-! ## What a body gets -/

/-- The bodies in the tree get from `fs` what is called for. -/
structure Supplies (env : Env) (a : Annotations) (t : Tree) (fs : SymbolRef → List Tree) :
    Prop where
  none : fs none = []
  some : ∀ r ∈ bodies env t, fs (some r) = calledFor env a t (some r)

section

variable {fs : SymbolRef → List Tree} (htidy : Tidy env a t) (hfs : Supplies env a t fs)

include htidy

/-- Nothing that a tree sends out is without an owner. -/
theorem Tidy.ne_none_of_mem_outgoing {c : Tree} (hc : c ∈ parts env t scope)
    {w : SymbolRef × Tree} (hw : w ∈ outgoing env a c) : w.1 ≠ Option.none :=
  htidy.owned w (called_subset_of_mem_parts hc (List.mem_filter.1 hw).1)

theorem Tidy.clear_outgoing {c : Tree} (hc : c ∈ parts env t scope) :
    Clear ((parts env t scope).flatMap (bodies env)) (outgoing env a c) :=
  fun _ hw => ⟨htidy.ne_none_of_mem_outgoing hc hw, fun _ hr => htidy.ne_of_mem_outgoing hc hw hr⟩

theorem Tidy.clear_calls : Clear (bodies env t) (calls env a t) := by
  intro w hw
  refine ⟨htidy.owned w ?_, fun r hr => htidy.ne_of_mem_calls hw hr⟩
  rw [called_eq env a t .root]
  exact List.mem_append_left _ hw

include hfs

theorem Supplies.part {c : Tree} (hc : c ∈ parts env t scope) : Supplies env a c fs where
  none := hfs.none
  some r hr := by
    rw [hfs.some r (bodies_subset_of_mem_parts hc hr), htidy.calledFor_part hc hr]

/-- What the parts of a body send out for it is what it gets. -/
theorem filter_outgoing_eq (ht : t.node.isTemplate) (scope : Scope) :
    (((parts env t scope).flatMap (outgoing env a)).filter (·.1 = t.symbol)).map (·.2)
      = fs t.symbol := by
  cases hsymbol : t.symbol with
  | none =>
    rw [hfs.none, List.map_eq_nil_iff, List.filter_eq_nil_iff]
    intro w hw
    obtain ⟨c, hc, hw⟩ := List.mem_flatMap.1 hw
    simpa using htidy.ne_none_of_mem_outgoing hc hw
  | some r =>
    have hr : r ∈ bodies env t :=
      mem_bodies_of_mem_live (by rw [Env.live_eq]; exact .head _) ht hsymbol
    rw [hfs.some r hr, calledFor_eq, called_eq env a t scope, calls_of_isTemplate ht,
      List.nil_append, List.filter_flatMap, List.filter_flatMap]
    refine congrArg _ (List.flatMap_congr fun c hc => ?_)
    unfold outgoing
    rw [List.filter_filter]
    refine List.filter_congr fun w _ => ?_
    -- the symbol of the body is not that of a body in the part
    have hother : ∀ q ∈ bodies env c, q ≠ r := by
      rintro q hq rfl
      exact htidy.ne_symbol ht (List.mem_flatMap.2 ⟨c, hc, hq⟩) hsymbol
    by_cases hwr : w.1 = some r
    · simpa [hwr] using fun q hq => (hother q hq).symm
    · simp [hwr]

/-- A body takes what is for it, and lets the rest wait. -/
theorem of_ends_leave_of_isTemplate (ht : u.node.isTemplate) (hut : t.node.isTemplate)
    (hsymbol : u.symbol = t.symbol)
    (hwaiting : s.waiting = s₀.waiting ++ (parts env t scope).flatMap (outgoing env a))
    (hclear : Clear (bodies env t) s₀.waiting) (h : Ends (leave env u) s out s') :
    out = u.withMembers (fs t.symbol) ∧ s'.waiting = s₀.waiting ++ outgoing env a t := by
  unfold Ends at h
  rw [run_leave_of_isTemplate ht] at h
  obtain ⟨hout, rfl⟩ := Prod.mk.inj h
  -- nothing that waited before is for this body
  have hkept : ∀ w ∈ s₀.waiting, w.1 ≠ t.symbol := by
    intro w hw
    cases hr : t.symbol with
    | none => exact (hclear w hw).1
    | some r =>
      exact (hclear w hw).2 r (mem_bodies_of_mem_live (by rw [Env.live_eq]; exact .head _) hut hr)
  rw [hsymbol, hwaiting, List.filter_append, List.filter_eq_nil_iff.2 (by simpa using hkept),
    List.nil_append, filter_outgoing_eq htidy hfs hut scope] at hout
  refine ⟨(Except.ok.inj hout).symm, ?_⟩
  show List.filter _ s.waiting = _
  rw [htidy.outgoing_eq scope, calls_of_isTemplate hut, List.nil_append, hsymbol, hwaiting,
    List.filter_append, List.filter_eq_self.2 (by simpa using hkept)]
  congr 1
  refine List.filter_congr fun w hw => ?_
  obtain ⟨c, hc, hw⟩ := List.mem_flatMap.1 hw
  cases hr : t.symbol with
  | none => simpa [Tree.bodyOf?, hut, hr] using htidy.ne_none_of_mem_outgoing hc hw
  | some r => simp [Tree.bodyOf?, hut, hr]

/-- **Leaving a node.**  A node over spliced children is left as its splicing, and what still waits
is what it sends out. -/
theorem of_ends_leave (henv : env.Installed) {cs : List Tree}
    (hrebuild : rebuild env options t scope cs = .ok u)
    (hwaiting : s.waiting
      = s₀.waiting ++ (calls env a t ++ (parts env t scope).flatMap (outgoing env a)))
    (hclear : Clear (bodies env t) s₀.waiting)
    (h : Ends (leave env (u.withChildren (u.children.map (Tree.spliced fs)))) s out s') :
    out = u.spliced fs ∧ s'.waiting = s₀.waiting ++ outgoing env a t := by
  obtain ⟨htemplate, hsymbol⟩ := of_rebuild_eq_ok henv hrebuild
  have hnode : (u.withChildren (u.children.map (Tree.spliced fs))).node.isTemplate
      = t.node.isTemplate := by
    rw [Tree.withChildren, Node.isTemplate_withChildren, htemplate]
  rw [Tree.spliced_eq]
  by_cases ht : t.node.isTemplate
  · rw [calls_of_isTemplate ht, List.nil_append] at hwaiting
    rw [hsymbol ht]
    exact of_ends_leave_of_isTemplate htidy hfs (hnode.trans ht) ht (hsymbol ht) hwaiting hclear h
  · unfold Ends at h
    rw [run_leave_of_not_isTemplate (by rwa [hnode])] at h
    obtain ⟨hout, rfl⟩ := Prod.mk.inj h
    constructor
    · rw [← Except.ok.inj hout, Tree.withMembers_of_not_isTemplate (by simpa [hnode] using ht)]
    · rw [htidy.outgoing_eq scope, Tree.bodyOf?, if_neg ht, Option.toList_none,
        List.filter_eq_self.2 (by simp)]
      exact hwaiting

end

/-! ## Whole runs -/

/-- The parts of a node, one after the other. -/
theorem exists_chain_of_quiet (fs : SymbolRef → List Tree) {as outs : List Tree}
    {rs : List SymbolId}
    (hparts : Chain (fun c => Ends (transform env options c scope)) as s outs s')
    (ih : ∀ c ∈ as, ∀ s out s' s₀, Ends (transform env options c scope) s out s' →
      env.exportsOf s.annotations = env.exportsOf a → Clear (bodies env c) s.waiting →
      Quiet env s₀ → ∃ bare s₁, Ends (transform env options c scope) s₀ bare s₁ ∧ Quiet env s₁
        ∧ out = bare.spliced fs ∧ s'.waiting = s.waiting ++ outgoing env a c
        ∧ env.exportsOf s'.annotations = env.exportsOf a)
    (hrs : ∀ c ∈ as, bodies env c ⊆ rs ∧ Clear rs (outgoing env a c))
    (ha : env.exportsOf s.annotations = env.exportsOf a) (hclear : Clear rs s.waiting)
    (hs₀ : Quiet env s₀) :
    ∃ bs s₁, Chain (fun c => Ends (transform env options c scope)) as s₀ bs s₁ ∧ Quiet env s₁
      ∧ outs = bs.map (Tree.spliced fs)
      ∧ s'.waiting = s.waiting ++ as.flatMap (outgoing env a) := by
  induction hparts generalizing s₀ with
  | nil => exact ⟨[], s₀, .nil, hs₀, rfl, by simp⟩
  | cons hc _ ihas =>
    obtain ⟨hbodies, hout⟩ := hrs _ (.head _)
    obtain ⟨b, s₁, hb, hs₁, rfl, hw, hexports⟩ :=
      ih _ (.head _) _ _ _ _ hc ha (hclear.mono hbodies) hs₀
    obtain ⟨bs, s₂, hbs, hs₂, rfl, hws⟩ := ihas (fun c hc => ih c (.tail _ hc))
      (fun c hc => hrs c (.tail _ hc)) hexports (by rw [hw]; exact hclear.append hout) hs₁
    refine ⟨b :: bs, s₂, .cons hb hbs, hs₂, rfl, ?_⟩
    rw [hws, hw, List.flatMap_cons, List.append_assoc]

/-- **With and without exports.**  A run of a tidy tree comes to what it comes to without exports,
with the forwarders put into the bodies. -/
theorem exists_ends_of_quiet (henv : env.Installed) {fs : SymbolRef → List Tree}
    (htidy : Tidy env a t) (hfs : Supplies env a t fs)
    (h : Ends (transform env options t scope) s out s')
    (ha : env.exportsOf s.annotations = env.exportsOf a) (hclear : Clear (bodies env t) s.waiting)
    (hs₀ : Quiet env s₀) :
    ∃ bare s₁, Ends (transform env options t scope) s₀ bare s₁ ∧ Quiet env s₁
      ∧ out = bare.spliced fs ∧ s'.waiting = s.waiting ++ outgoing env a t
      ∧ env.exportsOf s'.annotations = env.exportsOf a := by
  induction t, scope using parts_induction env generalizing s s' s₀ out with
  | h t scope ih =>
    have hexports := (exportsOf_eq_of_ends henv h).trans ha
    obtain ⟨s₁, cs, s₂, t', hopen, hparts, hrebuild, hleave⟩ := ends_transform_iff.1 h
    obtain ⟨q₁, hopen₀, hq₁⟩ := ends_opening_of_quiet henv hopen hs₀
    have hs₁ := waiting_of_ends_opening ha hopen
    have hsubset : (parts env t scope).flatMap (bodies env) ⊆ bodies env t := by
      rw [bodies_eq env t scope]
      exact List.subset_append_right _ _
    obtain ⟨bs, q₂, hparts₀, hq₂, rfl, hs₂⟩ := exists_chain_of_quiet fs hparts
      (fun c hc s out s' s₀ h ha hclear hs₀ =>
        ih c hc (htidy.part hc) (hfs.part htidy hc) h ha hclear hs₀)
      (fun c hc => ⟨fun r hr => List.mem_flatMap.2 ⟨c, hc, hr⟩, htidy.clear_outgoing hc⟩)
      ((exportsOf_eq_of_ends_opening henv hopen).trans ha)
      (by rw [hs₁]; exact (hclear.append htidy.clear_calls).mono hsubset) hq₁
    obtain ⟨u, hrebuild₀, rfl⟩ := rebuild_spliced henv hparts₀.length_eq hrebuild
    obtain ⟨q₃, hleave₀, hq₃⟩ := ends_leave_of_quiet env u hq₂
    rw [hs₁, List.append_assoc] at hs₂
    obtain ⟨hout, hw⟩ := of_ends_leave htidy hfs henv hrebuild₀ hs₂ hclear hleave
    exact ⟨u, q₃, ends_transform_iff.2 ⟨q₁, bs, q₂, u, hopen₀, hparts₀, hrebuild₀, hleave₀⟩, hq₃,
      hout, hw, hexports⟩

/-! ## Top theorem -/

/-- A body, with how many parents and members it has. -/
def bodyOutline (t : Tree) : List (Span × SymbolRef × Nat × Nat) :=
  match t.node with
  | .template parents body => [(t.span, t.symbol, parents.length, body.length)]
  | _ => []

/-- A forwarder with all that it carries. -/
def forwarderOutline (t : Tree) : List (String × ExportKind × Span × Ty × SymbolRef) :=
  match t.node with
  | .forwarder jsName kind => [(jsName, kind, t.span, t.ty, t.symbol)]
  | _ => []

theorem lasting_bodyOutline (env : Env) : Lasting env bodyOutline where
  built u hu := by
    unfold bodyOutline
    cases hnode : u.node <;> simp [hnode, Node.isTypable, Node.isEmpty] at hu ⊢
  token u hu := by
    obtain ⟨_, _, _, _, _, _, _, hnode, -⟩ := Env.isTypeToken_iff.1 hu
    rw [bodyOutline, hnode]
  kind := by
    rintro ⟨node, span, ty, symbol⟩ cs hlength
    cases node with
    | template parents body =>
      simp only [Tree.children, Node.children, List.length_append] at hlength
      simp [bodyOutline, Tree.withChildren, Node.withChildren, hlength]
    | _ => rfl

theorem lasting_forwarderOutline (env : Env) : Lasting env forwarderOutline where
  built u hu := by
    unfold forwarderOutline
    cases hnode : u.node <;> simp [hnode, Node.isTypable, Node.isEmpty] at hu ⊢
  token u hu := by
    obtain ⟨_, _, _, _, _, _, _, hnode, -⟩ := Env.isTypeToken_iff.1 hu
    rw [forwarderOutline, hnode]
  kind := by
    rintro ⟨node, span, ty, symbol⟩ cs -
    cases node <;> rfl

/-- **Forwarders go where they belong.**  Let no two bodies have one symbol, and let each method
that has forwarders stand in the body of its owner.  Then a unit that is prepared comes to what it
comes to without exports, except that each body has the forwarders for its methods behind its
members, in the order of the methods and of their exports.  Without exports the bodies are those of
the unit, with as many members, and so are the forwarders, if it has any.  For runs that end,
whether their results pass the check or not, this is `exists_ends_of_quiet`. -/
theorem forwarders_delivered (ds : List Declaration) (options : Options) (a : Annotations)
    (t : Tree) (prepared : Prepared)
    (hok : (prepare (.declaring ds) options t a).1 = .ok prepared)
    (hbodies : (bodies (.declaring ds) t).Nodup)
    (hinside : ∀ v ∈ (Env.declaring ds).nested (·.node.isTemplate) [] t, v.1.node.isDefDef →
      (Env.declaring ds).forwarders a v.1.symbol ≠ [] →
      ∃ o ∈ v.2, o.symbol ≠ none ∧ o.symbol = (Env.declaring ds).table.owner v.1.symbol)
    (b : Annotations) (hb : ∀ r, (Env.declaring ds).exportsOf b r = []) :
    ∃ bare, (prepare (.declaring ds) options t b).1 = .ok bare
      ∧ prepared.tree = bare.tree.spliced (calledFor (.declaring ds) a t)
      ∧ bare.tree.preorder.flatMap bodyOutline
          = ((Env.declaring ds).live t).flatMap bodyOutline
      ∧ bare.tree.preorder.flatMap forwarderOutline
          = ((Env.declaring ds).live t).flatMap forwarderOutline := by
  have henv := Env.installed_declaring ds
  -- each forwarder is for a body around its method
  have howner : ∀ v ∈ (Env.declaring ds).nested (·.node.isTemplate) [] t,
      ∀ w ∈ calls (.declaring ds) a v.1, ∃ o ∈ v.2, o.symbol ≠ none ∧ o.symbol = w.1 := by
    intro v hv w hw
    have hdef := isDefDef_of_mem_calls hw
    rw [calls, if_pos hdef] at hw
    obtain ⟨f, hf, rfl⟩ := List.mem_map.1 hw
    exact hinside v hv hdef (List.ne_nil_of_mem hf)
  have htidy : Tidy (.declaring ds) a t := by
    refine ⟨hbodies, fun w hw => ?_, fun v hv w hw r _ hwr => ?_⟩
    · obtain ⟨u, hu, hw⟩ := List.mem_flatMap.1 hw
      rw [← Env.map_fst_nested _ (·.node.isTemplate) [] t] at hu
      obtain ⟨v, hv, rfl⟩ := List.mem_map.1 hu
      obtain ⟨o, -, hne, hsymbol⟩ := howner v hv w hw
      rwa [← hsymbol]
    · obtain ⟨o, ho, -, hsymbol⟩ := howner v hv w hw
      exact ⟨o, ho, hsymbol.trans hwr⟩
  have hfs : Supplies (.declaring ds) a t (calledFor (.declaring ds) a t) := by
    refine ⟨?_, fun _ _ => rfl⟩
    rw [calledFor_eq, List.map_eq_nil_iff, List.filter_eq_nil_iff]
    intro w hw
    simpa using htidy.owned w hw
  obtain ⟨s, hends, hleft, -⟩ := prepare_eq_ok_iff.1 hok
  have hquiet : Quiet (.declaring ds) { annotations := b } := ⟨hb, rfl⟩
  obtain ⟨bare, s₁, hbare, -, htree, -⟩ := exists_ends_of_quiet henv htidy hfs hends rfl
    (List.forall_mem_nil _) hquiet
  -- what is left over does not depend on the exports
  have hnone : (Env.declaring ds).leftovers bare = [] := by
    rw [(rewritten_of_ends henv hbare (List.forall_mem_nil _)).1.leftovers_eq,
      ← (rewritten_of_ends henv hends (List.forall_mem_nil _)).1.leftovers_eq, hleft]
  exact ⟨⟨bare, s₁.report⟩, prepare_eq_ok_iff.2 ⟨s₁, hbare, hnone, rfl⟩, htree,
    (flatMap_preorder_of_quiet (lasting_bodyOutline _) henv hquiet hbare).1,
    (flatMap_preorder_of_quiet (lasting_forwarderOutline _) henv hquiet hbare).1⟩

/-- A class with a method, and a class with a method in it. -/
def innerMethods : List Declaration :=
  let objectClass := Library.classTy Library.fresh.1.objectClass
  [⟨some SymbolTable.root, "app", .package⟩,
   ⟨some 29, "Outer", .classDef false [] [objectClass]⟩,
   ⟨some 30, "f", .method [] [] .int⟩,
   ⟨some 30, "Inner", .classDef false [] [objectClass]⟩,
   ⟨some 32, "g", .method [] [] .int⟩]

/-- The outer method is exported under three names, of which one has two underscores in a row, and
the inner one under its own. -/
def methodExports : Annotations :=
  let asks (args : List Constant) (span : Span) : Annotation :=
    { symbol := some Library.fresh.1.jsExport, args, span }
  ((Annotations.blank 34).set (some 31)
      [asks [.str "first"] ⟨1, 2⟩, asks [.str "a__b"] ⟨3, 4⟩, asks [.str "second"] ⟨5, 6⟩]).set
    (some 33) [asks [] ⟨20, 21⟩]

/-- The inner class comes before the outer method. -/
def innerUnit : Tree :=
  let method (symbol : SymbolId) (span : Span) : Tree :=
    { node := .defDef [] { node := .literal (.int 1), span, ty := .int }, span
      symbol := some symbol }
  classTree 30 ⟨0, 50⟩ [classTree 32 ⟨10, 30⟩ [method 33 ⟨22, 28⟩], method 31 ⟨40, 48⟩]

/-- Each class gets the forwarders for its own method, in the order of the exports. -/
theorem forwarders_delivered_inner : ∃ prepared bare,
    (prepare (.declaring innerMethods) {} innerUnit methodExports).1 = .ok prepared
      ∧ (prepare (.declaring innerMethods) {} innerUnit (.blank 34)).1 = .ok bare
      ∧ prepared.tree
          = bare.tree.spliced (calledFor (.declaring innerMethods) methodExports innerUnit)
      ∧ (calledFor (.declaring innerMethods) methodExports innerUnit (some 30)).flatMap
            forwarderOutline
          = [("first", .method, ⟨1, 2⟩, .method [] .int, some 31),
             ("second", .method, ⟨5, 6⟩, .method [] .int, some 31)]
      ∧ (calledFor (.declaring innerMethods) methodExports innerUnit (some 32)).flatMap
            forwarderOutline
          = [("g", .method, ⟨20, 21⟩, .method [] .int, some 33)] := by
  have hok : (prepare (.declaring innerMethods) {} innerUnit methodExports).1.isOk := by
    decide +kernel
  obtain ⟨prepared, hprepared⟩ := exists_prepared hok
  have hinside : ∀ v ∈ (Env.declaring innerMethods).nested (·.node.isTemplate) [] innerUnit,
      v.1.node.isDefDef → (Env.declaring innerMethods).forwarders methodExports v.1.symbol ≠ [] →
      ∃ o ∈ v.2, o.symbol ≠ none
        ∧ o.symbol = (Env.declaring innerMethods).table.owner v.1.symbol := by
    decide +kernel
  have hnone : ∀ r, (Env.declaring innerMethods).exportsOf (.blank 34) r = [] := by
    intro r
    unfold Env.exportsOf Annotations.of Annotations.blank
    cases r with
    | none => rfl
    | some id => by_cases h : id < 34 <;> simp [h]
  obtain ⟨bare, hbare, htree, -⟩ := forwarders_delivered innerMethods {} methodExports innerUnit
    prepared hprepared (by decide +kernel) hinside (.blank 34) hnone
  exact ⟨prepared, bare, hprepared, hbare, htree, by decide +kernel, by decide +kernel⟩

end Interop.Pass
