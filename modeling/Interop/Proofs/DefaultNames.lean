import Interop.Proofs.Forwarders
import Interop.Proofs.Installed
import Mathlib.Data.List.Find

/-!
# Default names

An export that gives no name goes by the source name of its definition, and the setter of `x` is
meant to go by `x`.  But the mark of a setter is looked for in the name as it is stored, before that
is decoded.  The source name of both `x_=` and `x_$eq` is `x_=`, and

    stored     exported as     kind
    x_=        x               setter
    x_$eq      x_=             getter

so names and kinds follow the source name exactly where the mark is stored unencoded, if there is
one (`defaultExport_iff`).
-/

namespace Interop

namespace Name

/-! ## Marks of setters -/

/-- The name ends in the mark of a setter. -/
def isSetter (name : String) : Bool := (setterBase? name).isSome

/-- The name without the mark of a setter. -/
def withoutSetter (name : String) : String := (setterBase? name).getD name

theorem dropSuffix?_eq_some_iff {suffix name base : String} :
    dropSuffix? suffix name = some base ↔ base ++ suffix = name := by
  unfold dropSuffix?
  rw [Option.map_eq_some_iff, ← String.toList_inj, String.toList_append]
  simp only [List.isSuffixOf?_eq_some_iff_append_eq]
  constructor
  · rintro ⟨cs, hcs, rfl⟩
    rwa [String.toList_ofList]
  · intro h
    exact ⟨base.toList, h, String.ofList_toList⟩

theorem isSetter_iff {name : String} : isSetter name ↔ ∃ base, base ++ "_=" = name := by
  unfold isSetter
  rw [Option.isSome_iff_exists]
  exact exists_congr fun _ => dropSuffix?_eq_some_iff

theorem withoutSetter_append (base : String) : withoutSetter (base ++ "_=") = base := by
  unfold withoutSetter setterBase?
  rw [dropSuffix?_eq_some_iff.2 rfl, Option.getD_some]

theorem withoutSetter_eq_self_iff {name : String} :
    withoutSetter name = name ↔ isSetter name = false := by
  constructor
  · intro h
    rw [Bool.eq_false_iff]
    intro hsetter
    obtain ⟨base, rfl⟩ := isSetter_iff.1 hsetter
    rw [withoutSetter_append, ← String.toList_inj, String.toList_append] at h
    simp at h
  · intro h
    unfold isSetter at h
    unfold withoutSetter
    rw [Option.isSome_eq_false_iff, Option.isNone_iff_eq_none] at h
    rw [h, Option.getD_none]

/-- A name that ends in the mark has no blank for `getter` to take off. -/
theorem getter_of_isSetter {name : String} (h : isSetter name) : getter name = name := by
  obtain ⟨base, rfl⟩ := isSetter_iff.1 h
  unfold getter
  rw [Option.getD_eq_iff]
  refine .inr ⟨?_, rfl⟩
  rw [Option.eq_none_iff_forall_ne_some]
  intro field hfield
  have hlast := congrArg (·.toList.getLast?) (dropSuffix?_eq_some_iff.1 hfield)
  simp at hlast

/-! ## Decoding before an underscore -/

theorem of_codePoint?_eq_some {cs : List Char} {x : Char} (h : codePoint? cs = some x) :
    5 ≤ cs.length ∧ '_' ∉ cs.take 5 := by
  have hvalue : ∀ {c : Char} {n : Nat}, hexValue? c = some n → '_' ≠ c := by
    rintro _ n h rfl
    simp [hexValue?] at h
  unfold codePoint? at h
  split at h
  next a b c d rest =>
    obtain ⟨_, ha, h⟩ := Option.bind_eq_some_iff.1 h
    obtain ⟨_, hb, h⟩ := Option.bind_eq_some_iff.1 h
    obtain ⟨_, hc, h⟩ := Option.bind_eq_some_iff.1 h
    obtain ⟨_, hd, -⟩ := Option.bind_eq_some_iff.1 h
    simp [hvalue ha, hvalue hb, hvalue hc, hvalue hd]
  next => cases h

theorem codePoint?_append_underscore (cs ds : List Char) :
    codePoint? (cs ++ '_' :: ds) = codePoint? cs := by
  by_cases hlength : 5 ≤ cs.length
  · match cs with
    | u :: _ :: _ :: _ :: _ :: _ =>
      by_cases hu : u = 'u'
      · subst hu
        rfl
      · simp [codePoint?, hu]
  · have hshort : codePoint? cs = none :=
      Option.eq_none_iff_forall_ne_some.2 fun x h => hlength (of_codePoint?_eq_some h).1
    rw [hshort, Option.eq_none_iff_forall_ne_some]
    intro x h
    -- the underscore stands where a digit would be
    refine (of_codePoint?_eq_some h).2 ?_
    obtain ⟨n, hn⟩ : ∃ n, 5 - cs.length = n + 1 := ⟨5 - cs.length - 1, by omega⟩
    rw [List.take_append, hn, List.take_succ_cons]
    exact List.mem_append_right _ (.head _)

theorem isPrefixOf_append_of_notMem {ps cs ds : List Char} {x : Char} (h : x ∉ ps) :
    ps.isPrefixOf (cs ++ x :: ds) = ps.isPrefixOf cs := by
  induction ps generalizing cs with
  | nil => simp
  | cons p ps ih =>
    rw [List.mem_cons, not_or] at h
    cases cs with
    | nil => simp [List.isPrefixOf, Ne.symm h.1]
    | cons c cs => rw [List.cons_append, List.isPrefixOf, List.isPrefixOf, ih h.2]

theorem operator?_append_underscore (cs ds : List Char) :
    operator? (cs ++ '_' :: ds) = operator? cs := by
  have hcodes : ∀ code ∈ operatorCodes, '_' ∉ code.1.toList := by decide
  unfold operator?
  congr 1
  exact List.find?_congr fun code hcode => isPrefixOf_append_of_notMem (hcodes code hcode)

/-- No escape goes on past an underscore. -/
theorem escape?_append_underscore (cs ds : List Char) :
    escape? (cs ++ '_' :: ds) = escape? cs := by
  unfold escape?
  rw [codePoint?_append_underscore, operator?_append_underscore]

theorem le_length_of_escape?_eq_some {cs : List Char} {n : Nat} {c : Char}
    (h : escape? cs = some (n, c)) : n ≤ cs.length := by
  unfold escape? at h
  split at h
  next d hd =>
    cases h
    unfold codePoint? at hd
    split at hd
    next => simp
    next => cases hd
  next =>
    obtain ⟨code, hcode, h⟩ := Option.map_eq_some_iff.1 h
    cases h
    have hstart : code.1.toList.isPrefixOf cs := List.find?_some
      (p := fun code : String × Char => code.1.toList.isPrefixOf cs) hcode
    rw [← String.length_toList]
    exact (List.isPrefixOf_iff_prefix.1 hstart).length_le

/-- What stands before an underscore is decoded as if nothing followed. -/
theorem decodeChars_append_underscore (cs ds : List Char) :
    decodeChars (cs ++ '_' :: ds) = decodeChars cs ++ '_' :: decodeChars ds := by
  induction cs using decodeChars.induct with
  | case1 =>
    rw [List.nil_append, decodeChars, decodeChars, List.nil_append]
    rfl
  | case2 cs n d hescape ih =>
    have hdrop : (cs ++ '_' :: ds).drop n = cs.drop n ++ '_' :: ds :=
      List.drop_append_of_le_length (le_length_of_escape?_eq_some hescape)
    rw [List.cons_append, decodeChars, decodeChars, if_pos rfl, if_pos rfl]
    simp only [escape?_append_underscore, hescape, hdrop]
    rw [ih, List.cons_append]
  | case3 cs hescape ih =>
    rw [List.cons_append, decodeChars, decodeChars, if_pos rfl, if_pos rfl]
    simp only [escape?_append_underscore, hescape]
    rw [ih, List.cons_append]
  | case4 c cs hc ih =>
    rw [List.cons_append, decodeChars, if_neg hc, ih, decodeChars, if_neg hc, List.cons_append]

/-- The mark of a setter stays when it is decoded. -/
theorem decode_append_setter (base : String) : decode (base ++ "_=") = decode base ++ "_=" := by
  unfold decode
  rw [← String.toList_inj]
  simp only [String.toList_append, String.toList_ofList]
  show decodeChars (base.toList ++ '_' :: ['=']) = decodeChars base.toList ++ '_' :: ['=']
  rw [decodeChars_append_underscore]
  simp [decodeChars]

theorem isSetter_decode {name : String} (h : isSetter name) : isSetter (decode name) := by
  obtain ⟨base, rfl⟩ := isSetter_iff.1 h
  exact isSetter_iff.2 ⟨decode base, (decode_append_setter base).symm⟩

/-- Taking the mark off before decoding takes it off the source name, if it is there before. -/
theorem decode_withoutSetter (name : String) : decode (withoutSetter name)
    = if isSetter name then withoutSetter (decode name) else decode name := by
  split
  next h =>
    obtain ⟨base, rfl⟩ := isSetter_iff.1 h
    rw [withoutSetter_append, decode_append_setter, withoutSetter_append]
  next h => rw [withoutSetter_eq_self_iff.2 (by simpa using h)]

end Name

open Name (getter isSetter withoutSetter)

/-! ## Source names -/

/-- The name that a symbol has in the source; a field has that of its value. -/
def Symbol.sourceName (s : Symbol) : String := Name.decode (getter s.name)

/-- How a symbol would be shown by its source name. -/
def Symbol.sourceKind (s : Symbol) : ExportKind :=
  if !s.has .accessor then .method
  else if isSetter s.sourceName then .setter
  else .getter

/-- The annotation `x` asks for an export of the symbol `r` and gives no name for it.  The symbol
is no constructor. -/
structure Env.AsksUnnamed (env : Env) (r : SymbolRef) (s : Symbol) (x : Annotation) : Prop where
  get : env.table.get? r = some s
  notConstructor : s.isConstructor = false
  symbol : x.symbol = some env.lib.jsExport
  args : ∀ name rest, x.args ≠ .str name :: rest

/-- The name for the export of a symbol that gives none. -/
def Symbol.defaultName (s : Symbol) : String :=
  if isSetter (getter s.name) then withoutSetter s.sourceName else s.sourceName

theorem Env.AsksUnnamed.exportOf?_eq {env : Env} {r : SymbolRef} {s : Symbol} {x : Annotation}
    (h : env.AsksUnnamed r s x) : env.exportOf? r x = some ⟨s.defaultName, x.span⟩ := by
  have hstored : env.table.name r = s.name := by
    unfold SymbolTable.name
    rw [h.get]
    rfl
  have hname : env.defaultJsName r = s.defaultName := by
    unfold defaultJsName
    simp only [h.get, Option.any_some, h.notConstructor, Bool.false_eq_true, if_false, hstored]
    exact Name.decode_withoutSetter (getter s.name)
  unfold exportOf?
  rw [if_pos h.symbol, hname]
  split
  next name rest hargs => exact absurd hargs (h.args name rest)
  next => rfl

variable {s s' : Symbol}

/-- Names that end in the mark as they are stored end in it in the source. -/
theorem isSetter_sourceName (h : isSetter (getter s.name)) : isSetter s.sourceName :=
  Name.isSetter_decode h

theorem isSetter_getter (h : isSetter s.name) : isSetter (getter s.name) := by
  rwa [Name.getter_of_isSetter h]

theorem defaultName_eq_iff (hsource : s'.sourceName = s.sourceName) :
    s'.defaultName = s.defaultName
      ↔ (isSetter s.sourceName → (isSetter (getter s'.name) ↔ isSetter (getter s.name))) := by
  unfold Symbol.defaultName
  rw [hsource]
  by_cases h : isSetter s.sourceName
  · have hne : withoutSetter s.sourceName ≠ s.sourceName := fun heq => by
      rw [Name.withoutSetter_eq_self_iff.1 heq] at h
      cases h
    by_cases hleft : isSetter (getter s'.name) <;> by_cases hright : isSetter (getter s.name) <;>
      simp [h, hleft, hright, hne, hne.symm]
  · have hleft : isSetter (getter s'.name) = false :=
      Bool.eq_false_iff.2 fun h' => h (hsource ▸ isSetter_sourceName h')
    have hright : isSetter (getter s.name) = false :=
      Bool.eq_false_iff.2 fun h' => h (isSetter_sourceName h')
    simp [h, hleft, hright]

theorem defaultName_eq_withoutSetter_iff : s.defaultName = withoutSetter s.sourceName
    ↔ (isSetter s.sourceName → isSetter (getter s.name)) := by
  unfold Symbol.defaultName
  by_cases h : isSetter (getter s.name)
  · simp [h]
  · rw [if_neg h, eq_comm, Name.withoutSetter_eq_self_iff]
    simp [h]

theorem exportKind_eq_sourceKind_iff : s.exportKind = s.sourceKind
    ↔ (s.has .accessor → isSetter s.sourceName → isSetter s.name) := by
  unfold Symbol.exportKind Symbol.sourceKind
  rw [show (Name.setterBase? s.name).isSome = isSetter s.name from rfl]
  by_cases haccessor : s.has .accessor
  · by_cases hstored : isSetter s.name
    · simp [haccessor, hstored, isSetter_sourceName (isSetter_getter hstored)]
    · by_cases hsource : isSetter s.sourceName <;> simp [haccessor, hstored, hsource]
  · simp [haccessor]

theorem exportKind_eq_iff (hmodifiers : s'.modifiers = s.modifiers) :
    s'.exportKind = s.exportKind
      ↔ (s.has .accessor → (isSetter s'.name ↔ isSetter s.name)) := by
  unfold Symbol.exportKind
  rw [show s'.has .accessor = s.has .accessor by simp [Symbol.has, hmodifiers],
    show (Name.setterBase? s.name).isSome = isSetter s.name from rfl,
    show (Name.setterBase? s'.name).isSome = isSetter s'.name from rfl]
  by_cases haccessor : s.has .accessor
  · by_cases hleft : isSetter s'.name <;> by_cases hright : isSetter s.name <;>
      simp [haccessor, hleft, hright]
  · simp [haccessor]

/-! ## Top theorem -/

/-- **Default names.**  An export that gives no name goes by the source name, or by that without the
mark of a setter.  It is without the mark exactly if that is stored unencoded wherever the source
name has it, and so it is with the kind of a setter among the forwarders.  Of two symbols with one
source name and the same modifiers, both go by one name and are of one kind exactly if the mark is
stored in both or in neither. -/
theorem defaultExport_iff {env : Env} {r : SymbolRef} {s : Symbol} {x : Annotation}
    (h : env.AsksUnnamed r s x) : ∃ jsName, env.exportOf? r x = some ⟨jsName, x.span⟩
      ∧ (jsName = withoutSetter s.sourceName ∨ jsName = s.sourceName)
      ∧ (jsName = withoutSetter s.sourceName
          ↔ (isSetter s.sourceName → isSetter (getter s.name)))
      ∧ (∀ a shown report, env.exportMembers? a r = some (shown, report) →
          ∀ f ∈ shown, ∃ e ∈ env.exportsOf a r,
            f.node = .forwarder e.jsName s.exportKind ∧ f.span = e.span)
      ∧ (s.exportKind = s.sourceKind
          ↔ (s.has .accessor → isSetter s.sourceName → isSetter s.name))
      ∧ ∀ r' s' x', env.AsksUnnamed r' s' x' → s'.modifiers = s.modifiers →
          s'.sourceName = s.sourceName →
          (env.exportOf? r' x' = some ⟨jsName, x'.span⟩
            ↔ (isSetter s.sourceName → (isSetter (getter s'.name) ↔ isSetter (getter s.name))))
          ∧ (s'.exportKind = s.exportKind
            ↔ (s.has .accessor → (isSetter s'.name ↔ isSetter s.name))) := by
  refine ⟨s.defaultName, h.exportOf?_eq, ?_, defaultName_eq_withoutSetter_iff, ?_,
    exportKind_eq_sourceKind_iff, ?_⟩
  · unfold Symbol.defaultName
    split
    next => exact .inl rfl
    next => exact .inr rfl
  · intro a shown report hmembers f hf
    replace hf : f ∈ env.forwarders a r := Env.fst_of_exportMembers? hmembers ▸ hf
    obtain ⟨s', e, hget, -, he, rfl⟩ := Env.exists_of_mem_forwarders hf
    obtain rfl : s' = s := Option.some.inj (hget.symm.trans h.get)
    exact ⟨e, he, rfl, rfl⟩
  · intro r' s' x' h' hmodifiers hsource
    rw [h'.exportOf?_eq, ← defaultName_eq_iff hsource]
    exact ⟨by simp, exportKind_eq_iff hmodifiers⟩

/-- A setter of `size`, stored under either of its names. -/
def sizeSetter (name : String) : Symbol :=
  { name, kind := .method, owner := some 30, modifiers := [.accessor]
    info := .method [.int] .unit }

/-- A class with the setter under both names. -/
def setters : List Declaration :=
  [⟨some SymbolTable.root, "app", .package⟩,
   ⟨some 29, "Api", .classDef false [] [Library.classTy Library.fresh.1.objectClass]⟩,
   ⟨some 30, "size_$eq", .method [.accessor] [.int] .unit⟩,
   ⟨some 30, "size_=", .method [.accessor] [.int] .unit⟩]

/-- An export annotation without a name. -/
def bareExport : Annotation := { symbol := some Library.fresh.1.jsExport, span := ⟨1, 2⟩ }

/-- With a code for its mark the setter keeps its source name and is shown as a getter; without, it
goes by another name. -/
theorem defaultExport_setters :
    (sizeSetter "size_$eq").sourceName = "size_="
      ∧ withoutSetter (sizeSetter "size_$eq").sourceName = "size"
      ∧ (Env.declaring setters).exportOf? (some 31) bareExport = some ⟨"size_=", ⟨1, 2⟩⟩
      ∧ (Env.declaring setters).exportOf? (some 32) bareExport ≠ some ⟨"size_=", ⟨1, 2⟩⟩
      ∧ (sizeSetter "size_$eq").exportKind ≠ (sizeSetter "size_$eq").sourceKind := by
  have hasks : ∀ id name, (Env.declaring setters).table.get? (some id) = some (sizeSetter name) →
      (Env.declaring setters).AsksUnnamed (some id) (sizeSetter name) bareExport :=
    fun id name hget => ⟨hget, rfl, by decide +kernel, by simp [bareExport]⟩
  have hencoded := hasks 31 "size_$eq" (by decide +kernel)
  have hsource : (sizeSetter "size_$eq").sourceName = "size_=" := by decide +kernel
  obtain ⟨jsName, hexport, hname, hiff, -, hkind, hsame⟩ := defaultExport_iff hencoded
  have hkept : jsName ≠ withoutSetter (sizeSetter "size_$eq").sourceName := by
    rw [Ne, hiff]
    decide +kernel
  obtain rfl : jsName = "size_=" := (hname.resolve_left hkept).trans hsource
  obtain ⟨hother, -⟩ := hsame _ _ _ (hasks 32 "size_=" (by decide +kernel)) rfl (by decide +kernel)
  refine ⟨hsource, by decide +kernel, hexport, fun h => ?_, fun h => ?_⟩
  · exact absurd (hother.1 h) (by decide +kernel)
  · exact absurd (hkind.1 h) (by decide +kernel)

end Interop
