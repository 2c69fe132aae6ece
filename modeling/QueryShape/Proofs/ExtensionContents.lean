import QueryShape.Proofs.BuiltSchema
import QueryShape.Proofs.Schema.Extending

/-!
# Extensions and definitions

An extension means the same as writing its content at the end of the definition that it extends:
the same definitions are accepted, and they make the same schema. The one exception are the
interfaces that an extension lists for an interface. They would be checked in the definition, but
are dropped from the extension, because they add nothing to the possible types of any type.

## What this module delivers

- `Source.TypeBody.append`, `Source.TypeBody.contributed`: contents one behind the other, and what
  an extension contributes.
- `Source.inlined`: definitions with the extensions of one type written in its definition.
- `NamedType.ofSource_appendAll`: a definition with the contents of extensions makes the type to
  which these extensions have been applied.
- `Schema.extension_contents`: definitions make the same schema as inlined.
- `Schema.interfaces_of_extension_dropped`: not so if interfaces of interfaces are inlined.
-/

set_option autoImplicit false

namespace QueryShape

open Source (TypeSystemDefinition TypeExtension TypeBody)

/-! ## Inlining -/

namespace Source

/-- The content of a type with more of the same kind behind it. -/
def TypeBody.append : TypeBody → TypeBody → TypeBody
  | .object interfaces fields, .object interfaces' fields' =>
      .object (interfaces ++ interfaces') (fields ++ fields')
  | .interface interfaces fields, .interface interfaces' fields' =>
      .interface (interfaces ++ interfaces') (fields ++ fields')
  | .union members, .union members' => .union (members ++ members')
  | .enum values, .enum values' => .enum (values ++ values')
  | .inputObject fields, .inputObject fields' => .inputObject (fields ++ fields')
  | body, _ => body

/-- What an extension contributes to a type: everything but the interfaces that it lists for an
interface. -/
def TypeBody.contributed : TypeBody → TypeBody
  | .interface _ fields => .interface [] fields
  | body => body

/-- The contents of the extensions of a type, as far as they are of its kind, in order. -/
def extensionContents (content : TypeBody → TypeBody) (name : String) (kind : TypeKind)
    (definitions : List (Option FileName × TypeSystemDefinition)) : List TypeBody :=
  ((definitions.filterMap fun entry => entry.2.extension?).filter fun added =>
    added.name = name ∧ added.body.kind = kind).map fun added => content added.body

/-- A definition of a type with contents at its end. -/
def TypeDefinition.appendAll (definition : TypeDefinition) (contents : List TypeBody) :
    TypeDefinition :=
  { definition with body := contents.foldl TypeBody.append definition.body }

/-- A definition once the extensions of a type have been inlined: the definition of that type gets
their contents, and they themselves go. -/
def TypeSystemDefinition.inlining (name : String) (kind : TypeKind) (contents : List TypeBody) :
    TypeSystemDefinition → Option TypeSystemDefinition
  | .type definition =>
      if definition.name = name ∧ definition.body.kind = kind then
        some (.type (definition.appendAll contents))
      else some (.type definition)
  | .extension added =>
      if added.name = name ∧ added.body.kind = kind then none else some (.extension added)
  | definition => some definition

/-- Definitions with the extensions of a type inlined, as far as they are of its kind. -/
def inlined (content : TypeBody → TypeBody) (name : String) (kind : TypeKind)
    (definitions : List (Option FileName × TypeSystemDefinition)) :
    List (Option FileName × TypeSystemDefinition) :=
  definitions.filterMap fun entry =>
    (entry.2.inlining name kind (extensionContents content name kind definitions)).map
      (entry.1, ·)

theorem TypeBody.kind_append (body content : TypeBody) :
    (body.append content).kind = body.kind := by
  cases body <;> cases content <;> rfl

end Source

/-! ## Types -/

theorem addEnumValues_append (locate : Position → Location) (table : Table EnumValue)
    (values values' : List Source.EnumValue) :
    addEnumValues locate table (values ++ values') =
      addEnumValues locate (addEnumValues locate table values) values' :=
  List.foldl_append

theorem NameSet.ofList_append (names others : List String) :
    NameSet.ofList (names ++ others) = (NameSet.ofList names).insertAll others :=
  List.foldl_append

/-- An object or interface can be extended in two steps. -/
theorem FieldedType.extend_append (file : Option FileName) (type : FieldedType)
    (interfaces interfaces' : List String) (fields fields' : List Source.FieldDefinition) :
    type.extend file (interfaces ++ interfaces') (fields ++ fields') =
      (type.extend file interfaces fields >>= fun middle =>
        middle.extend file interfaces' fields') := by
  simp only [extend, List.foldlM_append, List.foldl_append]
  cases fields.foldlM (addField file type.name) type.fields with
  | error error => rfl
  | ok table => rfl

namespace NamedType

variable {file : Option FileName}

/-- A definition with the content of an extension makes the type to which the extension has been
applied. -/
theorem ofSource_append (definition : Source.TypeDefinition) {extension : TypeExtension}
    (hkind : extension.body.kind = definition.body.kind) :
    ofSource ⟨file, false⟩
        { definition with body := definition.body.append extension.body.contributed } =
      (ofSource ⟨file, false⟩ definition >>= fun type => type.extend? file extension) := by
  obtain ⟨position, description, name, directives, body⟩ := definition
  obtain ⟨position', name', directives', body'⟩ := extension
  cases body with
  | scalar =>
      cases body' with
      | scalar => rfl
      | _ => cases hkind
  | object interfaces fields =>
      cases body' with
      | object interfaces' fields' =>
          simp only [ofSource, TypeBody.append, TypeBody.contributed, FieldedType.extend_append]
          cases FieldedType.extend file _ interfaces fields with
          | error error => rfl
          | ok type => rfl
      | _ => cases hkind
  | interface interfaces fields =>
      cases body' with
      | interface interfaces' fields' =>
          simp only [ofSource, TypeBody.append, TypeBody.contributed, FieldedType.extend_append]
          cases FieldedType.extend file _ interfaces fields with
          | error error => rfl
          | ok type => rfl
      | _ => cases hkind
  | union members =>
      cases body' with
      | union members' =>
          simp only [ofSource, TypeBody.append, TypeBody.contributed, NameSet.ofList_append]
          rfl
      | _ => cases hkind
  | enum values =>
      cases body' with
      | enum values' =>
          simp only [ofSource, TypeBody.append, TypeBody.contributed, addEnumValues_append]
          rfl
      | _ => cases hkind
  | inputObject fields =>
      cases body' with
      | inputObject fields' =>
          simp only [ofSource, TypeBody.append, TypeBody.contributed, List.foldlM_append]
          cases fields.foldlM (addInputField file name) .empty with
          | error error => rfl
          | ok table => rfl
      | _ => cases hkind

/-- The same for any number of extensions from one file. -/
theorem ofSource_appendAll (entries : List (Option FileName × TypeExtension))
    (definition : Source.TypeDefinition)
    (hentries : ∀ entry ∈ entries, entry.1 = file ∧ entry.2.body.kind = definition.body.kind) :
    ofSource ⟨file, false⟩
        (definition.appendAll (entries.map fun entry => entry.2.body.contributed)) =
      (ofSource ⟨file, false⟩ definition >>= fun type => type.extendAll entries) := by
  induction entries generalizing definition with
  | nil =>
      cases h : ofSource ⟨file, false⟩ definition with
      | error error => exact h
      | ok type => exact h
  | cons entry entries ih =>
      obtain ⟨⟨hfile, hkind⟩, hothers⟩ := List.forall_mem_cons.mp hentries
      have hrest := ih { definition with
        body := definition.body.append entry.2.body.contributed } fun other hother => by
          rw [TypeBody.kind_append]
          exact hothers other hother
      rw [ofSource_append definition hkind] at hrest
      refine hrest.trans ?_
      cases ofSource ⟨file, false⟩ definition with
      | error error => rfl
      | ok type =>
          show (type.extend? file entry.2 >>= fun middle => middle.extendAll entries) =
            type.extendAll (entry :: entries)
          rw [extendAll, List.foldlM_cons, hfile]
          rfl

end NamedType

/-! ## Entering inlined definitions -/

namespace SchemaDraft

section Entering

variable {draft : SchemaDraft} {entries : List (Origin × TypeSystemDefinition)} {name : String}
  {kind : TypeKind} {contents : List TypeBody}

/-- An entry once the extensions of a type have been inlined. -/
def inliningEntry (name : String) (kind : TypeKind) (contents : List TypeBody)
    (entry : Origin × TypeSystemDefinition) : Option (Origin × TypeSystemDefinition) :=
  (entry.2.inlining name kind contents).map (entry.1, ·)

/-- Whatever does not see the types and the extensions does not see inlining. -/
theorem filterMap_inliningEntry {α : Type} {view : Origin × TypeSystemDefinition → Option α}
    (htypes : ∀ origin definition, view (origin, .type definition) = none)
    (hextensions : ∀ origin added, view (origin, .extension added) = none) :
    (entries.filterMap (inliningEntry name kind contents)).filterMap view =
      entries.filterMap view := by
  rw [List.filterMap_filterMap]
  refine List.filterMap_congr fun entry _ => ?_
  obtain ⟨origin, definition⟩ := entry
  cases definition with
  | type definition =>
      simp only [inliningEntry, TypeSystemDefinition.inlining]
      split
      · exact (htypes _ _).trans (htypes _ _).symm
      · rfl
  | extension added =>
      simp only [inliningEntry, TypeSystemDefinition.inlining]
      split
      · exact (hextensions _ _).symm
      · rfl
  | roots block => rfl
  | directive definition => rfl

/-- Inlining does not change the names of the types that are defined. -/
theorem map_name_filterMap_inliningEntry :
    ((entries.filterMap (inliningEntry name kind contents)).filterMap fun entry =>
      entry.2.type?).map Source.TypeDefinition.name =
        (entries.filterMap fun entry => entry.2.type?).map Source.TypeDefinition.name := by
  rw [List.filterMap_filterMap, List.map_filterMap, List.map_filterMap]
  refine List.filterMap_congr fun entry _ => ?_
  obtain ⟨origin, definition⟩ := entry
  cases definition with
  | type definition =>
      simp only [inliningEntry, TypeSystemDefinition.inlining]
      split
      · rfl
      · rfl
  | extension added =>
      simp only [inliningEntry, TypeSystemDefinition.inlining]
      split
      · rfl
      · rfl
  | roots block => rfl
  | directive definition => rfl

/-- The extensions that are left are those that are not the type's own. -/
theorem filterMap_madeExtension?_inliningEntry :
    (entries.filterMap (inliningEntry name kind contents)).filterMap madeExtension? =
      (entries.filterMap madeExtension?).filter (!isOwn name kind ·) := by
  rw [List.filterMap_filterMap, List.filter_filterMap]
  refine List.filterMap_congr fun entry _ => ?_
  obtain ⟨origin, definition⟩ := entry
  cases definition with
  | type definition =>
      simp only [inliningEntry, TypeSystemDefinition.inlining]
      split
      · rfl
      · rfl
  | extension added =>
      simp only [inliningEntry, TypeSystemDefinition.inlining]
      split
      · next h =>
          have hown : isOwn name kind (origin.file, added) = true := decide_eq_true h
          simp [madeExtension?, TypeSystemDefinition.extension?, Option.filter, hown]
      · next h =>
          have hown : isOwn name kind (origin.file, added) = false := decide_eq_false h
          simp [madeExtension?, TypeSystemDefinition.extension?, Option.filter, hown]
  | roots block => rfl
  | directive definition => rfl

/-- Where names are distinct there is one definition of a type. -/
theorem eq_of_name_eq
    (hnodup : ((entries.filterMap fun entry => entry.2.type?).map
      Source.TypeDefinition.name).Nodup) {origin origin' : Origin}
    {definition definition' : Source.TypeDefinition}
    (hmem : (origin, .type definition) ∈ entries) (hmem' : (origin', .type definition') ∈ entries)
    (hname : definition.name = definition'.name) : definition = definition' :=
  List.inj_on_of_nodup_map hnodup (List.mem_filterMap.mpr ⟨_, hmem, rfl⟩)
    (List.mem_filterMap.mpr ⟨_, hmem', rfl⟩) hname

variable {definition : Source.TypeDefinition} {type extended : NamedType}

/-- If the definition of the type is admissible, with and without the contents of extensions, then
inlining does not change which definitions are admissible. -/
theorem forall_admissible_inliningEntry
    (hnodup : ((entries.filterMap fun entry => entry.2.type?).map
      Source.TypeDefinition.name).Nodup)
    (horigins : ∀ entry ∈ entries, entry.1 = ⟨none, false⟩)
    (hmem : (⟨none, false⟩, .type definition) ∈ entries) (hname : definition.name = name)
    (htype : NamedType.ofSource ⟨none, false⟩ definition = .ok type)
    (hextended : NamedType.ofSource ⟨none, false⟩ (definition.appendAll contents) =
      .ok extended) :
    (∀ entry ∈ entries.filterMap (inliningEntry name kind contents), Admissible entry) ↔
      ∀ entry ∈ entries, Admissible entry := by
  have hone : ∀ entry ∈ entries, (∀ result, inliningEntry name kind contents entry = some result →
      Admissible result) ↔ Admissible entry := by
    intro entry hentry
    obtain ⟨origin, given⟩ := entry
    obtain rfl : origin = ⟨none, false⟩ := horigins _ hentry
    cases given with
    | type given =>
        simp only [inliningEntry, TypeSystemDefinition.inlining]
        split
        · next h =>
            obtain rfl := eq_of_name_eq hnodup hentry hmem (h.1.trans hname.symm)
            simp only [Option.map_some, Option.some.injEq, forall_eq']
            exact ⟨fun hresult => ⟨⟨type, htype⟩, hresult.2⟩,
              fun hgiven => ⟨⟨extended, hextended⟩, hgiven.2⟩⟩
        · simp only [Option.map_some, Option.some.injEq, forall_eq']
    | extension added =>
        refine iff_of_true (fun result hresult => ?_) trivial
        simp only [inliningEntry, TypeSystemDefinition.inlining] at hresult
        split at hresult
        · exact nomatch hresult
        · cases hresult
          trivial
    | roots block => simp [inliningEntry, TypeSystemDefinition.inlining]
    | directive given => simp [inliningEntry, TypeSystemDefinition.inlining]
  constructor
  · intro h entry hentry
    refine (hone entry hentry).mp fun result hresult => h result ?_
    exact List.mem_filterMap.mpr ⟨entry, hentry, hresult⟩
  · intro h result hresult
    obtain ⟨entry, hentry, hresult⟩ := List.mem_filterMap.mp hresult
    exact (hone entry hentry).mpr (h entry hentry) result hresult

/-- The definitions can be entered exactly if they can be as inlined. -/
theorem enterable_inliningEntry
    (horigins : ∀ entry ∈ entries, entry.1 = ⟨none, false⟩)
    (hmem : (⟨none, false⟩, .type definition) ∈ entries) (hname : definition.name = name)
    (htype : NamedType.ofSource ⟨none, false⟩ definition = .ok type)
    (hextended : NamedType.ofSource ⟨none, false⟩ (definition.appendAll contents) =
      .ok extended) :
    draft.Enterable (entries.filterMap (inliningEntry name kind contents)) ↔
      draft.Enterable entries := by
  have hdirectives : (entries.filterMap (inliningEntry name kind contents)).filterMap
      (fun entry => entry.2.directive?) = entries.filterMap fun entry => entry.2.directive? :=
    filterMap_inliningEntry (fun _ _ => rfl) fun _ _ => rfl
  have hroots : ∀ kind', (entries.filterMap (inliningEntry name kind contents)).filterMap
      (madeRoot? kind') = entries.filterMap (madeRoot? kind') :=
    fun _ => filterMap_inliningEntry (fun _ _ => rfl) fun _ _ => rfl
  constructor
  · rintro ⟨hadmissible, htypes, hnew, hone⟩
    rw [map_name_filterMap_inliningEntry] at htypes
    rw [hdirectives] at hnew
    exact ⟨(forall_admissible_inliningEntry htypes.1 horigins hmem hname htype hextended).mp
      hadmissible, htypes, hnew, fun kind' => hroots kind' ▸ hone kind'⟩
  · rintro ⟨hadmissible, htypes, hnew, hone⟩
    refine ⟨(forall_admissible_inliningEntry htypes.1 horigins hmem hname htype hextended).mpr
      hadmissible, ?_, ?_, fun kind' => (hroots kind').symm ▸ hone kind'⟩
    · rw [map_name_filterMap_inliningEntry]
      exact htypes
    · rw [hdirectives]
      exact hnew

/-- A draft with another type in the place of one, and without the extensions of that type. -/
def replaced (draft : SchemaDraft) (name : String) (kind : TypeKind) (type : NamedType) :
    SchemaDraft :=
  { draft with
    types := draft.types.insert name type
    extensions := draft.extensions.filter (!isOwn name kind ·) }

/-- The type that a definition makes is there under its name. -/
theorem get?_entered (hkeys : draft.types.keys.Nodup) (h : draft.Enterable entries)
    {origin : Origin} (hmem : (origin, .type definition) ∈ entries)
    (htype : NamedType.ofSource origin definition = .ok type) :
    (draft.entered entries).types.get? definition.name = some type := by
  rw [Table.get?_eq_some_iff_mem (nodup_keys_types_entered hkeys h)]
  refine List.mem_append_right _ (List.mem_map.mpr ⟨type, ?_, ?_⟩)
  · exact List.mem_filterMap.mpr ⟨_, hmem, congrArg Except.toOption htype⟩
  · rw [NamedType.name_ofSource htype]

/-- Inlining changes the type itself and no other. -/
theorem bind_madeType?_inliningEntry (h : draft.Enterable entries)
    (horigins : ∀ entry ∈ entries, entry.1 = ⟨none, false⟩)
    (hmem : (⟨none, false⟩, .type definition) ∈ entries) (hname : definition.name = name)
    (hkind : definition.body.kind = kind)
    (hextended : NamedType.ofSource ⟨none, false⟩ (definition.appendAll contents) =
      .ok extended) {entry : Origin × TypeSystemDefinition} (hentry : entry ∈ entries) :
    (inliningEntry name kind contents entry).bind madeType? =
      (madeType? entry).map fun made => if made.name = name then extended else made := by
  obtain ⟨origin, given⟩ := entry
  obtain rfl : origin = ⟨none, false⟩ := horigins _ hentry
  cases given with
  | type given =>
      obtain ⟨⟨made, hmade⟩, -⟩ := h.admissible _ hentry
      have hresult : madeType? (⟨none, false⟩, .type given) = some made :=
        congrArg Except.toOption hmade
      rw [hresult, Option.map_some, NamedType.name_ofSource hmade]
      by_cases hgiven : given.name = name
      · obtain rfl := eq_of_name_eq h.types.1 hentry hmem (hgiven.trans hname.symm)
        simp only [inliningEntry, TypeSystemDefinition.inlining, if_pos (And.intro hname hkind),
          if_pos hname]
        exact congrArg Except.toOption hextended
      · have hother : ¬ (given.name = name ∧ given.body.kind = kind) := fun hboth => hgiven hboth.1
        simp only [inliningEntry, TypeSystemDefinition.inlining, if_neg hother, if_neg hgiven]
        exact hresult
  | extension added =>
      simp only [inliningEntry, TypeSystemDefinition.inlining]
      split
      · rfl
      · rfl
  | roots block => rfl
  | directive given => rfl

theorem filterMap_madeType?_inliningEntry (h : draft.Enterable entries)
    (horigins : ∀ entry ∈ entries, entry.1 = ⟨none, false⟩)
    (hmem : (⟨none, false⟩, .type definition) ∈ entries) (hname : definition.name = name)
    (hkind : definition.body.kind = kind)
    (hextended : NamedType.ofSource ⟨none, false⟩ (definition.appendAll contents) =
      .ok extended) :
    (entries.filterMap (inliningEntry name kind contents)).filterMap madeType? =
      (entries.filterMap madeType?).map
        fun made => if made.name = name then extended else made := by
  rw [List.filterMap_filterMap, List.map_filterMap]
  exact List.filterMap_congr fun entry hentry =>
    bind_madeType?_inliningEntry h horigins hmem hname hkind hextended hentry

/-- Writing under the name of a definition replaces the type that the definition makes. -/
theorem insert_types_entered (hkeys : draft.types.keys.Nodup) (h : draft.Enterable entries)
    (hdefined : name ∈ (entries.filterMap fun entry => entry.2.type?).map
      Source.TypeDefinition.name) (hextended : extended.name = name) :
    (draft.entered entries).types.insert name extended =
      ⟨draft.types.entries ++ ((entries.filterMap madeType?).map
        fun made => if made.name = name then extended else made).map
          fun type => (type.name, type)⟩ := by
  have hthere : name ∈ (draft.entered entries).types.keys := by
    rw [keys_types_entered h.admissible]
    exact List.mem_append_right _ hdefined
  -- What was in the draft before has other names.
  have hbefore : draft.types.entries.map
      (fun entry => if entry.1 = name then (name, extended) else entry) = draft.types.entries := by
    refine (List.map_congr_left fun entry hentry => if_neg fun heq => ?_).trans (List.map_id' _)
    exact h.types.2 name hdefined (heq ▸ List.mem_map_of_mem hentry)
  rw [Table.insert_of_mem hthere (nodup_keys_types_entered hkeys h), entered]
  simp only [List.map_append, hbefore, List.map_map]
  refine congrArg (fun entries => Table.mk (_ ++ entries)) (List.map_congr_left fun made _ => ?_)
  simp only [Function.comp_apply]
  split
  · rw [hextended]
  · rfl

/-- Entering the definitions as inlined puts the extended type in the place of the type. -/
theorem entered_inliningEntry (hkeys : draft.types.keys.Nodup) (hnone : draft.extensions = [])
    (h : draft.Enterable entries)
    (horigins : ∀ entry ∈ entries, entry.1 = ⟨none, false⟩)
    (hmem : (⟨none, false⟩, .type definition) ∈ entries) (hname : definition.name = name)
    (hkind : definition.body.kind = kind)
    (hextended : NamedType.ofSource ⟨none, false⟩ (definition.appendAll contents) =
      .ok extended) :
    draft.entered (entries.filterMap (inliningEntry name kind contents)) =
      (draft.entered entries).replaced name kind extended := by
  refine eq_of_roots ?_ ?_ (fun kind' => ?_) ?_
  · have hdefined : name ∈ (entries.filterMap fun entry => entry.2.type?).map
        Source.TypeDefinition.name :=
      List.mem_map.mpr ⟨definition, List.mem_filterMap.mpr ⟨_, hmem, rfl⟩, hname⟩
    have hextendedName : extended.name = name := (NamedType.name_ofSource hextended).trans hname
    rw [replaced, insert_types_entered hkeys h hdefined hextendedName, entered,
      filterMap_madeType?_inliningEntry h horigins hmem hname hkind hextended]
  · have hdirectives : (entries.filterMap (inliningEntry name kind contents)).filterMap
        madeDirective? = entries.filterMap madeDirective? :=
      filterMap_inliningEntry (fun _ _ => rfl) fun _ _ => rfl
    rw [entered, hdirectives]
    rfl
  · have hroots : (entries.filterMap (inliningEntry name kind contents)).filterMap
        (madeRoot? kind') = entries.filterMap (madeRoot? kind') :=
      filterMap_inliningEntry (fun _ _ => rfl) fun _ _ => rfl
    rw [rootEntry?_entered, hroots, ← rootEntry?_entered]
    cases kind' <;> rfl
  · rw [replaced, entered, entered, hnone, List.nil_append, List.nil_append,
      filterMap_madeExtension?_inliningEntry]

/-- What is entered later does not see that a type has been replaced. -/
theorem enterable_replaced (hname : name ∈ draft.types.keys) :
    (draft.replaced name kind type).Enterable entries ↔ draft.Enterable entries := by
  refine enterable_congr ?_ rfl fun kind' => ?_
  · exact (Table.keys_insert _ _ _).trans (if_pos hname)
  · cases kind' <;> rfl

theorem entered_replaced (hname : name ∈ draft.types.keys)
    (hnone : entries.filterMap madeExtension? = []) :
    (draft.replaced name kind type).entered entries =
      (draft.entered entries).replaced name kind type := by
  refine eq_of_roots ?_ rfl (fun kind' => ?_) ?_
  · exact (Table.insert_append hname).symm
  · cases kind' <;> rfl
  · simp only [replaced, entered, hnone, List.append_nil]

theorem finishes_replaced {types : Table NamedType} {schema : Schema} :
    (draft.replaced name kind type).Finishes types schema ↔ draft.Finishes types schema :=
  ⟨fun h => ⟨h.query, h.mutation, h.subscription, h.answered, h.schema⟩,
    fun h => ⟨h.query, h.mutation, h.subscription, h.answered, h.schema⟩⟩

/-- A draft leads to the same types with the extensions of a type, and with the type to which they
have been applied. -/
theorem foldlM_applyExtension_replaced {after : Table NamedType}
    (htype : draft.types.get? name = some type) :
    draft.extensions.foldlM applyExtension draft.types = .ok after ↔
      ∃ extended, type.extendAll (draft.extensions.filter (isOwn name type.kind)) = .ok extended ∧
        (draft.replaced name type.kind extended).extensions.foldlM applyExtension
          (draft.replaced name type.kind extended).types = .ok after :=
  foldlM_applyExtension_eq_ok_iff draft.extensions htype

end Entering

end SchemaDraft

/-! ## Building inlined definitions -/

theorem NamedType.kind_ofSource {origin : Origin} {definition : Source.TypeDefinition}
    {type : NamedType} (h : NamedType.ofSource origin definition = .ok type) :
    type.kind = definition.body.kind := by
  rw [ofSource] at h
  cases hbody : definition.body with
  | object interfaces fields =>
      simp only [hbody, map_eq_ok] at h
      obtain ⟨fielded, -, rfl⟩ := h
      rfl
  | interface interfaces fields =>
      simp only [hbody, map_eq_ok] at h
      obtain ⟨fielded, -, rfl⟩ := h
      rfl
  | inputObject fields =>
      simp only [hbody, bind_eq_ok] at h
      obtain ⟨table, -, h⟩ := h
      cases h
      rfl
  | _ =>
      simp only [hbody] at h
      cases h
      rfl

namespace Schema

open SchemaDraft

section Inlined

variable {definitions : List (Option FileName × TypeSystemDefinition)} {name : String}
  {kind : TypeKind}

theorem givenEntries_inlined (content : TypeBody → TypeBody) :
    givenEntries (Source.inlined content name kind definitions) =
      (givenEntries definitions).filterMap
        (inliningEntry name kind (Source.extensionContents content name kind definitions)) := by
  rw [givenEntries, givenEntries, Source.inlined, List.map_filterMap, List.filterMap_map]
  refine List.filterMap_congr fun entry _ => ?_
  rw [Function.comp_apply, inliningEntry, Option.map_map]
  rfl

/-- The contents of the type's own extensions, as these are loaded. -/
theorem extensionContents_eq (content : TypeBody → TypeBody) :
    Source.extensionContents content name kind definitions =
      (((givenEntries definitions).filterMap madeExtension?).filter (isOwn name kind)).map
        fun entry => content entry.2.body := by
  have hextensions : (definitions.filterMap fun entry => entry.2.extension?) =
      ((givenEntries definitions).filterMap madeExtension?).map Prod.snd := by
    rw [givenEntries, List.filterMap_map, List.map_filterMap]
    refine List.filterMap_congr fun entry _ => ?_
    rw [Function.comp_apply, madeExtension?, Option.map_map]
    exact Option.map_id'.symm
  rw [Source.extensionContents, hextensions, List.filter_map, List.map_map]
  rfl

/-- The type's own extensions, as they are loaded. -/
def ownExtensions (name : String) (kind : TypeKind)
    (definitions : List (Option FileName × TypeSystemDefinition)) :
    List (Option FileName × TypeExtension) :=
  ((givenEntries definitions).filterMap madeExtension?).filter (isOwn name kind)

theorem extensions_entered : (SchemaDraft.empty.entered
    (givenEntries definitions ++ introspectionEntries)).extensions.filter (isOwn name kind) =
      ownExtensions name kind definitions := by
  have hextensions : (givenEntries definitions ++ introspectionEntries).filterMap madeExtension? =
      (givenEntries definitions).filterMap madeExtension? := by
    rw [List.filterMap_append, introspectionEntries_extensions, List.append_nil]
  exact congrArg (List.filter (isOwn name kind)) hextensions

/-- The definition with the contents of the extensions makes the type to which they have been
applied, where all stand in one file. -/
theorem ofSource_inlining (hfiles : ∀ entry ∈ definitions, entry.1 = none)
    {definition : Source.TypeDefinition} (hkind : definition.body.kind = kind) :
    NamedType.ofSource ⟨none, false⟩ (definition.appendAll
        (Source.extensionContents TypeBody.contributed name kind definitions)) =
      (NamedType.ofSource ⟨none, false⟩ definition >>= fun type =>
        type.extendAll (ownExtensions name kind definitions)) := by
  rw [extensionContents_eq]
  refine NamedType.ofSource_appendAll _ definition fun added hadded => ?_
  obtain ⟨hmade, hown⟩ := List.mem_filter.mp hadded
  obtain ⟨entry, hentry, hmade⟩ := List.mem_filterMap.mp hmade
  obtain ⟨given, hgiven, rfl⟩ := List.mem_map.mp hentry
  obtain ⟨extension, -, rfl⟩ := Option.map_eq_some_iff.mp hmade
  exact ⟨hfiles given hgiven, (of_decide_eq_true hown).2.trans hkind.symm⟩

/-- Once the extended type is known, the inlined definitions can be entered if the definitions can,
and lead to a draft with the type replaced. -/
theorem entered_inlined (hfiles : ∀ entry ∈ definitions, entry.1 = none)
    {definition : Source.TypeDefinition} (hmem : (none, .type definition) ∈ definitions)
    (hname : definition.name = name) (hkind : definition.body.kind = kind)
    {type extended : NamedType}
    (htype : NamedType.ofSource ⟨none, false⟩ definition = .ok type)
    (hextended : type.extendAll (ownExtensions name kind definitions) = .ok extended) :
    (SchemaDraft.empty.Enterable (givenEntries
          (Source.inlined TypeBody.contributed name kind definitions) ++ introspectionEntries) ↔
        SchemaDraft.empty.Enterable (givenEntries definitions ++ introspectionEntries)) ∧
      (SchemaDraft.empty.Enterable (givenEntries definitions ++ introspectionEntries) →
        SchemaDraft.empty.entered (givenEntries
            (Source.inlined TypeBody.contributed name kind definitions) ++ introspectionEntries) =
          (SchemaDraft.empty.entered
            (givenEntries definitions ++ introspectionEntries)).replaced name kind extended) := by
  have horigins : ∀ entry ∈ givenEntries definitions, entry.1 = ⟨none, false⟩ := by
    intro entry hentry
    obtain ⟨given, hgiven, rfl⟩ := List.mem_map.mp hentry
    rw [hfiles given hgiven]
  have hgiven : (⟨none, false⟩, .type definition) ∈ givenEntries definitions :=
    List.mem_map.mpr ⟨_, hmem, rfl⟩
  have hinlined := @ofSource_inlining definitions name kind hfiles definition hkind
  rw [htype] at hinlined
  have hresult := hinlined.trans hextended
  have hkeys : SchemaDraft.empty.types.keys.Nodup := by decide
  rw [givenEntries_inlined, enterable_append, enterable_append, ← entered_append, ← entered_append,
    enterable_inliningEntry horigins hgiven hname htype hresult]
  have hreplaced : ∀ h : SchemaDraft.empty.Enterable (givenEntries definitions),
      SchemaDraft.empty.entered ((givenEntries definitions).filterMap (inliningEntry name kind
          (Source.extensionContents TypeBody.contributed name kind definitions))) =
        (SchemaDraft.empty.entered (givenEntries definitions)).replaced name kind extended :=
    fun h => entered_inliningEntry hkeys rfl h horigins hgiven hname hkind hresult
  have hthere : SchemaDraft.empty.Enterable (givenEntries definitions) →
      name ∈ (SchemaDraft.empty.entered (givenEntries definitions)).types.keys := by
    intro h
    rw [← hname]
    exact Table.mem_keys_of_get? (get?_entered hkeys h hgiven htype)
  constructor
  · refine and_congr_right fun h => ?_
    rw [hreplaced h, enterable_replaced (hthere h)]
  · rintro ⟨h, -⟩
    rw [hreplaced h, entered_replaced (hthere h) introspectionEntries_extensions]

/-- Where all definitions stand in one file, they make the same schema with the extensions of a type
and with these inlined. -/
theorem ofDefinitions_inlined_iff (hfiles : ∀ entry ∈ definitions, entry.1 = none)
    {definition : Source.TypeDefinition} (hmem : (none, .type definition) ∈ definitions)
    (hname : definition.name = name) (hkind : definition.body.kind = kind) {schema : Schema} :
    Schema.ofDefinitions definitions = .ok schema ↔
      Schema.ofDefinitions (Source.inlined TypeBody.contributed name kind definitions) =
        .ok schema := by
  have hgiven : (⟨none, false⟩, .type definition) ∈
      givenEntries definitions ++ introspectionEntries :=
    List.mem_append_left _ (List.mem_map.mpr ⟨_, hmem, rfl⟩)
  have hkeys : SchemaDraft.empty.types.keys.Nodup := by decide
  rw [ofDefinitions_eq_ok_iff, ofDefinitions_eq_ok_iff]
  constructor
  · -- The definition makes a type, and its own extensions can be applied to that first.
    rintro ⟨_, types, ⟨h, rfl⟩, htypes, hfinishes⟩
    obtain ⟨⟨type, htype⟩, -⟩ := h.admissible _ hgiven
    have hget := get?_entered hkeys h hgiven htype
    obtain rfl : type.kind = kind := (NamedType.kind_ofSource htype).trans hkind
    rw [hname] at hget
    obtain ⟨extended, hextended, htypes'⟩ := (foldlM_applyExtension_replaced hget).mp htypes
    rw [extensions_entered] at hextended
    obtain ⟨henterable, hreplaced⟩ := entered_inlined hfiles hmem hname hkind htype hextended
    refine ⟨_, types, ⟨henterable.mpr h, rfl⟩, ?_, ?_⟩
    · rw [hreplaced h]
      exact htypes'
    · rw [hreplaced h]
      exact finishes_replaced.mpr hfinishes
  · -- The definition with all contents makes a type, so it made one before they were added.
    rintro ⟨_, types, ⟨h', rfl⟩, htypes, hfinishes⟩
    have hmem' : (⟨none, false⟩, .type (definition.appendAll
        (Source.extensionContents TypeBody.contributed name kind definitions))) ∈
          givenEntries (Source.inlined TypeBody.contributed name kind definitions) ++
            introspectionEntries := by
      refine List.mem_append_left _ (List.mem_map.mpr ⟨(none, _), ?_, rfl⟩)
      refine List.mem_filterMap.mpr ⟨_, hmem, ?_⟩
      simp only [TypeSystemDefinition.inlining, if_pos (And.intro hname hkind), Option.map_some]
    obtain ⟨⟨extended, hresult⟩, -⟩ := h'.admissible _ hmem'
    obtain ⟨type, htype, hextended⟩ := bind_eq_ok.mp
      ((ofSource_inlining hfiles hkind).symm.trans hresult)
    obtain ⟨henterable, hreplaced⟩ := entered_inlined hfiles hmem hname hkind htype hextended
    have h := henterable.mp h'
    have hget := get?_entered hkeys h hgiven htype
    obtain rfl : type.kind = kind := (NamedType.kind_ofSource htype).trans hkind
    rw [hname] at hget
    rw [hreplaced h] at htypes hfinishes
    refine ⟨_, types, ⟨h, rfl⟩, (foldlM_applyExtension_replaced hget).mpr ?_,
      finishes_replaced.mp hfinishes⟩
    rw [extensions_entered]
    exact ⟨extended, hextended, htypes⟩

/-- Definitions without the files that they stand in. -/
def withoutFiles (definitions : List (Option FileName × TypeSystemDefinition)) :
    List (Option FileName × TypeSystemDefinition) :=
  definitions.map fun entry => (none, entry.2)

theorem map_unplaced_withoutFiles :
    (withoutFiles definitions).map (fun entry => entry.2.unplaced) =
      definitions.map fun entry => entry.2.unplaced := by
  rw [withoutFiles, List.map_map]
  rfl

/-- Inlining does not see files. -/
theorem map_unplaced_inlined_withoutFiles (content : TypeBody → TypeBody) :
    (Source.inlined content name kind (withoutFiles definitions)).map
        (fun entry => entry.2.unplaced) =
      (Source.inlined content name kind definitions).map fun entry => entry.2.unplaced := by
  have hcontents : Source.extensionContents content name kind (withoutFiles definitions) =
      Source.extensionContents content name kind definitions := by
    rw [Source.extensionContents, Source.extensionContents, withoutFiles, List.filterMap_map]
    rfl
  rw [Source.inlined, Source.inlined, hcontents, withoutFiles, List.filterMap_map,
    List.map_filterMap, List.map_filterMap]
  refine List.filterMap_congr fun entry _ => ?_
  rw [Function.comp_apply, Option.map_map, Option.map_map]
  rfl

/-- Definitions make the same schema, up to locations, with the extensions of a type and with the
contents of these written in its definition. Only the interfaces that are listed for an interface
count nothing in an extension. -/
theorem extension_contents {file : Option FileName} {definition : Source.TypeDefinition}
    (hmem : (file, .type definition) ∈ definitions) :
    SucceedAlike (fun schema schema' : Schema => schema.unplaced = schema'.unplaced)
      (Schema.ofDefinitions definitions)
      (Schema.ofDefinitions (Source.inlined TypeBody.contributed definition.name
        definition.body.kind definitions)) := by
  -- Files matter for locations only, so all definitions may as well stand in one.
  have hfiles : ∀ entry ∈ withoutFiles definitions, entry.1 = none := by
    intro entry hentry
    obtain ⟨given, -, rfl⟩ := List.mem_map.mp hentry
    rfl
  have hmem' : (none, .type definition) ∈ withoutFiles definitions :=
    List.mem_map.mpr ⟨_, hmem, rfl⟩
  have hinlined : SucceedAlike Eq (Schema.ofDefinitions (withoutFiles definitions))
      (Schema.ofDefinitions (Source.inlined TypeBody.contributed definition.name
        definition.body.kind (withoutFiles definitions))) := by
    refine .of_exists (fun schema hschema => ?_) fun schema hschema => ?_
    · exact ⟨schema, (ofDefinitions_inlined_iff hfiles hmem' rfl rfl).mp hschema, rfl⟩
    · exact ⟨schema, (ofDefinitions_inlined_iff hfiles hmem' rfl rfl).mpr hschema⟩
  have hlast : SucceedAlike (fun schema schema' : Schema => schema.unplaced = schema'.unplaced)
      (Schema.ofDefinitions (withoutFiles definitions))
      (Schema.ofDefinitions (Source.inlined TypeBody.contributed definition.name
        definition.body.kind definitions)) :=
    hinlined.trans (Schema.ofDefinitions_alike (map_unplaced_inlined_withoutFiles _))
      fun _ _ _ heq hsame => heq ▸ hsame
  exact (Schema.ofDefinitions_alike map_unplaced_withoutFiles.symm).trans hlast
    fun _ _ _ hsame hsame' => hsame.trans hsame'

end Inlined

end Schema

/-! ## Samples -/

namespace Sample

/-- The interfaces that a type of a schema lists. -/
def listed (name : String) (schema : Schema) : Option (List String) :=
  ((schema.type? name).bind NamedType.fielded?).map FieldedType.interfaces

theorem listed_unplaced (name : String) (schema : Schema) :
    listed name schema.unplaced = listed name schema := by
  rw [listed, listed, Schema.type?, Schema.unplaced, Table.get?_map]
  show (((schema.types.get? name).map NamedType.unplaced).bind NamedType.fielded?).map _ =
    ((schema.types.get? name).bind NamedType.fielded?).map _
  cases schema.types.get? name with
  | none => rfl
  | some type =>
      simp only [Option.map_some, Option.bind_some, NamedType.fielded?_unplaced, Option.map_map]
      rfl

/-- The definitions of a sample that extends an object, in one text. -/
def extendedObject : List (Option FileName × TypeSystemDefinition) :=
  sourceTypes.map (none, ·)

/-- `interface Item { id: Int }` and `extend interface Item implements Node { name: String }`. -/
def extendedInterface : List (Option FileName × TypeSystemDefinition) :=
  [sourceType "Node" (.interface [] [sourceField "id" "Int"]),
    sourceType "Item" (.interface [] [sourceField "id" "Int"]),
    .extension ⟨position, "Item", [], .interface ["Node"] [sourceField "name" "String"]⟩,
    sourceType "Query" (.object [] [sourceField "item" "Item"])].map (none, ·)

end Sample

theorem Schema.extension_contents_sample : ∃ schema schema',
    Schema.ofDefinitions Sample.extendedObject = .ok schema ∧
      Schema.ofDefinitions (Source.inlined TypeBody.contributed "User" .object
        Sample.extendedObject) = .ok schema' ∧
      Sample.listed "User" schema = some ["Node"] ∧ schema.unplaced = schema'.unplaced := by
  have hlisted : (Schema.ofDefinitions Sample.extendedObject).toOption.bind
      (Sample.listed "User") = some ["Node"] := by
    decide +kernel
  obtain ⟨schema, hschema, hlisted⟩ := Option.bind_eq_some_iff.mp hlisted
  have hschema := Sample.mem_toOption.mp hschema
  have hmem : (none, Sample.sourceType "User" (.object [] [Sample.sourceField "id" "Int"])) ∈
      Sample.extendedObject := by
    simp [Sample.extendedObject, Sample.sourceTypes]
  obtain ⟨schema', hschema', hsame⟩ := (Schema.extension_contents hmem).exists_ok hschema
  exact ⟨schema, schema', hschema, hschema', hlisted, hsame⟩

/-- Interfaces that an extension lists for an interface are dropped, though they would be kept in
the definition. -/
theorem Schema.interfaces_of_extension_dropped :
    (none, Sample.sourceType "Item" (.interface [] [Sample.sourceField "id" "Int"])) ∈
        Sample.extendedInterface ∧
      ¬ SucceedAlike (fun schema schema' : Schema => schema.unplaced = schema'.unplaced)
        (Schema.ofDefinitions Sample.extendedInterface)
        (Schema.ofDefinitions (Source.inlined id "Item" .interface Sample.extendedInterface)) := by
  refine ⟨by simp [Sample.extendedInterface], fun halike => ?_⟩
  have hdropped : (Schema.ofDefinitions Sample.extendedInterface).toOption.bind
      (Sample.listed "Item") = some [] := by
    decide +kernel
  have hkept : (Schema.ofDefinitions
      (Source.inlined id "Item" .interface Sample.extendedInterface)).toOption.bind
        (Sample.listed "Item") = some ["Node"] := by
    decide +kernel
  obtain ⟨schema, hschema, hdropped⟩ := Option.bind_eq_some_iff.mp hdropped
  obtain ⟨other, hother, hkept⟩ := Option.bind_eq_some_iff.mp hkept
  obtain ⟨schema', hschema', hsame⟩ := halike.exists_ok (Sample.mem_toOption.mp hschema)
  obtain rfl : schema' = other :=
    Except.ok.inj (hschema'.symm.trans (Sample.mem_toOption.mp hother))
  have hlisted := congrArg (Sample.listed "Item") hsame
  rw [Sample.listed_unplaced, Sample.listed_unplaced, hdropped, hkept] at hlisted
  exact absurd hlisted (by decide)

end QueryShape
