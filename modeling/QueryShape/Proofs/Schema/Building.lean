import QueryShape.Proofs.Executable.Failures
import QueryShape.Schema.Draft

/-!
# Schemas that have been built

A schema is built from a draft, and a draft holds what has been loaded from any number of texts.
Loading enters types under their own names and never takes one out; extensions change a type but
not its name. Building refuses a draft with a name that is used and not defined. So the types of a
schema that has been built answer for each other: whatever it refers to is defined.

## What this module delivers

- `SchemaDraft.Loaded`, `Schema.Built`: drafts and schemas as they come out of loading and building.
- `TypesGrow`: what loading and extending do to the table of types.
- `Schema.Coherent`: what a schema refers to is defined, and composite types have possible types.
- `SchemaDraft.coherent_of_build`, `Schema.Built.coherent`: schemas that are built are coherent.
- `Schema.Coherent.onUnion_of_causes`: such a schema is to blame for no fault but that a union has
  no fields.
-/

set_option autoImplicit false

namespace QueryShape

open Source (TypeSystemDefinition TypeExtension)

/-! ## Drafts and schemas -/

/-- The drafts that loading leads to, from any texts in any order. -/
inductive SchemaDraft.Loaded : SchemaDraft → Prop
  | empty : Loaded .empty
  | addAll {draft after : SchemaDraft} {file : Option FileName}
      {definitions : List TypeSystemDefinition} :
      Loaded draft → draft.addAll ⟨file, false⟩ definitions = .ok after → Loaded after

namespace SchemaDraft

variable {draft after : SchemaDraft}

theorem Loaded.load (h : draft.Loaded) {file : Option FileName} {text : String}
    (hload : draft.load file text = .ok after) : after.Loaded := by
  rw [SchemaDraft.load] at hload
  split at hload
  · exact nomatch hload
  · exact h.addAll hload

theorem Loaded.loadFile (h : draft.Loaded) {tree : FileTree} {path : String}
    (hload : draft.loadFile tree path = .ok after) : after.Loaded := by
  rw [SchemaDraft.loadFile] at hload
  split at hload
  · exact nomatch hload
  · exact h.load hload

theorem Loaded.loadFiles {tree : FileTree} (paths : List String) {draft : SchemaDraft}
    (h : draft.Loaded) (hload : draft.loadFiles tree paths = .ok after) : after.Loaded := by
  induction paths generalizing draft with
  | nil =>
      cases hload
      exact h
  | cons path paths ih =>
      rw [SchemaDraft.loadFiles, List.foldlM_cons, bind_eq_ok] at hload
      obtain ⟨middle, hfirst, hrest⟩ := hload
      exact ih (h.loadFile hfirst) hrest

end SchemaDraft

/-- A schema that is built from a loaded draft. -/
def Schema.Built (schema : Schema) : Prop :=
  ∃ draft : SchemaDraft, draft.Loaded ∧ draft.build = .ok schema

theorem Schema.built_of_ofText {schema : Schema} {text : String}
    (h : Schema.ofText text = .ok schema) : schema.Built := by
  rw [Schema.ofText, bind_eq_ok] at h
  obtain ⟨draft, hload, hbuild⟩ := h
  exact ⟨draft, SchemaDraft.Loaded.empty.load hload, hbuild⟩

/-! ## Tables of types -/

theorem Table.isSome_get?_foldl_insert {α : Type} {name : String} (entries : List (String × α))
    (table : Table α) :
    ((entries.foldl (fun table entry => table.insert entry.1 entry.2) table).get? name).isSome =
      true ↔ (table.get? name).isSome = true ∨ name ∈ entries.map Prod.fst := by
  induction entries generalizing table with
  | nil => simp
  | cons entry entries ih =>
      rw [List.foldl_cons, ih, Table.get?_insert, List.map_cons, List.mem_cons]
      split
      · next heq => simp [heq]
      · next hne => simp [hne]

/-- A name is bound in a table of entries if there is an entry for it. -/
theorem Table.isSome_get?_ofEntries {α : Type} {name : String} {entries : List (String × α)} :
    ((Table.ofEntries entries).get? name).isSome = true ↔ name ∈ entries.map Prod.fst := by
  rw [Table.ofEntries, isSome_get?_foldl_insert]
  simp

/-- Every type is bound to its own name. -/
def NamesTypes (types : Table NamedType) : Prop :=
  ∀ name type, types.get? name = some type → type.name = name

/-- What steps of loading and extending do to a table of types: names keep to their types, and all
names that are bound stay bound. -/
structure TypesGrow (before after : Table NamedType) : Prop where
  named : NamesTypes before → NamesTypes after
  keeps : ∀ name, (before.get? name).isSome = true → (after.get? name).isSome = true

namespace TypesGrow

variable {before middle after : Table NamedType}

theorem refl (types : Table NamedType) : TypesGrow types types :=
  ⟨fun h => h, fun _ h => h⟩

theorem trans (h : TypesGrow before middle) (h' : TypesGrow middle after) :
    TypesGrow before after :=
  ⟨fun hnamed => h'.named (h.named hnamed), fun name hname => h'.keeps name (h.keeps name hname)⟩

/-- A type is entered under its own name. -/
theorem insert {types : Table NamedType} {name : String} {type : NamedType}
    (hname : NamesTypes types → type.name = name) : TypesGrow types (types.insert name type) := by
  constructor
  · intro hnamed other present hget
    rw [Table.get?_insert] at hget
    split at hget
    · next heq =>
        obtain rfl := Option.some.inj hget
        exact (hname hnamed).trans heq.symm
    · exact hnamed other present hget
  · intro other hother
    rw [Table.get?_insert]
    split
    · rfl
    · exact hother

/-- A run of steps, each of which lets the table grow. -/
theorem of_foldlM {σ ε α : Type} (types : σ → Table NamedType) {step : σ → α → Except ε σ}
    (hstep : ∀ state entry next, step state entry = .ok next → TypesGrow (types state) (types next))
    (entries : List α) {state result : σ} (h : entries.foldlM step state = .ok result) :
    TypesGrow (types state) (types result) := by
  induction entries generalizing state with
  | nil =>
      cases h
      exact .refl _
  | cons entry entries ih =>
      rw [List.foldlM_cons, bind_eq_ok] at h
      obtain ⟨next, hfirst, hrest⟩ := h
      exact (hstep state entry next hfirst).trans (ih hrest)

end TypesGrow

/-! ## Loading -/

theorem map_eq_ok {ε α β : Type} {f : α → β} {step : Except ε α} {result : β} :
    f <$> step = .ok result ↔ ∃ value, step = .ok value ∧ f value = result := by
  cases step with
  | error error => simp
  | ok value => simp

theorem FieldedType.name_extend {file : Option FileName} {type result : FieldedType}
    {interfaces : List String} {fields : List Source.FieldDefinition}
    (h : type.extend file interfaces fields = .ok result) : result.name = type.name := by
  rw [FieldedType.extend, bind_eq_ok] at h
  obtain ⟨table, -, h⟩ := h
  cases h
  rfl

/-- A type has the name of its definition. -/
theorem NamedType.name_ofSource {origin : Origin} {definition : Source.TypeDefinition}
    {type : NamedType} (h : NamedType.ofSource origin definition = .ok type) :
    type.name = definition.name := by
  rw [NamedType.ofSource] at h
  cases hbody : definition.body with
  | object interfaces fields =>
      simp only [hbody, map_eq_ok] at h
      obtain ⟨fielded, hextend, rfl⟩ := h
      exact FieldedType.name_extend hextend
  | interface interfaces fields =>
      simp only [hbody, map_eq_ok] at h
      obtain ⟨fielded, hextend, rfl⟩ := h
      exact FieldedType.name_extend hextend
  | inputObject fields =>
      simp only [hbody, bind_eq_ok] at h
      obtain ⟨table, -, h⟩ := h
      cases h
      rfl
  | _ =>
      simp only [hbody] at h
      cases h
      rfl

/-- An extension does not change the name of a type. -/
theorem NamedType.name_extend? {file : Option FileName} {type result : NamedType}
    {extension : TypeExtension} (h : type.extend? file extension = .ok result) :
    result.name = type.name := by
  unfold NamedType.extend? at h
  split at h
  · cases h
    rfl
  · obtain ⟨table, -, h⟩ := bind_eq_ok.mp h
    cases h
    rfl
  · obtain ⟨fielded, hextend, rfl⟩ := map_eq_ok.mp h
    exact FieldedType.name_extend hextend
  · obtain ⟨fielded, hextend, rfl⟩ := map_eq_ok.mp h
    exact FieldedType.name_extend hextend
  · cases h
    rfl
  · cases h
    rfl
  · exact nomatch h

namespace SchemaDraft

variable {draft after : SchemaDraft} {origin : Origin}

theorem addType_eq_ok {type : NamedType} (h : draft.addType origin type = .ok after) :
    after.types = draft.types.insert type.name type := by
  rw [addType] at h
  split at h
  · exact nomatch h
  · split at h
    · exact nomatch h
    · cases h
      rfl

theorem types_addDirective {definition : Source.DirectiveDefinition}
    (h : draft.addDirective origin definition = .ok after) : after.types = draft.types := by
  rw [addDirective_eq] at h
  split at h
  · exact nomatch h
  · split at h
    · exact nomatch h
    · split at h
      · exact nomatch h
      · cases h
        rfl

theorem types_addRoot {location : Location} {block : Source.RootBlock} {kind : OperationKind}
    (h : addRoot location block draft kind = .ok after) : after.types = draft.types := by
  rw [addRoot] at h
  split at h
  · cases h
    rfl
  · exact nomatch h
  · cases h
    cases kind with
    | query => rfl
    | mutation => rfl
    | subscription => rfl

/-- Entering a definition only enters a type, if anything. -/
theorem typesGrow_add {definition : TypeSystemDefinition}
    (h : add origin draft definition = .ok after) : TypesGrow draft.types after.types := by
  cases definition with
  | type definition =>
      rw [add, bind_eq_ok] at h
      obtain ⟨type, -, h⟩ := h
      rw [addType_eq_ok h]
      exact .insert fun _ => rfl
  | directive definition =>
      rw [types_addDirective h]
      exact .refl _
  | roots block =>
      refine TypesGrow.of_foldlM SchemaDraft.types ?_ _ h
      intro state kind next hnext
      rw [types_addRoot hnext]
      exact .refl _
  | extension extension =>
      cases h
      exact .refl _

theorem typesGrow_addAll {definitions : List TypeSystemDefinition}
    (h : draft.addAll origin definitions = .ok after) : TypesGrow draft.types after.types :=
  TypesGrow.of_foldlM SchemaDraft.types (fun _ _ _ => typesGrow_add) definitions h

/-- The types that are defined in a text are there once it has been loaded. -/
theorem isSome_get?_of_addAll (definitions : List TypeSystemDefinition) {draft : SchemaDraft}
    (h : draft.addAll origin definitions = .ok after) {definition : Source.TypeDefinition}
    (hmem : .type definition ∈ definitions) : (after.types.get? definition.name).isSome = true := by
  induction definitions generalizing draft with
  | nil => exact absurd hmem List.not_mem_nil
  | cons first definitions ih =>
      rw [addAll, List.foldlM_cons, bind_eq_ok] at h
      obtain ⟨middle, hfirst, hrest⟩ := h
      rcases List.mem_cons.mp hmem with rfl | hlater
      · -- What comes later keeps the type that is entered now.
        rw [add, bind_eq_ok] at hfirst
        obtain ⟨type, htype, hfirst⟩ := hfirst
        apply (typesGrow_addAll hrest).keeps
        rw [addType_eq_ok hfirst, Table.get?_insert, if_pos (NamedType.name_ofSource htype).symm]
        rfl
      · exact ih hrest hlater

/-- An extension changes a type that is there, and the type keeps its name. -/
theorem typesGrow_applyExtension {types next : Table NamedType}
    {entry : Option FileName × TypeExtension} (h : applyExtension types entry = .ok next) :
    TypesGrow types next := by
  obtain ⟨file, extension⟩ := entry
  simp only [applyExtension] at h
  split at h
  · exact nomatch h
  · next type htype =>
      obtain ⟨extended, hextended, rfl⟩ := map_eq_ok.mp h
      apply TypesGrow.insert
      intro hnamed
      rw [NamedType.name_extend? hextended]
      exact hnamed extension.name type htype

theorem Loaded.typesGrow (h : draft.Loaded) : TypesGrow SchemaDraft.empty.types draft.types := by
  induction h with
  | empty => exact .refl _
  | addAll _ hadded ih => exact ih.trans (typesGrow_addAll hadded)

theorem namesTypes_empty : NamesTypes SchemaDraft.empty.types := by
  intro name type hget
  have hmem : (name, type) ∈ SchemaDraft.empty.types.entries := by
    obtain ⟨before, after, hentries, -⟩ := List.lookup_eq_some_iff.mp hget
    rw [hentries]
    exact List.mem_append_right _ List.mem_cons_self
  have hall : ∀ entry ∈ SchemaDraft.empty.types.entries, entry.2.name = entry.1 := by
    decide
  exact hall (name, type) hmem

/-! ## Faults -/

/-- A name that is used is bound if its use is no fault. -/
theorem isSome_get?_of_referenceFaults {types : Table NamedType} {type : TypeRef}
    {location : Location} (h : referenceFaults types type location = []) :
    (types.get? type.typeName).isSome = true := by
  rw [referenceFaults] at h
  split at h
  · next hcontains => exact hcontains
  · exact absurd h (List.cons_ne_nil _ _)

variable {types : Table NamedType} {directives : Table DirectiveDefinition}

theorem typeFaults_eq_nil (h : faults types directives = []) {name : String} {type : NamedType}
    (htype : types.get? name = some type) : typeFaults types type = [] := by
  rw [faults, List.append_eq_nil_iff] at h
  exact List.flatMap_eq_nil_iff.mp h.2 type (Table.mem_values_of_get? htype)

/-- Where nothing is wrong the types of fields are defined. -/
theorem isSome_get?_of_field (h : faults types directives = []) {name field : String}
    {type : NamedType} {fielded : FieldedType} {definition : FieldDefinition}
    (htype : types.get? name = some type) (hfielded : type.fielded? = some fielded)
    (hfield : fielded.fields.get? field = some definition) :
    (types.get? definition.type.typeName).isSome = true := by
  have hnone := typeFaults_eq_nil h htype
  have hfaults : fieldedFaults types fielded = [] := by
    cases type with
    | object object =>
        cases hfielded
        exact hnone
    | interface interface =>
        cases hfielded
        exact hnone
    | _ => exact nomatch hfielded
  rw [fieldedFaults, List.append_eq_nil_iff] at hfaults
  have hone := List.flatMap_eq_nil_iff.mp hfaults.1 definition (Table.mem_values_of_get? hfield)
  exact isSome_get?_of_referenceFaults (List.append_eq_nil_iff.mp hone).1

/-- Where nothing is wrong everything that types bring along is defined. -/
theorem isSome_get?_of_dependency (h : faults types directives = []) {name inner : String}
    {type : NamedType} (htype : types.get? name = some type) (hinner : inner ∈ type.dependencies) :
    (types.get? inner).isSome = true := by
  have hnone := typeFaults_eq_nil h htype
  cases type with
  | inputObject input =>
      obtain ⟨field, hfield, rfl⟩ := List.mem_map.mp hinner
      exact isSome_get?_of_referenceFaults (List.flatMap_eq_nil_iff.mp hnone field hfield)
  | union union =>
      have hmember := List.flatMap_eq_nil_iff.mp hnone inner hinner
      cases hget : types.get? inner with
      | some member => rfl
      | none =>
          rw [hget] at hmember
          exact absurd hmember (List.cons_ne_nil _ _)
  | _ => exact absurd hinner List.not_mem_nil

/-! ## Possible types -/

theorem exists_possibleTypesOf (types : Table NamedType) {type : NamedType}
    (h : type.isComposite = true) : ∃ set, SchemaDraft.possibleTypesOf types type = some set := by
  cases type with
  | object object => exact ⟨_, rfl⟩
  | interface interface => exact ⟨_, rfl⟩
  | union union => exact ⟨_, rfl⟩
  | _ => exact absurd h Bool.false_ne_true

theorem isSome_get?_possibleTypes (hnamed : NamesTypes types) {name : String} {type : NamedType}
    (htype : types.get? name = some type) (hcomposite : type.isComposite = true) :
    ((possibleTypes types).get? name).isSome = true := by
  -- The entry stands under the name that the type bears, which is the name that it is bound to.
  obtain ⟨set, hset⟩ := exists_possibleTypesOf types hcomposite
  rw [possibleTypes, Table.isSome_get?_ofEntries, List.mem_map]
  refine ⟨(type.name, set), ?_, hnamed name type htype⟩
  rw [List.mem_filterMap]
  exact ⟨type, Table.mem_values_of_get? htype, by rw [hset]; rfl⟩

theorem resolveRoot_eq_some {kind : OperationKind} {entry : Option RootEntry} {root : String}
    (h : resolveRoot types kind entry = .ok (some root)) :
    ∃ object, types.get? root = some (.object object) := by
  unfold resolveRoot at h
  split at h
  · split at h
    · next object hobject =>
        cases h
        exact ⟨object, hobject⟩
    · exact nomatch h
  · split at h
    · next object hobject =>
        cases h
        exact ⟨object, hobject⟩
    · exact nomatch h
    · exact nomatch h

end SchemaDraft

/-! ## Coherent schemas -/

/-- What a schema refers to is defined, each type is bound to its own name, root types are object
types, and composite types have possible types. -/
structure Schema.Coherent (schema : Schema) : Prop where
  named : NamesTypes schema.types
  mentioned : ∀ name, schema.Mentions name → (schema.type? name).isSome = true
  rooted : ∀ kind root, schema.root? kind = some root →
    ∃ object, schema.type? root = some (.object object)
  possible : ∀ name type, schema.type? name = some type → type.isComposite = true →
    (schema.possibleTypes? name).isSome = true

/-- The types of the meta-fields. -/
def Schema.metaTypes : List String :=
  ["String", "__Schema", "__Type"]

theorem Schema.mem_metaTypes {schema : Schema} {parent name : String} {definition : FieldDefinition}
    (h : schema.metaField? parent name = some definition) :
    definition.type.typeName ∈ Schema.metaTypes := by
  rw [Schema.metaField?] at h
  split at h
  · cases h
    decide
  · split at h
    · have hall : ∀ field ∈ introspectionFields, field.type.typeName ∈ Schema.metaTypes := by
        decide
      exact hall definition (List.mem_of_find?_eq_some h)
    · exact nomatch h

/-- A field of a type is a meta-field or one of its own. -/
theorem Schema.field?_eq_some {schema : Schema} {type : NamedType} {name : String}
    {definition : FieldDefinition} (h : schema.field? type name = .ok (some definition)) :
    schema.metaField? type.name name = some definition ∨
      ∃ fielded, type.fielded? = some fielded ∧ fielded.fields.get? name = some definition := by
  unfold Schema.field? at h
  split at h
  · exact nomatch h
  · split at h
    · next field hmeta =>
        cases h
        exact Or.inl hmeta
    · cases type with
      | interface interface => exact Or.inr ⟨interface, rfl, Except.ok.inj h⟩
      | object object => exact Or.inr ⟨object, rfl, Except.ok.inj h⟩
      | _ => exact nomatch h

namespace SchemaDraft

/-- The types of the meta-fields are scalars or introspection types. -/
theorem isSome_get?_of_mem_metaTypes {draft loaded : SchemaDraft} {types : Table NamedType}
    (hdraft : draft.Loaded)
    (hadded : draft.addAll ⟨none, true⟩ Introspection.definitions = .ok loaded)
    (hgrows : TypesGrow loaded.types types) {name : String} (hname : name ∈ Schema.metaTypes) :
    (types.get? name).isSome = true := by
  apply hgrows.keeps
  simp only [Schema.metaTypes, List.mem_cons, List.not_mem_nil, or_false] at hname
  rcases hname with rfl | rfl | rfl
  · apply (hdraft.typesGrow.trans (typesGrow_addAll hadded)).keeps
    decide
  · exact isSome_get?_of_addAll Introspection.definitions hadded List.mem_cons_self
  · exact isSome_get?_of_addAll Introspection.definitions hadded
      (List.mem_cons_of_mem _ List.mem_cons_self)

/-- The roots of a schema are object types if each of them was resolved. -/
theorem rooted_of_resolveRoot {schema : Schema} {query mutation subscription : Option RootEntry}
    {kind : OperationKind} {root : String} (h : schema.root? kind = some root)
    (hquery : resolveRoot schema.types .query query = .ok (some schema.query))
    (hmutation : resolveRoot schema.types .mutation mutation = .ok schema.mutation)
    (hsubscription :
      resolveRoot schema.types .subscription subscription = .ok schema.subscription) :
    ∃ object, schema.types.get? root = some (.object object) := by
  cases kind with
  | query =>
      obtain rfl := Option.some.inj h
      exact resolveRoot_eq_some hquery
  | mutation =>
      have hroot : schema.mutation = some root := h
      exact resolveRoot_eq_some (hroot ▸ hmutation)
  | subscription =>
      have hroot : schema.subscription = some root := h
      exact resolveRoot_eq_some (hroot ▸ hsubscription)

/-- What is built from a loaded draft is coherent. -/
theorem coherent_of_build {draft : SchemaDraft} {schema : Schema} (hdraft : draft.Loaded)
    (h : draft.build = .ok schema) : schema.Coherent := by
  rw [build, bind_eq_ok] at h
  obtain ⟨loaded, hadded, h⟩ := h
  obtain ⟨types, hextended, h⟩ := bind_eq_ok.mp h
  obtain ⟨query?, hquery, h⟩ := bind_eq_ok.mp h
  -- Loading and extending keep every type and its name, so the names are right at the end.
  have hextends := TypesGrow.of_foldlM id (fun _ _ _ => typesGrow_applyExtension) _ hextended
  have hnamed : NamesTypes types :=
    ((hdraft.typesGrow.trans (typesGrow_addAll hadded)).trans hextends).named namesTypes_empty
  cases query? with
  | none => exact nomatch h
  | some query =>
      obtain ⟨mutation, hmutation, h⟩ := bind_eq_ok.mp h
      obtain ⟨subscription, hsubscription, h⟩ := bind_eq_ok.mp h
      split at h
      · exact nomatch h
      · next hfaults =>
          have hfaults := List.head?_eq_none_iff.mp hfaults
          cases h
          refine ⟨hnamed, ?_, fun _ _ hroot => rooted_of_resolveRoot hroot hquery hmutation
            hsubscription, fun _ _ => isSome_get?_possibleTypes hnamed⟩
          -- What a schema mentions is a root type, the type of a field, or brought along by a type.
          intro name hmentions
          cases hmentions with
          | root hroot =>
              obtain ⟨object, hobject⟩ :=
                rooted_of_resolveRoot hroot hquery hmutation hsubscription
              exact Option.isSome_iff_exists.mpr ⟨_, hobject⟩
          | field htype hfield =>
              rcases Schema.field?_eq_some hfield with hmeta | ⟨fielded, hfielded, hget⟩
              · exact isSome_get?_of_mem_metaTypes hdraft hadded hextends
                  (Schema.mem_metaTypes hmeta)
              · exact isSome_get?_of_field hfaults htype hfielded hget
          | brought htype hinner => exact isSome_get?_of_dependency hfaults htype hinner

end SchemaDraft

namespace Schema

variable {schema : Schema}

theorem Built.coherent (h : schema.Built) : schema.Coherent := by
  obtain ⟨draft, hdraft, hbuild⟩ := h
  exact SchemaDraft.coherent_of_build hdraft hbuild

/-- The only fault of an invariant that a coherent schema causes is that a union has no fields. -/
theorem Coherent.onUnion_of_causes (hschema : schema.Coherent) {error : InvariantError}
    (h : schema.Causes error) :
    ∃ field type, schema.type? type.name = some (.union type) ∧
      error = .fieldOnUnion field type.name := by
  have hpossible : ∀ {name type}, schema.type? name = some type → type.isComposite = true →
      schema.possibleTypes? name ≠ none := by
    intro name type htype hcomposite hnone
    have hsome := hschema.possible name type htype hcomposite
    rw [hnone] at hsome
    exact Bool.false_ne_true hsome
  cases h with
  | @onUnion key field type htype =>
      have hname : type.name = key := hschema.named key _ htype
      exact ⟨field, type, hname ▸ htype, rfl⟩
  | leafRoot hroot htype hleaf =>
      obtain ⟨object, hobject⟩ := hschema.rooted _ _ hroot
      rw [hobject] at htype
      obtain rfl := Option.some.inj htype
      exact absurd hleaf (by simp [NamedType.isComposite])
  | impossibleRoot hroot hnone =>
      obtain ⟨object, hobject⟩ := hschema.rooted _ _ hroot
      exact absurd hnone (hpossible hobject rfl)
  | impossible htype hcomposite hname hnone =>
      rcases hname with rfl | rfl
      · exact absurd hnone (hpossible htype hcomposite)
      · rw [hschema.named _ _ htype] at hnone
        exact absurd hnone (hpossible htype hcomposite)
  | missing hmentions hnone =>
      have hsome := hschema.mentioned _ hmentions
      rw [hnone] at hsome
      exact absurd hsome Bool.false_ne_true

end Schema

end QueryShape
