import QueryShape.Proofs.Schema.Unplaced

/-!
# Finishing a draft

Whether a draft can be finished depends on the kinds of the types that its names are bound to, and
on nothing else: root types have to be objects, what is referred to has to be defined, interfaces
that are listed have to be interfaces, and members of unions objects. So layout and files do not
matter for the schema that definitions make, up to the locations in it.

## What this module delivers

- `Table.kind?`: the kinds of the types that names are bound to.
- `NamedType.Answered`: types whose references are answered.
- `SchemaDraft.faults_eq_nil_iff`, `SchemaDraft.resolveRoot_eq_ok_iff`: the checks in these terms.
- `SchemaDraft.Finishes`, `SchemaDraft.build_eq_ok_iff`: what building comes down to.
- `Schema.ofDefinitions`: the schema that definitions make.
- `Schema.ofDefinitions_alike`: it does not depend on layout and files.
-/

set_option autoImplicit false

namespace QueryShape

open Source (TypeSystemDefinition TypeExtension)

/-! ## Checks -/

/-- The kind of the type with a name. Checks of references depend on nothing else. -/
def Table.kind? (types : Table NamedType) (name : String) : Option TypeKind :=
  (types.get? name).map NamedType.kind

theorem Table.kind?_map_unplaced (types : Table NamedType) :
    (types.map NamedType.unplaced).kind? = types.kind? := by
  funext name
  rw [kind?, kind?, get?_map, Option.map_map]
  exact congrArg (fun f => Option.map f (types.get? name)) (funext NamedType.kind_unplaced)

theorem Table.kind?_congr {types types' : Table NamedType}
    (h : types.map NamedType.unplaced = types'.map NamedType.unplaced) :
    types.kind? = types'.kind? := by
  rw [← kind?_map_unplaced, h, kind?_map_unplaced]

section Answered

variable (kinds : String → Option TypeKind)

/-- The types of parameters are defined. -/
def Parameter.Answered (parameters : Table Parameter) : Prop :=
  ∀ parameter ∈ parameters.values, (kinds parameter.type.typeName).isSome = true

/-- What a directive refers to is defined. -/
def DirectiveDefinition.Answered : DirectiveDefinition → Prop
  | .custom directive => Parameter.Answered kinds directive.parameters
  | _ => True

/-- What an object or an interface refers to is defined, and the interfaces that it lists are
interfaces. -/
def FieldedType.Answered (type : FieldedType) : Prop :=
  (∀ field ∈ type.fields.values, (kinds field.type.typeName).isSome = true ∧
    Parameter.Answered kinds field.parameters) ∧
  ∀ name ∈ type.interfaces, kinds name = some .interface

/-- What a type refers to is defined, and of the right kind. -/
def NamedType.Answered : NamedType → Prop
  | .object type => type.Answered kinds
  | .interface type => type.Answered kinds
  | .inputObject type =>
      ∀ field ∈ type.fields.values, (kinds field.type.typeName).isSome = true
  | .union type => ∀ name ∈ type.members.names, kinds name = some .object
  | _ => True

theorem Parameter.answered_unplaced (parameters : Table Parameter) :
    Parameter.Answered kinds (parameters.map Parameter.unplaced) ↔
      Parameter.Answered kinds parameters := by
  rw [Answered, Answered, Table.values_map, List.forall_mem_map]
  exact Iff.rfl

theorem DirectiveDefinition.answered_unplaced (directive : DirectiveDefinition) :
    directive.unplaced.Answered kinds ↔ directive.Answered kinds := by
  cases directive with
  | custom directive => exact Parameter.answered_unplaced kinds directive.parameters
  | _ => exact Iff.rfl

theorem FieldedType.answered_unplaced (type : FieldedType) :
    type.unplaced.Answered kinds ↔ type.Answered kinds := by
  simp only [Answered, unplaced, Table.values_map, List.forall_mem_map, FieldDefinition.unplaced,
    Parameter.answered_unplaced]

theorem NamedType.answered_unplaced (type : NamedType) :
    type.unplaced.Answered kinds ↔ type.Answered kinds := by
  cases type with
  | object type => exact type.answered_unplaced kinds
  | interface type => exact type.answered_unplaced kinds
  | inputObject type =>
      simp only [Answered, unplaced, Table.values_map, List.forall_mem_map, InputField.unplaced]
  | _ => exact Iff.rfl

end Answered

namespace SchemaDraft

variable {types : Table NamedType} {directives : Table DirectiveDefinition}

theorem referenceFaults_eq_nil_iff {type : TypeRef} {location : Location} :
    referenceFaults types type location = [] ↔ (types.kind? type.typeName).isSome = true := by
  rw [referenceFaults, Table.kind?, Option.isSome_map, Table.contains]
  split
  · next h => exact iff_of_true rfl h
  · next h => exact iff_of_false (List.cons_ne_nil _ _) h

theorem parameterFaults_eq_nil_iff {parameters : Table Parameter} :
    parameterFaults types parameters = [] ↔ Parameter.Answered types.kind? parameters := by
  rw [parameterFaults, List.flatMap_eq_nil_iff]
  exact forall₂_congr fun _ _ => referenceFaults_eq_nil_iff

theorem fieldedFaults_eq_nil_iff {type : FieldedType} :
    fieldedFaults types type = [] ↔ type.Answered types.kind? := by
  rw [fieldedFaults, List.append_eq_nil_iff, List.flatMap_eq_nil_iff, List.flatMap_eq_nil_iff]
  refine and_congr (forall₂_congr fun field _ => ?_) (forall₂_congr fun name _ => ?_)
  · rw [List.append_eq_nil_iff, referenceFaults_eq_nil_iff, parameterFaults_eq_nil_iff]
  · rw [Table.kind?]
    cases types.get? name with
    | none => simp
    | some type => cases type <;> simp [NamedType.kind]

theorem unionFaults_eq_nil_iff {type : UnionType} :
    unionFaults types type = [] ↔ ∀ name ∈ type.members.names, types.kind? name = some .object := by
  rw [unionFaults, List.flatMap_eq_nil_iff]
  refine forall₂_congr fun name _ => ?_
  rw [Table.kind?]
  cases types.get? name with
  | none => simp
  | some type => cases type <;> simp [NamedType.kind]

theorem typeFaults_eq_nil_iff {type : NamedType} :
    typeFaults types type = [] ↔ type.Answered types.kind? := by
  cases type with
  | object type => exact fieldedFaults_eq_nil_iff
  | interface type => exact fieldedFaults_eq_nil_iff
  | inputObject type =>
      rw [typeFaults, List.flatMap_eq_nil_iff]
      exact forall₂_congr fun _ _ => referenceFaults_eq_nil_iff
  | union type => exact unionFaults_eq_nil_iff
  | _ => exact iff_of_true rfl trivial

/-- Nothing is wrong if all references are answered. -/
theorem faults_eq_nil_iff : faults types directives = [] ↔
    (∀ directive ∈ directives.values, directive.Answered types.kind?) ∧
      ∀ type ∈ types.values, type.Answered types.kind? := by
  rw [faults, List.append_eq_nil_iff, List.flatMap_eq_nil_iff, List.flatMap_eq_nil_iff]
  refine and_congr (forall₂_congr fun directive _ => ?_)
    (forall₂_congr fun _ _ => typeFaults_eq_nil_iff)
  cases directive with
  | custom directive => exact parameterFaults_eq_nil_iff
  | _ => exact iff_of_true rfl trivial

/-- A root type that a block names has to be an object type. Without a block it is the object type
with the customary name, if there is one. -/
theorem resolveRoot_eq_ok_iff {kind : OperationKind} {entry : Option RootEntry}
    {root : Option String} : resolveRoot types kind entry = .ok root ↔
      match entry.map RootEntry.type with
      | none => root = if types.kind? kind.title = some .object then some kind.title else none
      | some type => types.kind? type = some .object ∧ root = some type := by
  unfold resolveRoot Table.kind?
  cases entry with
  | none =>
      cases types.get? kind.title with
      | none => simp [eq_comm]
      | some type => cases type <;> simp [NamedType.kind, eq_comm]
  | some entry =>
      simp only [Option.map_some]
      cases types.get? entry.type with
      | none => simp
      | some type => cases type <;> simp [NamedType.kind, eq_comm]

/-! ## Parts of a schema -/

theorem filterMap_object?_map_unplaced (types : Table NamedType) :
    (types.map NamedType.unplaced).values.filterMap NamedType.object? =
      (types.values.filterMap NamedType.object?).map FieldedType.unplaced := by
  rw [Table.values_map, List.filterMap_map, List.map_filterMap]
  exact List.filterMap_congr fun type _ => type.object?_unplaced

theorem objectNames_map_unplaced (types : Table NamedType) :
    objectNames (types.map NamedType.unplaced) = objectNames types := by
  rw [objectNames, objectNames, Table.values_map, List.filterMap_map]
  refine List.filterMap_congr fun type _ => ?_
  rw [Function.comp_apply, NamedType.object?_unplaced, Option.map_map]
  rfl

theorem idsWhere_map_unplaced (types : Table NamedType) (test : FieldedType → Bool)
    (htest : ∀ object : FieldedType, test object.unplaced = test object) :
    idsWhere (types.map NamedType.unplaced) test = idsWhere types test := by
  rw [idsWhere, idsWhere, filterMap_object?_map_unplaced, List.zipIdx_map, List.filter_map,
    List.map_map]
  refine congrArg₂ List.map rfl (List.filter_congr fun entry _ => ?_)
  exact htest entry.1

theorem possibleTypesOf_map_unplaced (types : Table NamedType) (type : NamedType) :
    possibleTypesOf (types.map NamedType.unplaced) type.unplaced = possibleTypesOf types type := by
  unfold possibleTypesOf
  simp only [objectNames_map_unplaced]
  cases type with
  | object type =>
      simp only [NamedType.unplaced]
      rw [idsWhere_map_unplaced types _ fun _ => rfl]
      rfl
  | interface type =>
      simp only [NamedType.unplaced]
      rw [idsWhere_map_unplaced types _ fun _ => rfl]
      rfl
  | union type =>
      simp only [NamedType.unplaced]
      rw [idsWhere_map_unplaced types _ fun _ => rfl]
  | _ => rfl

/-- Possible types are the same whatever the locations. -/
theorem possibleTypes_map_unplaced (types : Table NamedType) :
    possibleTypes (types.map NamedType.unplaced) = possibleTypes types := by
  rw [possibleTypes, possibleTypes, Table.values_map, List.filterMap_map]
  refine congrArg Table.ofEntries (List.filterMap_congr fun type _ => ?_)
  rw [Function.comp_apply, possibleTypesOf_map_unplaced, NamedType.name_unplaced]

theorem map_withBuiltIns (directives : Table DirectiveDefinition) :
    (withBuiltIns directives).map DirectiveDefinition.unplaced =
      withBuiltIns (directives.map DirectiveDefinition.unplaced) := by
  have hbuiltIns : ∀ directive ∈ DirectiveDefinition.builtIns,
      directive.unplaced = directive := by
    simp [DirectiveDefinition.builtIns, DirectiveDefinition.unplaced]
  rw [withBuiltIns, withBuiltIns]
  revert hbuiltIns
  generalize DirectiveDefinition.builtIns = builtIns
  intro hbuiltIns
  induction builtIns generalizing directives with
  | nil => rfl
  | cons directive builtIns ih =>
      obtain ⟨hfirst, hothers⟩ := List.forall_mem_cons.mp hbuiltIns
      rw [List.foldl_cons, List.foldl_cons, ih _ hothers]
      congr 1
      rw [Table.contains, Table.contains, Table.get?_map, Option.isSome_map]
      split
      · rfl
      · rw [Table.map_insert, hfirst]

/-! ## Building -/

/-- A draft whose types have been extended, and the schema that it is finished to. -/
structure Finishes (draft : SchemaDraft) (types : Table NamedType) (schema : Schema) : Prop where
  query : resolveRoot types .query draft.query = .ok (some schema.query)
  mutation : resolveRoot types .mutation draft.mutation = .ok schema.mutation
  subscription : resolveRoot types .subscription draft.subscription = .ok schema.subscription
  answered : faults types (withBuiltIns draft.directives) = []
  schema : schema = ⟨types, withBuiltIns draft.directives, schema.query, schema.mutation,
    schema.subscription, objectNames types, possibleTypes types⟩

/-- Building adds the introspection types, applies the extensions and finishes the draft. -/
theorem build_eq_ok_iff {draft : SchemaDraft} {schema : Schema} :
    draft.build = .ok schema ↔ ∃ loaded types,
      draft.addAll ⟨none, true⟩ Introspection.definitions = .ok loaded ∧
        loaded.extensions.foldlM applyExtension loaded.types = .ok types ∧
        loaded.Finishes types schema := by
  rw [build, bind_eq_ok]
  refine exists_congr fun loaded => ?_
  constructor
  · rintro ⟨hloaded, h⟩
    obtain ⟨types, htypes, h⟩ := bind_eq_ok.mp h
    obtain ⟨query?, hquery, h⟩ := bind_eq_ok.mp h
    cases query? with
    | none => exact absurd h error_ne_ok
    | some query =>
        obtain ⟨mutation, hmutation, h⟩ := bind_eq_ok.mp h
        obtain ⟨subscription, hsubscription, h⟩ := bind_eq_ok.mp h
        split at h
        · exact absurd h error_ne_ok
        · next hnone =>
            cases h
            exact ⟨types, hloaded, htypes, hquery, hmutation, hsubscription,
              List.head?_eq_none_iff.mp hnone, rfl⟩
  · rintro ⟨types, hloaded, htypes, hfinishes⟩
    refine ⟨hloaded, bind_eq_ok.mpr ⟨types, htypes, bind_eq_ok.mpr ⟨_, hfinishes.query, ?_⟩⟩⟩
    refine bind_eq_ok.mpr ⟨_, hfinishes.mutation, bind_eq_ok.mpr ⟨_, hfinishes.subscription, ?_⟩⟩
    rw [hfinishes.answered]
    exact congrArg Except.ok hfinishes.schema.symm

/-! ## Building from definitions that are the same up to layout -/

theorem resolveRoot_congr {types types' : Table NamedType} {kind : OperationKind}
    {entry entry' : Option RootEntry} {root : Option String} (hkinds : types.kind? = types'.kind?)
    (hentry : entry.map RootEntry.type = entry'.map RootEntry.type) :
    resolveRoot types kind entry = .ok root ↔ resolveRoot types' kind entry' = .ok root := by
  rw [resolveRoot_eq_ok_iff, resolveRoot_eq_ok_iff, hkinds, hentry]

theorem faults_eq_nil_iff_unplaced : faults types directives = [] ↔
    faults (types.map NamedType.unplaced) (directives.map DirectiveDefinition.unplaced) = [] := by
  rw [faults_eq_nil_iff, faults_eq_nil_iff, Table.kind?_map_unplaced, Table.values_map,
    Table.values_map, List.forall_mem_map, List.forall_mem_map]
  simp only [NamedType.answered_unplaced, DirectiveDefinition.answered_unplaced]

section Building

variable {draft draft' : SchemaDraft} {types types' : Table NamedType} {schema : Schema}

theorem Finishes.exists_alike (h : draft.Finishes types schema) (hdraft : draft.Alike draft')
    (htypes : types.map NamedType.unplaced = types'.map NamedType.unplaced) :
    ∃ schema', draft'.Finishes types' schema' ∧ schema.unplaced = schema'.unplaced := by
  have hkinds := Table.kind?_congr htypes
  have hdirectives : (withBuiltIns draft.directives).map DirectiveDefinition.unplaced =
      (withBuiltIns draft'.directives).map DirectiveDefinition.unplaced := by
    rw [map_withBuiltIns, map_withBuiltIns, hdraft.directives]
  refine ⟨⟨types', withBuiltIns draft'.directives, schema.query, schema.mutation,
    schema.subscription, objectNames types', possibleTypes types'⟩, ⟨?_, ?_, ?_, ?_, rfl⟩, ?_⟩
  · exact (resolveRoot_congr hkinds (hdraft.roots .query)).mp h.query
  · exact (resolveRoot_congr hkinds (hdraft.roots .mutation)).mp h.mutation
  · exact (resolveRoot_congr hkinds (hdraft.roots .subscription)).mp h.subscription
  · rw [faults_eq_nil_iff_unplaced, ← htypes, ← hdirectives, ← faults_eq_nil_iff_unplaced]
    exact h.answered
  · rw [h.schema]
    simp only [Schema.unplaced, htypes, hdirectives, Schema.mk.injEq, true_and]
    constructor
    · rw [← objectNames_map_unplaced, htypes, objectNames_map_unplaced]
    · rw [← possibleTypes_map_unplaced, htypes, possibleTypes_map_unplaced]

/-- Drafts that are the same up to locations are built to such schemas. -/
theorem Alike.exists_build (h : draft.Alike draft') (hbuild : draft.build = .ok schema) :
    ∃ schema', draft'.build = .ok schema' ∧ schema.unplaced = schema'.unplaced := by
  obtain ⟨loaded, types, hloaded, htypes, hfinishes⟩ := build_eq_ok_iff.mp hbuild
  obtain ⟨loaded', hloaded', halike⟩ := (addAll_alike h rfl rfl).exists_ok hloaded
  obtain ⟨types', htypes', hsame⟩ := (SucceedAlike.foldlM
    (fun _ _ _ _ => applyExtension_alike) _ halike.extensions halike.types).exists_ok htypes
  obtain ⟨schema', hfinishes', hschema⟩ := hfinishes.exists_alike halike hsame
  exact ⟨schema', build_eq_ok_iff.mpr ⟨loaded', types', hloaded', htypes', hfinishes'⟩, hschema⟩

end Building

end SchemaDraft

/-- The schema that definitions make, each with the name of the file that it stands in. -/
def Schema.ofDefinitions (definitions : List (Option FileName × TypeSystemDefinition)) :
    Except SchemaError Schema := do
  let draft ← definitions.foldlM
    (fun draft entry => SchemaDraft.add ⟨entry.1, false⟩ draft entry.2) .empty
  draft.build

theorem SchemaDraft.Loaded.foldlM_add
    (definitions : List (Option FileName × TypeSystemDefinition)) {draft after : SchemaDraft}
    (h : draft.Loaded) (hadded : definitions.foldlM
      (fun draft entry => SchemaDraft.add ⟨entry.1, false⟩ draft entry.2) draft = .ok after) :
    after.Loaded := by
  induction definitions generalizing draft with
  | nil =>
      cases hadded
      exact h
  | cons entry definitions ih =>
      rw [List.foldlM_cons, bind_eq_ok] at hadded
      obtain ⟨middle, hfirst, hrest⟩ := hadded
      have hone : draft.addAll ⟨entry.1, false⟩ [entry.2] = .ok middle :=
        bind_eq_ok.mpr ⟨middle, hfirst, rfl⟩
      exact ih (h.addAll hone) hrest

theorem Schema.built_of_ofDefinitions
    {definitions : List (Option FileName × TypeSystemDefinition)} {schema : Schema}
    (h : Schema.ofDefinitions definitions = .ok schema) : schema.Built := by
  obtain ⟨draft, hdraft, hbuild⟩ := bind_eq_ok.mp h
  exact ⟨draft, .foldlM_add definitions .empty hdraft, hbuild⟩

theorem Schema.exists_ofDefinitions
    {definitions definitions' : List (Option FileName × TypeSystemDefinition)}
    (h : definitions.map (fun entry => entry.2.unplaced) =
      definitions'.map fun entry => entry.2.unplaced)
    {schema : Schema} (hschema : Schema.ofDefinitions definitions = .ok schema) :
    ∃ schema', Schema.ofDefinitions definitions' = .ok schema' ∧
      schema.unplaced = schema'.unplaced := by
  obtain ⟨draft, hdraft, hbuild⟩ := bind_eq_ok.mp hschema
  have hstep : ∀ (draft draft' : SchemaDraft)
      (entry entry' : Option FileName × TypeSystemDefinition),
      draft.Alike draft' → entry.2.unplaced = entry'.2.unplaced →
        SucceedAlike SchemaDraft.Alike (SchemaDraft.add ⟨entry.1, false⟩ draft entry.2)
          (SchemaDraft.add ⟨entry'.1, false⟩ draft' entry'.2) :=
    fun _ _ _ _ halike hentry => SchemaDraft.add_alike halike rfl hentry
  obtain ⟨draft', hdraft', halike⟩ :=
    (SucceedAlike.foldlM hstep definitions h (.refl .empty)).exists_ok hdraft
  obtain ⟨schema', hbuild', hsame⟩ := halike.exists_build hbuild
  exact ⟨schema', bind_eq_ok.mpr ⟨draft', hdraft', hbuild'⟩, hsame⟩

/-- Whether definitions make a schema does not depend on layout and files, and what it contains
depends on them for its locations only. -/
theorem Schema.ofDefinitions_alike
    {definitions definitions' : List (Option FileName × TypeSystemDefinition)}
    (h : definitions.map (fun entry => entry.2.unplaced) =
      definitions'.map fun entry => entry.2.unplaced) :
    SucceedAlike (fun schema schema' : Schema => schema.unplaced = schema'.unplaced)
      (Schema.ofDefinitions definitions) (Schema.ofDefinitions definitions') := by
  refine .of_exists (fun schema hschema => exists_ofDefinitions h hschema)
    fun schema' hschema' => ?_
  obtain ⟨schema, hschema, -⟩ := exists_ofDefinitions h.symm hschema'
  exact ⟨schema, hschema⟩

end QueryShape
