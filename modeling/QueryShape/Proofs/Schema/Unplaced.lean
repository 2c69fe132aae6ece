import QueryShape.Proofs.Schema.Building
import QueryShape.Proofs.SucceedAlike
import QueryShape.Proofs.Unplaced

/-!
# Schemas without places

Definitions of types say where they stand, and so do the types of a schema. Nothing but messages
depends on it: definitions that are the same up to layout and files are accepted together, and then
make types that are the same up to locations.

## What this module delivers

- `Source.TypeSystemDefinition.unplaced`: a definition with all positions reset.
- `NamedType.unplaced`, `DirectiveDefinition.unplaced`, `Schema.unplaced`: the same for what becomes
  of definitions.
- `SchemaDraft.Alike`: drafts that are the same up to locations.
- `NamedType.ofSource_alike`, `NamedType.extend?_alike`: what definitions and extensions make.
- `SchemaDraft.add_alike`, `SchemaDraft.applyExtension_alike`: entering and extending.
-/

set_option autoImplicit false

namespace QueryShape

open Source (TypeSystemDefinition TypeExtension TypeBody)

/-! ## Tables -/

namespace Table

variable {α β : Type}

/-- A table with each of its values changed. -/
def map (f : α → β) (table : Table α) : Table β :=
  ⟨table.entries.map fun entry => (entry.1, f entry.2)⟩

@[simp] theorem get?_map (f : α → β) (table : Table α) (name : String) :
    (table.map f).get? name = (table.get? name).map f := by
  obtain ⟨entries⟩ := table
  simp only [get?, map]
  induction entries with
  | nil => rfl
  | cons entry entries ih =>
      obtain ⟨key, value⟩ := entry
      simp only [List.map_cons, List.lookup_cons]
      split
      · rfl
      · exact ih

@[simp] theorem values_map (f : α → β) (table : Table α) :
    (table.map f).values = table.values.map f := by
  rw [values, values, map, List.map_map, List.map_map]
  rfl

theorem map_insert (f : α → β) (table : Table α) (name : String) (value : α) :
    (table.insert name value).map f = (table.map f).insert name (f value) := by
  obtain ⟨entries⟩ := table
  simp only [insert, map, mk.injEq]
  induction entries with
  | nil => rfl
  | cons entry entries ih =>
      simp only [insertEntry, List.map_cons]
      split
      · rfl
      · rw [List.map_cons, ih]

theorem map_ofEntries (f : α → β) (entries : List (String × α)) :
    (ofEntries entries).map f = ofEntries (entries.map fun entry => (entry.1, f entry.2)) := by
  rw [ofEntries, ofEntries, List.foldl_map]
  exact (List.foldl_hom (Table.map f) fun table entry =>
    (map_insert f table entry.1 entry.2).symm).symm

theorem map_map {γ : Type} (f : α → β) (g : β → γ) (table : Table α) :
    (table.map f).map g = table.map (g ∘ f) := by
  rw [map, map, map, List.map_map]
  rfl

theorem get?_congr {f : α → β} {table table' : Table α} (h : table.map f = table'.map f)
    (name : String) : (table.get? name).map f = (table'.get? name).map f := by
  rw [← get?_map, h, get?_map]

/-- A computation that enters a value under a new name and fails if the name is there. -/
structure Enters {ε : Type} (table : Table α) (name : String) (value : α)
    (step : Except ε (Table α)) : Prop where
  of_none : table.get? name = none → step = .ok (table.insert name value)
  of_some : ∀ present, table.get? name = some present → ∃ error, step = .error error

theorem Enters.alike {ε : Type} {f : α → β} {table table' : Table α} {name name' : String}
    {value value' : α} {step step' : Except ε (Table α)} (h : table.Enters name value step)
    (h' : table'.Enters name' value' step') (htable : table.map f = table'.map f)
    (hname : name = name') (hvalue : f value = f value') :
    SucceedAlike (fun after after' : Table α => after.map f = after'.map f) step step' := by
  subst hname
  have hget := get?_congr htable name
  cases hpresent : table.get? name with
  | none =>
      rw [hpresent] at hget
      rw [h.of_none hpresent, h'.of_none (Option.map_eq_none_iff.mp hget.symm)]
      exact .ok (by rw [map_insert, map_insert, htable, hvalue])
  | some present =>
      rw [hpresent] at hget
      obtain ⟨present', hpresent', -⟩ := Option.map_eq_some_iff.mp hget.symm
      obtain ⟨error, herror⟩ := h.of_some present hpresent
      obtain ⟨error', herror'⟩ := h'.of_some present' hpresent'
      rw [herror, herror']
      exact .error _ _

end Table

/-! ## Forgetting places -/

namespace Source

/-- A parameter or a field of an input object without positions. -/
def InputValue.unplaced (value : InputValue) : InputValue :=
  { value with position := default, directives := value.directives.map Directive.unplaced }

/-- A field without positions. -/
def FieldDefinition.unplaced (field : FieldDefinition) : FieldDefinition :=
  { field with
    position := default
    parameters := field.parameters.map InputValue.unplaced
    directives := field.directives.map Directive.unplaced }

/-- A value of an enum without positions. -/
def EnumValue.unplaced (value : EnumValue) : EnumValue :=
  { value with position := default, directives := value.directives.map Directive.unplaced }

/-- The content of a type without positions. -/
def TypeBody.unplaced : TypeBody → TypeBody
  | .scalar => .scalar
  | .object interfaces fields => .object interfaces (fields.map FieldDefinition.unplaced)
  | .interface interfaces fields => .interface interfaces (fields.map FieldDefinition.unplaced)
  | .union members => .union members
  | .enum values => .enum (values.map EnumValue.unplaced)
  | .inputObject fields => .inputObject (fields.map InputValue.unplaced)

/-- A definition of a type without positions. -/
def TypeDefinition.unplaced (definition : TypeDefinition) : TypeDefinition :=
  { definition with
    position := default
    directives := definition.directives.map Directive.unplaced
    body := definition.body.unplaced }

/-- An extension without positions. -/
def TypeExtension.unplaced (extension : TypeExtension) : TypeExtension :=
  { extension with
    position := default
    directives := extension.directives.map Directive.unplaced
    body := extension.body.unplaced }

/-- A definition of a directive without positions. -/
def DirectiveDefinition.unplaced (definition : DirectiveDefinition) : DirectiveDefinition :=
  { definition with
    position := default, parameters := definition.parameters.map InputValue.unplaced }

/-- A block of root types without positions. -/
def RootBlock.unplaced (block : RootBlock) : RootBlock :=
  { block with position := default, directives := block.directives.map Directive.unplaced }

/-- A definition without positions. -/
def TypeSystemDefinition.unplaced : TypeSystemDefinition → TypeSystemDefinition
  | .roots block => .roots block.unplaced
  | .type definition => .type definition.unplaced
  | .extension added => .extension added.unplaced
  | .directive definition => .directive definition.unplaced

theorem InputValue.name_congr {value value' : InputValue} (h : value.unplaced = value'.unplaced) :
    value.name = value'.name := by
  have hnames : value.unplaced.name = value'.unplaced.name := by rw [h]
  exact hnames

theorem FieldDefinition.name_congr {field field' : FieldDefinition}
    (h : field.unplaced = field'.unplaced) : field.name = field'.name := by
  have hnames : field.unplaced.name = field'.unplaced.name := by rw [h]
  exact hnames

theorem EnumValue.name_congr {value value' : EnumValue} (h : value.unplaced = value'.unplaced) :
    value.name = value'.name := by
  have hnames : value.unplaced.name = value'.unplaced.name := by rw [h]
  exact hnames

@[simp] theorem TypeBody.kind_unplaced (body : TypeBody) : body.unplaced.kind = body.kind := by
  cases body <;> rfl

end Source

/-- A parameter without its location. -/
def Parameter.unplaced (parameter : Parameter) : Parameter :=
  { parameter with location := default }

/-- A field without locations. -/
def FieldDefinition.unplaced (field : FieldDefinition) : FieldDefinition :=
  { field with location := default, parameters := field.parameters.map Parameter.unplaced }

/-- A field of an input object without its location. -/
def InputField.unplaced (field : InputField) : InputField :=
  { field with location := default }

/-- A value of an enum without its location. -/
def EnumValue.unplaced (value : EnumValue) : EnumValue :=
  { value with location := default }

/-- An object or an interface without locations. -/
def FieldedType.unplaced (type : FieldedType) : FieldedType :=
  { type with location := default, fields := type.fields.map FieldDefinition.unplaced }

/-- A type without locations. -/
def NamedType.unplaced : NamedType → NamedType
  | .boolean => .boolean
  | .float => .float
  | .id => .id
  | .int => .int
  | .string => .string
  | .enum type =>
      .enum { type with location := default, values := type.values.map EnumValue.unplaced }
  | .inputObject type =>
      .inputObject { type with location := default, fields := type.fields.map InputField.unplaced }
  | .interface type => .interface type.unplaced
  | .object type => .object type.unplaced
  | .scalar type => .scalar { type with location := default }
  | .union type => .union { type with location := default }

/-- A directive without locations. -/
def DirectiveDefinition.unplaced : DirectiveDefinition → DirectiveDefinition
  | .custom directive =>
      .custom { directive with
        location := default, parameters := directive.parameters.map Parameter.unplaced }
  | directive => directive

/-- A schema without locations. -/
def Schema.unplaced (schema : Schema) : Schema :=
  { schema with
    types := schema.types.map NamedType.unplaced
    directives := schema.directives.map DirectiveDefinition.unplaced }

@[simp] theorem NamedType.name_unplaced (type : NamedType) : type.unplaced.name = type.name := by
  cases type <;> rfl

@[simp] theorem NamedType.kind_unplaced (type : NamedType) : type.unplaced.kind = type.kind := by
  cases type <;> rfl

theorem NamedType.object?_unplaced (type : NamedType) :
    type.unplaced.object? = type.object?.map FieldedType.unplaced := by
  cases type <;> rfl

theorem NamedType.fielded?_unplaced (type : NamedType) :
    type.unplaced.fielded? = type.fielded?.map FieldedType.unplaced := by
  cases type <;> rfl

/-! ## Parts of types -/

theorem deprecationOf_unplaced (directives : List Source.Directive) :
    deprecationOf (directives.map Source.Directive.unplaced) = deprecationOf directives := by
  rw [deprecationOf, deprecationOf, List.find?_map, Option.map_map]
  rfl

section Parts

variable (file : Option FileName)

theorem Parameter.unplaced_ofSource (value : Source.InputValue) :
    (Parameter.declared file value).unplaced = (Parameter.declared none value.unplaced).unplaced :=
  rfl

theorem Parameter.unplaced_declaredTable (values : List Source.InputValue) :
    (Parameter.declaredTable file values).map Parameter.unplaced =
      (Parameter.declaredTable none (values.map Source.InputValue.unplaced)).map
        Parameter.unplaced := by
  rw [declaredTable, declaredTable, Table.map_ofEntries, Table.map_ofEntries, List.map_map,
    List.map_map, List.map_map]
  rfl

theorem FieldDefinition.unplaced_ofSource (field : Source.FieldDefinition) :
    (FieldDefinition.declared file field).unplaced =
      (FieldDefinition.declared none field.unplaced).unplaced := by
  rw [declared, declared, unplaced, unplaced, Parameter.unplaced_declaredTable]
  simp only [Source.FieldDefinition.unplaced, deprecationOf_unplaced]

theorem InputField.unplaced_ofSource (value : Source.InputValue) :
    (InputField.declared file value).unplaced =
      (InputField.declared none value.unplaced).unplaced := by
  simp only [declared, unplaced, Source.InputValue.unplaced, deprecationOf_unplaced]

theorem EnumValue.unplaced_ofSource (location location' : Location) (value : Source.EnumValue) :
    (EnumValue.ofSource location value).unplaced =
      (EnumValue.ofSource location' value.unplaced).unplaced := by
  simp only [ofSource, unplaced, Source.EnumValue.unplaced, deprecationOf_unplaced]

end Parts

/-! ## Types -/

/-- Two types that are the same up to locations. -/
theorem FieldedType.unplaced_eq_iff {type type' : FieldedType} :
    type.unplaced = type'.unplaced ↔ type.description = type'.description ∧
      type.name = type'.name ∧ type.interfaces = type'.interfaces ∧
      type.fields.map FieldDefinition.unplaced = type'.fields.map FieldDefinition.unplaced := by
  simp only [unplaced, mk.injEq, true_and]

section Types

variable {file file' : Option FileName}

theorem addField_enters (name : String) (table : Table FieldDefinition)
    (field : Source.FieldDefinition) :
    table.Enters field.name (FieldDefinition.declared file field)
      (addField file name table field) := by
  constructor
  · intro hnone
    rw [addField_eq, hnone]
  · intro present hpresent
    rw [addField_eq, hpresent]
    exact ⟨_, rfl⟩

theorem addInputField_enters (name : String) (table : Table InputField)
    (value : Source.InputValue) :
    table.Enters value.name (InputField.declared file value)
      (addInputField file name table value) := by
  constructor
  · intro hnone
    rw [addInputField_eq, hnone]
  · intro present hpresent
    rw [addInputField_eq, hpresent]
    exact ⟨_, rfl⟩

theorem addField_alike {name name' : String} {table table' : Table FieldDefinition}
    {field field' : Source.FieldDefinition}
    (htable : table.map FieldDefinition.unplaced = table'.map FieldDefinition.unplaced)
    (hfield : field.unplaced = field'.unplaced) :
    SucceedAlike (fun after after' : Table FieldDefinition =>
        after.map FieldDefinition.unplaced = after'.map FieldDefinition.unplaced)
      (addField file name table field) (addField file' name' table' field') := by
  refine (addField_enters name table field).alike (addField_enters name' table' field') htable
    (Source.FieldDefinition.name_congr hfield) ?_
  rw [FieldDefinition.unplaced_ofSource file field, hfield, ← FieldDefinition.unplaced_ofSource]

theorem addInputField_alike {name name' : String} {table table' : Table InputField}
    {value value' : Source.InputValue}
    (htable : table.map InputField.unplaced = table'.map InputField.unplaced)
    (hvalue : value.unplaced = value'.unplaced) :
    SucceedAlike (fun after after' : Table InputField =>
        after.map InputField.unplaced = after'.map InputField.unplaced)
      (addInputField file name table value) (addInputField file' name' table' value') := by
  refine (addInputField_enters name table value).alike (addInputField_enters name' table' value')
    htable (Source.InputValue.name_congr hvalue) ?_
  rw [InputField.unplaced_ofSource file value, hvalue, ← InputField.unplaced_ofSource]

theorem addEnumValues_alike {locate locate' : Position → Location} (values : List Source.EnumValue)
    {values' : List Source.EnumValue} {table table' : Table EnumValue}
    (htable : table.map EnumValue.unplaced = table'.map EnumValue.unplaced)
    (hvalues : values.map Source.EnumValue.unplaced = values'.map Source.EnumValue.unplaced) :
    (addEnumValues locate table values).map EnumValue.unplaced =
      (addEnumValues locate' table' values').map EnumValue.unplaced := by
  induction values generalizing values' table table' with
  | nil =>
      obtain rfl := List.map_eq_nil_iff.mp hvalues.symm
      exact htable
  | cons value values ih =>
      obtain ⟨value', rest', rfl, hvalue, hrest⟩ := List.map_eq_cons_iff.mp hvalues.symm
      have hname := Source.EnumValue.name_congr hvalue
      have hfirst : (table.insert value.name (EnumValue.ofSource (locate value.position) value)).map
            EnumValue.unplaced =
          (table'.insert value'.name (EnumValue.ofSource (locate' value'.position) value')).map
            EnumValue.unplaced := by
        rw [Table.map_insert, Table.map_insert, htable, hname,
          EnumValue.unplaced_ofSource _ default value, ← hvalue, ← EnumValue.unplaced_ofSource]
      have hrun := ih hfirst hrest.symm
      exact hrun

theorem FieldedType.extend_alike {type type' : FieldedType} {interfaces : List String}
    {fields fields' : List Source.FieldDefinition} (htype : type.unplaced = type'.unplaced)
    (hfields : fields.map Source.FieldDefinition.unplaced =
      fields'.map Source.FieldDefinition.unplaced) :
    SucceedAlike (fun after after' : FieldedType => after.unplaced = after'.unplaced)
      (type.extend file interfaces fields) (type'.extend file' interfaces fields') := by
  obtain ⟨hdescription, hname, hinterfaces, htable⟩ := unplaced_eq_iff.mp htype
  rw [extend, extend]
  refine (SucceedAlike.foldlM (fun _ _ _ _ => addField_alike) fields hfields htable).bind ?_
  intro after after' hafter
  exact .ok (unplaced_eq_iff.mpr ⟨hdescription, hname, by rw [hinterfaces], hafter⟩)

end Types

/-! ## Forgetting places twice -/

section Twice

theorem Source.Directive.unplaced_comp_unplaced :
    Source.Directive.unplaced ∘ Source.Directive.unplaced = Source.Directive.unplaced :=
  rfl

theorem Source.InputValue.unplaced_comp_unplaced :
    Source.InputValue.unplaced ∘ Source.InputValue.unplaced = Source.InputValue.unplaced := by
  funext value
  simp only [Function.comp_apply, unplaced, List.map_map,
    Source.Directive.unplaced_comp_unplaced]

theorem Source.EnumValue.unplaced_comp_unplaced :
    Source.EnumValue.unplaced ∘ Source.EnumValue.unplaced = Source.EnumValue.unplaced := by
  funext value
  simp only [Function.comp_apply, unplaced, List.map_map,
    Source.Directive.unplaced_comp_unplaced]

theorem Source.FieldDefinition.unplaced_comp_unplaced :
    Source.FieldDefinition.unplaced ∘ Source.FieldDefinition.unplaced =
      Source.FieldDefinition.unplaced := by
  funext field
  simp only [Function.comp_apply, unplaced, List.map_map,
    Source.Directive.unplaced_comp_unplaced, Source.InputValue.unplaced_comp_unplaced]

theorem Source.TypeBody.unplaced_unplaced (body : TypeBody) :
    body.unplaced.unplaced = body.unplaced := by
  cases body <;> simp only [unplaced, List.map_map, Source.FieldDefinition.unplaced_comp_unplaced,
    Source.EnumValue.unplaced_comp_unplaced, Source.InputValue.unplaced_comp_unplaced]

theorem Source.TypeSystemDefinition.unplaced_unplaced (definition : TypeSystemDefinition) :
    definition.unplaced.unplaced = definition.unplaced := by
  cases definition with
  | roots block =>
      simp only [unplaced, RootBlock.unplaced, List.map_map,
        Source.Directive.unplaced_comp_unplaced]
  | type definition =>
      simp only [unplaced, TypeDefinition.unplaced, List.map_map,
        Source.Directive.unplaced_comp_unplaced, TypeBody.unplaced_unplaced]
  | extension added =>
      simp only [unplaced, TypeExtension.unplaced, List.map_map,
        Source.Directive.unplaced_comp_unplaced, TypeBody.unplaced_unplaced]
  | directive definition =>
      simp only [unplaced, DirectiveDefinition.unplaced, List.map_map,
        Source.InputValue.unplaced_comp_unplaced]

theorem FieldDefinition.unplaced_comp_unplaced :
    FieldDefinition.unplaced ∘ FieldDefinition.unplaced = FieldDefinition.unplaced := by
  funext field
  simp only [Function.comp_apply, unplaced, Table.map_map]
  rfl

theorem FieldedType.unplaced_unplaced (type : FieldedType) :
    type.unplaced.unplaced = type.unplaced := by
  simp only [unplaced, Table.map_map, FieldDefinition.unplaced_comp_unplaced]

end Twice

/-! ## Contents without places -/

section Contents

variable {file file' : Option FileName}

theorem FieldedType.extend_unplaced {type type' : FieldedType}
    (htype : type.unplaced = type'.unplaced) (interfaces : List String)
    (fields : List Source.FieldDefinition) :
    SucceedAlike (fun after after' : FieldedType => after.unplaced = after'.unplaced)
      (type.extend file interfaces fields)
      (type'.extend file' interfaces (fields.map Source.FieldDefinition.unplaced)) := by
  refine FieldedType.extend_alike htype ?_
  rw [List.map_map, Source.FieldDefinition.unplaced_comp_unplaced]

theorem addEnumValues_unplaced {locate locate' : Position → Location}
    {table table' : Table EnumValue}
    (htable : table.map EnumValue.unplaced = table'.map EnumValue.unplaced)
    (values : List Source.EnumValue) :
    (addEnumValues locate table values).map EnumValue.unplaced =
      (addEnumValues locate' table' (values.map Source.EnumValue.unplaced)).map
        EnumValue.unplaced := by
  refine addEnumValues_alike values htable ?_
  rw [List.map_map, Source.EnumValue.unplaced_comp_unplaced]

theorem foldlM_addInputField_unplaced {name name' : String} {table table' : Table InputField}
    (htable : table.map InputField.unplaced = table'.map InputField.unplaced)
    (fields : List Source.InputValue) :
    SucceedAlike (fun after after' : Table InputField =>
        after.map InputField.unplaced = after'.map InputField.unplaced)
      (fields.foldlM (addInputField file name) table)
      ((fields.map Source.InputValue.unplaced).foldlM (addInputField file' name') table') := by
  refine SucceedAlike.foldlM (fun _ _ _ _ => addInputField_alike) fields ?_ htable
  rw [List.map_map, Source.InputValue.unplaced_comp_unplaced]

end Contents

namespace NamedType

/-- The type that a definition describes does not depend on places. -/
theorem ofSource_unplaced (origin : Origin) (definition : Source.TypeDefinition) :
    SucceedAlike (fun type type' : NamedType => type.unplaced = type'.unplaced)
      (ofSource origin definition) (ofSource ⟨none, origin.builtIn⟩ definition.unplaced) := by
  obtain ⟨position, description, name, directives, body⟩ := definition
  cases body with
  | scalar => exact .ok rfl
  | object interfaces fields =>
      refine SucceedAlike.map (FieldedType.extend_unplaced ?_ interfaces fields) ?_
      · rfl
      · exact fun _ _ h => congrArg NamedType.object h
  | interface interfaces fields =>
      refine SucceedAlike.map (FieldedType.extend_unplaced ?_ interfaces fields) ?_
      · rfl
      · exact fun _ _ h => congrArg NamedType.interface h
  | union members => exact .ok rfl
  | enum values =>
      refine .ok ?_
      simp only [unplaced, enum.injEq, EnumType.mk.injEq, true_and, Source.TypeDefinition.unplaced]
      exact addEnumValues_unplaced rfl values
  | inputObject fields =>
      refine (foldlM_addInputField_unplaced rfl fields).bind ?_
      intro table table' htable
      refine .ok ?_
      simp only [unplaced, htable, Source.TypeDefinition.unplaced]

/-- Neither does what an extension makes of a type. -/
theorem extend?_unplaced (file : Option FileName) (type : NamedType) (extension : TypeExtension) :
    SucceedAlike (fun after after' : NamedType => after.unplaced = after'.unplaced)
      (type.extend? file extension) (type.unplaced.extend? none extension.unplaced) := by
  obtain ⟨position, name, directives, body⟩ := extension
  cases type with
  | enum type =>
      cases body with
      | enum values =>
          refine .ok ?_
          simp only [unplaced, enum.injEq, EnumType.mk.injEq, true_and]
          refine addEnumValues_unplaced ?_ values
          rw [Table.map_map]
          rfl
      | _ => exact .error _ _
  | inputObject type =>
      cases body with
      | inputObject fields =>
          have htable : type.fields.map InputField.unplaced =
              (type.fields.map InputField.unplaced).map InputField.unplaced := by
            rw [Table.map_map]
            rfl
          refine (foldlM_addInputField_unplaced htable fields).bind ?_
          intro after after' hafter
          refine .ok ?_
          simp only [unplaced, hafter]
      | _ => exact .error _ _
  | interface type =>
      cases body with
      | interface interfaces fields =>
          -- Interfaces of an extension are dropped, with places or without.
          refine SucceedAlike.map
            (FieldedType.extend_unplaced type.unplaced_unplaced.symm [] fields) ?_
          exact fun _ _ h => congrArg NamedType.interface h
      | _ => exact .error _ _
  | object type =>
      cases body with
      | object interfaces fields =>
          refine SucceedAlike.map
            (FieldedType.extend_unplaced type.unplaced_unplaced.symm interfaces fields) ?_
          exact fun _ _ h => congrArg NamedType.object h
      | _ => exact .error _ _
  | scalar type =>
      cases body with
      | scalar => exact .ok rfl
      | _ => exact .error _ _
  | union type =>
      cases body with
      | union members => exact .ok rfl
      | _ => exact .error _ _
  | _ => exact .error _ _

end NamedType

theorem NamedType.extend?_alike {file file' : Option FileName} {type type' : NamedType}
    {extension extension' : TypeExtension} (htype : type.unplaced = type'.unplaced)
    (hextension : extension.unplaced = extension'.unplaced) :
    SucceedAlike (fun after after' : NamedType => after.unplaced = after'.unplaced)
      (type.extend? file extension) (type'.extend? file' extension') := by
  have hfirst := extend?_unplaced file type extension
  rw [htype, hextension] at hfirst
  exact hfirst.trans (extend?_unplaced file' type' extension').symm
    fun _ _ _ h h' => h.trans h'.symm

theorem NamedType.ofSource_alike {origin origin' : Origin}
    {definition definition' : Source.TypeDefinition} (horigin : origin.builtIn = origin'.builtIn)
    (hdefinition : definition.unplaced = definition'.unplaced) :
    SucceedAlike (fun type type' : NamedType => type.unplaced = type'.unplaced)
      (ofSource origin definition) (ofSource origin' definition') := by
  have hfirst := ofSource_unplaced origin definition
  rw [hdefinition, horigin] at hfirst
  exact hfirst.trans (ofSource_unplaced origin' definition').symm fun _ _ _ h h' => h.trans h'.symm

/-! ## Drafts -/

namespace SchemaDraft

/-- Two drafts that are the same up to locations. -/
structure Alike (draft draft' : SchemaDraft) : Prop where
  types : draft.types.map NamedType.unplaced = draft'.types.map NamedType.unplaced
  directives : draft.directives.map DirectiveDefinition.unplaced =
    draft'.directives.map DirectiveDefinition.unplaced
  roots : ∀ kind, ( draft.rootEntry? kind).map RootEntry.type =
    ( draft'.rootEntry? kind).map RootEntry.type
  extensions : draft.extensions.map (fun entry => entry.2.unplaced) =
    draft'.extensions.map fun entry => entry.2.unplaced

theorem Alike.refl (draft : SchemaDraft) : draft.Alike draft :=
  ⟨rfl, rfl, fun _ => rfl, rfl⟩

variable {draft draft' : SchemaDraft} {origin origin' : Origin}

theorem rootEntry?_setRoot (draft : SchemaDraft) (entry : RootEntry) (kind other : OperationKind) :
    rootEntry? (draft.setRoot entry kind) other =
      if other = kind then some entry else draft.rootEntry? other := by
  cases kind <;> cases other <;> rfl

@[simp] theorem types_setRoot (draft : SchemaDraft) (entry : RootEntry) (kind : OperationKind) :
    (draft.setRoot entry kind).types = draft.types := by
  cases kind <;> rfl

@[simp] theorem directives_setRoot (draft : SchemaDraft) (entry : RootEntry)
    (kind : OperationKind) : (draft.setRoot entry kind).directives = draft.directives := by
  cases kind <;> rfl

@[simp] theorem extensions_setRoot (draft : SchemaDraft) (entry : RootEntry)
    (kind : OperationKind) : (draft.setRoot entry kind).extensions = draft.extensions := by
  cases kind <;> rfl

theorem addType_alike {type type' : NamedType} (h : draft.Alike draft')
    (horigin : origin.builtIn = origin'.builtIn) (htype : type.unplaced = type'.unplaced) :
    SucceedAlike Alike (draft.addType origin type) (draft'.addType origin' type') := by
  have hname : type.name = type'.name := by
    rw [← NamedType.name_unplaced type, htype, NamedType.name_unplaced]
  have hget := Table.get?_congr h.types type.name
  rw [addType, addType, ← hname, ← horigin]
  split
  · exact .error _ _
  · cases hpresent : draft.types.get? type.name with
    | none =>
        rw [hpresent] at hget
        rw [Option.map_eq_none_iff.mp hget.symm]
        refine .ok ⟨?_, h.directives, h.roots, h.extensions⟩
        rw [Table.map_insert, Table.map_insert, h.types, htype]
    | some present =>
        rw [hpresent] at hget
        obtain ⟨present', hpresent', -⟩ := Option.map_eq_some_iff.mp hget.symm
        rw [hpresent']
        exact .error _ _

theorem addDirective_alike {definition definition' : Source.DirectiveDefinition}
    (h : draft.Alike draft') (hdefinition : definition.unplaced = definition'.unplaced) :
    SucceedAlike Alike (draft.addDirective origin definition)
      (draft'.addDirective origin' definition') := by
  obtain ⟨position, description, name, parameters, repeatable, places⟩ := definition
  obtain ⟨position', description', name', parameters', repeatable', places'⟩ := definition'
  simp only [Source.DirectiveDefinition.unplaced, Source.DirectiveDefinition.mk.injEq,
    true_and] at hdefinition
  obtain ⟨rfl, rfl, hparameters, rfl, rfl⟩ := hdefinition
  have hget := Table.get?_congr h.directives name
  simp only [addDirective_eq]
  split
  · exact .error _ _
  · split
    · exact .error _ _
    · cases hpresent : draft.directives.get? name with
      | none =>
          rw [hpresent] at hget
          rw [Option.map_eq_none_iff.mp hget.symm]
          refine .ok ⟨h.types, ?_, h.roots, h.extensions⟩
          rw [Table.map_insert, Table.map_insert, h.directives]
          simp only [DirectiveDefinition.unplaced, Parameter.unplaced_declaredTable origin.file,
            Parameter.unplaced_declaredTable origin'.file, hparameters]
      | some present =>
          rw [hpresent] at hget
          obtain ⟨present', hpresent', -⟩ := Option.map_eq_some_iff.mp hget.symm
          rw [hpresent']
          exact .error _ _

theorem addRoot_alike {location location' : Location} {block block' : Source.RootBlock}
    (hblock : block.unplaced = block'.unplaced) (kind : OperationKind) (h : draft.Alike draft') :
    SucceedAlike Alike (addRoot location block draft kind)
      (addRoot location' block' draft' kind) := by
  have hroot : block.root? kind = block'.root? kind := by
    have hroots : block.unplaced.root? kind = block'.unplaced.root? kind := by rw [hblock]
    cases kind <;> exact hroots
  have hentry := h.roots kind
  rw [addRoot, addRoot, ← hroot]
  cases block.root? kind with
  | none => exact .ok h
  | some root =>
      cases hpresent : draft.rootEntry? kind with
      | none =>
          rw [hpresent] at hentry
          rw [Option.map_eq_none_iff.mp hentry.symm]
          refine .ok ⟨?_, ?_, ?_, ?_⟩
          · rw [types_setRoot, types_setRoot, h.types]
          · rw [directives_setRoot, directives_setRoot, h.directives]
          · intro other
            rw [rootEntry?_setRoot, rootEntry?_setRoot]
            split
            · rfl
            · exact h.roots other
          · rw [extensions_setRoot, extensions_setRoot, h.extensions]
      | some present =>
          rw [hpresent] at hentry
          obtain ⟨present', hpresent', -⟩ := Option.map_eq_some_iff.mp hentry.symm
          rw [hpresent']
          exact .error _ _

/-- Definitions that are the same up to layout are entered together. -/
theorem add_alike {definition definition' : TypeSystemDefinition} (h : draft.Alike draft')
    (horigin : origin.builtIn = origin'.builtIn)
    (hdefinition : definition.unplaced = definition'.unplaced) :
    SucceedAlike Alike (add origin draft definition) (add origin' draft' definition') := by
  cases definition with
  | roots block =>
      cases definition' with
      | roots block' =>
          have hblock := TypeSystemDefinition.roots.inj hdefinition
          refine SucceedAlike.foldlM ?_ _ (rfl : List.map id _ = List.map id _) h
          intro state state' kind kind' hstate hkind
          obtain rfl : kind = kind' := hkind
          exact addRoot_alike hblock kind hstate
      | _ => exact nomatch hdefinition
  | type definition =>
      cases definition' with
      | type definition' =>
          have htype := NamedType.ofSource_alike horigin (TypeSystemDefinition.type.inj hdefinition)
          exact htype.bind fun _ _ => addType_alike h horigin
      | _ => exact nomatch hdefinition
  | extension added =>
      cases definition' with
      | extension added' =>
          refine .ok ⟨h.types, h.directives, h.roots, ?_⟩
          simp only [List.map_append, h.extensions, List.map_cons, List.map_nil,
            TypeSystemDefinition.extension.inj hdefinition]
      | _ => exact nomatch hdefinition
  | directive definition =>
      cases definition' with
      | directive definition' =>
          exact addDirective_alike h (TypeSystemDefinition.directive.inj hdefinition)
      | _ => exact nomatch hdefinition

theorem addAll_alike {definitions definitions' : List TypeSystemDefinition}
    (h : draft.Alike draft') (horigin : origin.builtIn = origin'.builtIn)
    (hdefinitions : definitions.map TypeSystemDefinition.unplaced =
      definitions'.map TypeSystemDefinition.unplaced) :
    SucceedAlike Alike (draft.addAll origin definitions) (draft'.addAll origin' definitions') := by
  refine SucceedAlike.foldlM ?_ definitions hdefinitions h
  intro state state' definition definition' hstate hdefinition
  exact add_alike hstate horigin hdefinition

theorem applyExtension_alike {types types' : Table NamedType}
    {entry entry' : Option FileName × TypeExtension}
    (htypes : types.map NamedType.unplaced = types'.map NamedType.unplaced)
    (hentry : entry.2.unplaced = entry'.2.unplaced) :
    SucceedAlike (fun after after' : Table NamedType =>
        after.map NamedType.unplaced = after'.map NamedType.unplaced)
      (applyExtension types entry) (applyExtension types' entry') := by
  obtain ⟨file, added⟩ := entry
  obtain ⟨file', added'⟩ := entry'
  have hname : added.name = added'.name := by
    have hnames : added.unplaced.name = added'.unplaced.name := by rw [hentry]
    exact hnames
  have hget := Table.get?_congr htypes added.name
  rw [applyExtension, applyExtension]
  simp only [← hname]
  cases hpresent : types.get? added.name with
  | none =>
      rw [hpresent] at hget
      rw [Option.map_eq_none_iff.mp hget.symm]
      exact .error _ _
  | some type =>
      rw [hpresent] at hget
      obtain ⟨type', hpresent', htype⟩ := Option.map_eq_some_iff.mp hget.symm
      rw [hpresent']
      refine (NamedType.extend?_alike htype.symm hentry).map fun after after' hafter => ?_
      rw [Table.map_insert, Table.map_insert, htypes, hafter]

end SchemaDraft

end QueryShape
