import QueryShape.Proofs.BuiltSchema
import QueryShape.Proofs.Executable.Recording

/-!
# The types that a document needs

The types that a compiled document refers to are those that its definitions mention, with the
members of unions and the types of the fields of input objects, and no others. Which ones they are
can be read off the documents as they are written, whatever order they are compiled in.

## What this module delivers

- `Source.Needed`: the least set of types that holds what definitions mention and is closed under
  what unions and input objects bring along.
- `Schema.referenced_types`: a compiled document refers to these types, and to each only once.
-/

set_option autoImplicit false

namespace QueryShape

variable {schema : Schema} {all : List Source.Definition}

/-- The types that definitions need together. -/
inductive Source.Needed (schema : Schema) (all : List Source.Definition) : String → Prop
  /-- Variables, fields and type conditions. -/
  | mentioned {name : String} (definition : Source.Definition) (hmem : definition ∈ all)
      (hmentions : definition.Mentions schema name) : Source.Needed schema all name
  /-- A value of a union is one of a member. -/
  | member {outer inner : String} (union : UnionType)
      (hneeded : Source.Needed schema all outer) (htype : schema.type? outer = some (.union union))
      (hmem : inner ∈ union.members.names) : Source.Needed schema all inner
  /-- A value of an input object has values of the types of its fields. -/
  | inputField {outer : String} (input : InputObjectType) (field : InputField)
      (hneeded : Source.Needed schema all outer)
      (htype : schema.type? outer = some (.inputObject input))
      (hmem : field ∈ input.fields.values) :
      Source.Needed schema all field.type.typeName

/-- The set is closed under all that types bring along: only unions and input objects do. -/
theorem Source.Needed.bringsAlong (schema : Schema) (all : List Source.Definition) :
    schema.BringsAlong (Source.Needed schema all) := by
  intro outer houter inner hinner
  rcases Schema.mem_broughtBy.mp hinner with ⟨union, htype, hmem⟩ | ⟨input, htype, hfield⟩
  · exact .member union houter htype hmem
  · obtain ⟨field, hmem, rfl⟩ := hfield
    exact .inputField input field houter htype hmem

/-- A closed set that holds what definitions mention holds all that they need. -/
theorem Source.Needed.mem_of_closed {set : NameSet} (hclosed : set.Closed schema)
    (hmentioned : ∀ name, (∃ definition ∈ all, definition.Mentions schema name) →
      name ∈ set.names)
    {name : String} (h : Source.Needed schema all name) : name ∈ set.names := by
  induction h with
  | mentioned definition hmem hmentions => exact hmentioned _ ⟨definition, hmem, hmentions⟩
  | member union _ htype hmem ih =>
      exact (hclosed _ ih).2 _ (Schema.mem_broughtBy.mpr (Or.inl ⟨union, htype, hmem⟩))
  | inputField input field _ htype hmem ih =>
      exact (hclosed _ ih).2 _ (Schema.mem_broughtBy.mpr (Or.inr ⟨input, htype, field, hmem, rfl⟩))

/-- A compiled document refers to the types that its definitions need, and to each once. -/
theorem Schema.referenced_types {texts : List SourceText} {document : CompiledDocument}
    (h : schema.compile texts = .ok document) :
    document.referencedTypes.names.Nodup ∧ ∀ name, name ∈ document.referencedTypes.names ↔
      Source.Needed schema (Source.definitions texts) name := by
  rw [Schema.compile] at h
  obtain ⟨⟨operations, after⟩, hrun, h⟩ := bind_eq_ok.mp h
  cases h
  obtain ⟨definitions, hrecords⟩ := records_compileTexts
    (Source.Needed.bringsAlong schema (Source.definitions texts))
    (fun definition hmem _ hmentions => .mentioned definition hmem hmentions) hrun
  refine ⟨hrecords.recorded.nodup, fun name => ⟨hrecords.recorded.needed name, ?_⟩⟩
  exact Source.Needed.mem_of_closed hrecords.recorded.closed hrecords.mentioned

/-- `query Q { any { __typename } }`, which selects nothing on a member of the union. -/
def Sample.onlyUnion : List SourceText :=
  query
    [.field ⟨position, none, "any", [], []⟩ [.field ⟨position, none, "__typename", [], []⟩ []]] []

theorem Schema.referenced_types_sample : ∃ schema document,
    schema.compile Sample.onlyUnion = .ok document ∧
      document.referencedTypes.names = ["Any", "User", "String"] ∧
      Source.Needed schema (Source.definitions Sample.onlyUnion) "User" ∧
      ¬ Source.Needed schema (Source.definitions Sample.onlyUnion) "Node" := by
  obtain ⟨schema, -, htest⟩ := Sample.exists_built
    (fun schema => (schema.compile Sample.onlyUnion).toOption.any fun document =>
      document.referencedTypes.names = ["Any", "User", "String"]) (by decide +kernel)
  cases hcompile : schema.compile Sample.onlyUnion with
  | error error =>
      rw [hcompile] at htest
      exact absurd htest Bool.false_ne_true
  | ok document =>
      rw [hcompile] at htest
      have hnames : document.referencedTypes.names = ["Any", "User", "String"] :=
        of_decide_eq_true htest
      obtain ⟨-, hneeded⟩ := Schema.referenced_types hcompile
      refine ⟨schema, document, hcompile, hnames, (hneeded "User").mp ?_, fun hnode => ?_⟩
      · rw [hnames]
        decide
      · have hmem := (hneeded "Node").mpr hnode
        rw [hnames] at hmem
        exact absurd hmem (by decide)

end QueryShape
