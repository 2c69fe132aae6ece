import QueryShape.Proofs.Partition
import QueryShape.Proofs.Schema.Building

/-!
# Compiling against schemas that have been built

A schema that has been built is coherent: everything it refers to is there. So nothing that a
compilation looks up on the word of the schema can be missing. Nor can an integer be too large for its
value, since a literal that has been read fits. What is left to go wrong lies in the documents: a name
that is not defined, a shape that cannot be compiled, or a field selected on a union.

## What this module delivers

- `Schema.compile_of_built`: the outcomes of a compilation against a schema that has been built.
-/

set_option autoImplicit false

namespace QueryShape

variable {schema : Schema}

/-- Against a schema that has been built, documents compile, or use a name that is not defined, or
have an impossible shape, or select a field on a union of the schema. No other fault is reported. -/
theorem Schema.compile_of_built (hbuilt : schema.Built) (texts : List SourceText) :
    (∃ document, schema.compile texts = .ok document) ∨
      (∃ error, schema.compile texts = .error (.reference error)) ∨
      (∃ error, schema.compile texts = .error (.malformed error)) ∨
      ∃ field type, schema.type? type.name = some (.union type) ∧
        schema.compile texts = .error (.invariant (.fieldOnUnion field type.name)) := by
  cases hcompile : schema.compile texts with
  | ok document => exact Or.inl ⟨document, rfl⟩
  | error error =>
      have hexplained := Schema.explained_of_compile hcompile
      cases error with
      | unparsable => exact hexplained.elim
      | reference error => exact Or.inr (Or.inl ⟨error, rfl⟩)
      | malformed error => exact Or.inr (Or.inr (Or.inl ⟨error, rfl⟩))
      | invariant error =>
          -- The schema is to blame, and it can be blamed for one thing only.
          obtain ⟨field, type, htype, rfl⟩ := hbuilt.coherent.onUnion_of_causes hexplained
          exact Or.inr (Or.inr (Or.inr ⟨field, type, htype, rfl⟩))

/-! ## A sample -/

namespace Sample

/-- A field as written, without parameters. -/
def sourceField (name type : String) : Source.FieldDefinition :=
  ⟨position, none, name, [], .named type true, []⟩

/-- A type as written. -/
def sourceType (name : String) (body : Source.TypeBody) : Source.TypeSystemDefinition :=
  .type ⟨position, none, name, [], body⟩

/-- `type Query { node: Node any: Any }`, `interface Node`, `type User implements Node` and
`union Any = User`, where `User` is extended by the interface only. -/
def sourceTypes : List Source.TypeSystemDefinition :=
  [.extension ⟨position, "User", [], .object ["Node"] []⟩,
    sourceType "Query" (.object [] [sourceField "node" "Node", sourceField "any" "Any"]),
    sourceType "Node" (.interface [] [sourceField "id" "Int"]),
    sourceType "User" (.object [] [sourceField "id" "Int"]),
    sourceType "Any" (.union ["User"])]

/-- What building the sample yields. -/
def build : Except SchemaError Schema := do
  (← SchemaDraft.empty.addAll ⟨none, false⟩ sourceTypes).build

/-- A test that the schema of the sample passes. -/
theorem exists_built (test : Schema → Bool) (h : build.toOption.any test = true) :
    ∃ schema : Schema, schema.Built ∧ test schema = true := by
  cases hbuild : build with
  | error error =>
      rw [hbuild] at h
      exact absurd h (by simp [Except.toOption])
  | ok schema =>
      rw [hbuild] at h
      obtain ⟨draft, hdraft, hschema⟩ := bind_eq_ok.mp hbuild
      exact ⟨schema, ⟨draft, .addAll .empty hdraft, hschema⟩, h⟩

/-- `query Q { any { id } }`, which selects a field on a union. -/
def onUnion : List SourceText :=
  query [.field ⟨position, none, "any", [], []⟩ [id none]] []

end Sample

theorem Schema.compile_of_built_sample : ∃ schema : Schema, schema.Built ∧
    schema.compile Sample.onUnion = .error (.invariant (.fieldOnUnion "id" "Any")) ∧
      ∃ field type, schema.type? type.name = some (.union type) ∧
        schema.compile Sample.onUnion = .error (.invariant (.fieldOnUnion field type.name)) := by
  obtain ⟨schema, hbuilt, htest⟩ := Sample.exists_built
    (fun schema => decide (Sample.error? (schema.compile Sample.onUnion) =
      some (.invariant (.fieldOnUnion "id" "Any")))) (by decide +kernel)
  have herror := Sample.error?_eq_some.mp (of_decide_eq_true htest)
  refine ⟨schema, hbuilt, herror, ?_⟩
  rcases Schema.compile_of_built hbuilt Sample.onUnion with
    ⟨_, h⟩ | ⟨_, h⟩ | ⟨_, h⟩ | hunion
  · rw [herror] at h
    exact nomatch h
  · rw [herror] at h
    exact nomatch h
  · rw [herror] at h
    exact nomatch h
  · exact hunion

end QueryShape
