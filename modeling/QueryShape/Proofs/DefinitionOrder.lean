import Mathlib
import QueryShape.Proofs.BuiltSchema
import QueryShape.Proofs.Schema.PossibleTypes

/-!
# The order of definitions

Definitions may stand in any order, in any number of texts, as long as extensions keep theirs. They
are accepted in one order if they are in another, and the schemas bind the same names to the same
types and directives, have the same root types, and give composite types the same possible types.
The order shows in the numbers of object types and nowhere else.

## What this module delivers

- `Source.parseAll?`, `Schema.ofSources`: the definitions in texts, and the schema that they make.
- `Schema.SameByName`: schemas that cannot be told apart by names.
- `Schema.ofDefinitions_perm`: permuted definitions.
- `Schema.definition_order`: texts with permuted definitions.
-/

set_option autoImplicit false

namespace QueryShape

open Source (TypeSystemDefinition)

/-! ## Texts -/

/-- The definitions in texts, in order, each with the name of the file that it stands in; `none` if
one of the texts denotes none. -/
def Source.parseAll? : List (Option FileName × String) →
    Option (List (Option FileName × TypeSystemDefinition))
  | [] => some []
  | (file, text) :: sources => do
      let definitions ← TypeSystemDefinition.parse? text
      return definitions.map (file, ·) ++ (← parseAll? sources)

/-- The schema that texts define together, each with the name of its file. -/
def Schema.ofSources (sources : List (Option FileName × String)) : Except SchemaError Schema := do
  let draft ← sources.foldlM (fun draft source => SchemaDraft.load draft source.1 source.2) .empty
  draft.build

/-- Loading texts is entering the definitions in them. -/
theorem SchemaDraft.foldlM_load (sources : List (Option FileName × String))
    {definitions : List (Option FileName × TypeSystemDefinition)}
    (hparse : Source.parseAll? sources = some definitions) (draft : SchemaDraft) :
    sources.foldlM (fun draft source => SchemaDraft.load draft source.1 source.2) draft =
      definitions.foldlM (fun draft entry => SchemaDraft.add ⟨entry.1, false⟩ draft entry.2)
        draft := by
  induction sources generalizing definitions draft with
  | nil =>
      cases hparse
      rfl
  | cons source sources ih =>
      obtain ⟨file, text⟩ := source
      obtain ⟨first, hfirst, hparse⟩ := Option.bind_eq_some_iff.mp hparse
      obtain ⟨rest, hrest, hparse⟩ := Option.bind_eq_some_iff.mp hparse
      cases hparse
      have hload : draft.load file text = draft.addAll ⟨file, false⟩ first := by
        rw [load, hfirst]
      -- The definitions of a text are entered before the next text is loaded.
      rw [List.foldlM_cons, List.foldlM_append, List.foldlM_map, hload]
      exact bind_congr fun middle => ih hrest middle

theorem Schema.ofSources_eq {sources : List (Option FileName × String)}
    {definitions : List (Option FileName × TypeSystemDefinition)}
    (hparse : Source.parseAll? sources = some definitions) :
    Schema.ofSources sources = Schema.ofDefinitions definitions := by
  rw [ofSources, ofDefinitions, SchemaDraft.foldlM_load sources hparse]

/-! ## Schemas that agree by name -/

/-- Two schemas that name the same root types, bind the same names to the same types and directives
up to locations, and give the same possible types to composite types, as far as names go. -/
structure Schema.SameByName (schema schema' : Schema) : Prop where
  roots : ∀ kind, schema.root? kind = schema'.root? kind
  types : ∀ name, (schema.type? name).map NamedType.unplaced =
    (schema'.type? name).map NamedType.unplaced
  directives : ∀ name, (schema.directive? name).map DirectiveDefinition.unplaced =
    (schema'.directive? name).map DirectiveDefinition.unplaced
  possible : ∀ name, schema.possibleObjects? name = schema'.possibleObjects? name

namespace Schema

variable {schema schema' schema'' : Schema}

theorem SameByName.trans (h : schema.SameByName schema') (h' : schema'.SameByName schema'') :
    schema.SameByName schema'' where
  roots kind := (h.roots kind).trans (h'.roots kind)
  types name := (h.types name).trans (h'.types name)
  directives name := (h.directives name).trans (h'.directives name)
  possible name := (h.possible name).trans (h'.possible name)

theorem SameByName.of_unplaced_eq (h : schema.unplaced = schema'.unplaced) :
    schema.SameByName schema' where
  roots kind := by
    have hroots : schema.unplaced.root? kind = schema'.unplaced.root? kind := by rw [h]
    cases kind <;> exact hroots
  types := Table.get?_congr (congrArg Schema.types h)
  directives := Table.get?_congr (congrArg Schema.directives h)
  possible name := by
    -- Locations do not enter into the numbers and sets of a schema.
    have hpossible : schema.unplaced.possibleObjects? name =
        schema'.unplaced.possibleObjects? name := by rw [h]
    exact hpossible

/-! ## Permuted definitions -/

section Permuted

open SchemaDraft

variable {definitions definitions' : List (Option FileName × TypeSystemDefinition)}

theorem exists_ofDefinitions_perm (hperm : definitions.Perm definitions')
    (hextensions : (givenEntries definitions).filterMap madeExtension? =
      (givenEntries definitions').filterMap madeExtension?)
    (hschema : Schema.ofDefinitions definitions = .ok schema) :
    ∃ schema', Schema.ofDefinitions definitions' = .ok schema' ∧ schema.SameByName schema' := by
  have hnamed := (built_of_ofDefinitions hschema).coherent.named
  obtain ⟨_, types, ⟨h, rfl⟩, hextended, hfinishes⟩ := ofDefinitions_eq_ok_iff.mp hschema
  obtain rfl : schema.types = types := by rw [hfinishes.schema]
  -- The introspection types come last in either case.
  have hentries : (givenEntries definitions ++ introspectionEntries).Perm
      (givenEntries definitions' ++ introspectionEntries) :=
    (hperm.map _).append_right _
  have hdraft := rearranged_entered (by decide) (by decide) h hentries (by
    rw [List.filterMap_append, List.filterMap_append, hextensions])
  obtain ⟨types', hextended', htypes⟩ :=
    (foldlM_applyExtension_rearranged hdraft.types _).exists_ok hextended
  rw [hdraft.extensions] at hextended'
  -- Every check depends on what names are bound to, and that is the same in both drafts.
  have hfinishes' := hfinishes.rearranged hdraft htypes
  refine ⟨_, ofDefinitions_eq_ok_iff.mpr ⟨_, types', ⟨h.perm hentries, rfl⟩, hextended',
    hfinishes'⟩, ?_, ?_, ?_, hfinishes.possibleObjects?_congr hfinishes' hnamed htypes⟩
  · intro kind
    cases kind <;> rfl
  · exact fun name => congrArg (Option.map _) (htypes.get?_eq name)
  · intro name
    have hdirectives : schema.directives = _ := congrArg Schema.directives hfinishes.schema
    rw [directive?, hdirectives, directive?,
      (rearranged_withBuiltIns hdraft.directives).get?_eq name]

/-- Definitions are accepted in any order, with the same result as far as names go. -/
theorem ofDefinitions_perm (hperm : definitions.Perm definitions')
    (hextensions : (givenEntries definitions).filterMap madeExtension? =
      (givenEntries definitions').filterMap madeExtension?) :
    SucceedAlike SameByName (Schema.ofDefinitions definitions)
      (Schema.ofDefinitions definitions') := by
  refine .of_exists (fun schema hschema => exists_ofDefinitions_perm hperm hextensions hschema)
    fun schema' hschema' => ?_
  obtain ⟨schema, hschema, -⟩ := exists_ofDefinitions_perm hperm.symm hextensions.symm hschema'
  exact ⟨schema, hschema⟩

/-- Definitions without layout and files. -/
def withoutPlaces (definitions : List (Option FileName × TypeSystemDefinition)) :
    List (Option FileName × TypeSystemDefinition) :=
  (definitions.map fun entry => entry.2.unplaced).map (none, ·)

theorem ofDefinitions_withoutPlaces
    (definitions : List (Option FileName × TypeSystemDefinition)) :
    SucceedAlike (fun schema schema' : Schema => schema.unplaced = schema'.unplaced)
      (Schema.ofDefinitions definitions) (Schema.ofDefinitions (withoutPlaces definitions)) := by
  refine ofDefinitions_alike ?_
  rw [withoutPlaces, List.map_map, List.map_map]
  exact List.map_congr_left fun entry _ => entry.2.unplaced_unplaced.symm

theorem filterMap_madeExtension?_withoutPlaces
    (definitions : List (Option FileName × TypeSystemDefinition)) :
    (givenEntries (withoutPlaces definitions)).filterMap madeExtension? =
      ((definitions.map fun entry => entry.2.unplaced).filterMap
        TypeSystemDefinition.extension?).map (none, ·) := by
  rw [givenEntries, withoutPlaces, List.map_map, List.filterMap_map, List.map_filterMap]
  rfl

end Permuted

/-- Texts with the same definitions in another order, except that extensions keep theirs, make
schemas together, and these agree in all that can be asked for by name. -/
theorem definition_order {sources sources' : List (Option FileName × String)}
    {definitions definitions' : List (Option FileName × TypeSystemDefinition)}
    (hparse : Source.parseAll? sources = some definitions)
    (hparse' : Source.parseAll? sources' = some definitions')
    (hperm : (definitions.map fun entry => entry.2.unplaced).Perm
      (definitions'.map fun entry => entry.2.unplaced))
    (hextensions :
      (definitions.map fun entry => entry.2.unplaced).filterMap TypeSystemDefinition.extension? =
        (definitions'.map fun entry => entry.2.unplaced).filterMap
          TypeSystemDefinition.extension?) :
    SucceedAlike SameByName (Schema.ofSources sources) (Schema.ofSources sources') := by
  rw [ofSources_eq hparse, ofSources_eq hparse']
  -- Without their places the definitions of one side are those of the other, permuted.
  have hmiddle : SucceedAlike SameByName (Schema.ofDefinitions (withoutPlaces definitions))
      (Schema.ofDefinitions (withoutPlaces definitions')) := by
    refine ofDefinitions_perm (hperm.map _) ?_
    rw [filterMap_madeExtension?_withoutPlaces, filterMap_madeExtension?_withoutPlaces,
      hextensions]
  have hfirst : SucceedAlike SameByName (Schema.ofDefinitions definitions)
      (Schema.ofDefinitions (withoutPlaces definitions')) :=
    (ofDefinitions_withoutPlaces definitions).trans hmiddle
      fun _ _ _ hsame h => (SameByName.of_unplaced_eq hsame).trans h
  exact hfirst.trans (ofDefinitions_withoutPlaces definitions').symm
    fun _ _ _ h hsame => h.trans (SameByName.of_unplaced_eq hsame.symm)

end Schema

/-! ## A sample -/

namespace Sample

/-- `type Query { any: Any }`, `type User { id: Int }` and `union Any = User`. -/
def userTypes : List TypeSystemDefinition :=
  [sourceType "Query" (.object [] [sourceField "any" "Any"]),
    sourceType "User" (.object [] [sourceField "id" "Int"]),
    sourceType "Any" (.union ["User"])]

/-- An interface for `User` and another member for `Any`, by extensions. -/
def botTypes : List TypeSystemDefinition :=
  [.extension ⟨position, "User", [], .object ["Node"] []⟩,
    sourceType "Node" (.interface [] [sourceField "id" "Int"]),
    .extension ⟨position, "Any", [], .union ["Bot"]⟩,
    sourceType "Bot" (.object [] [sourceField "id" "Int"])]

/-- Texts in which the extensions come last. -/
def extendedLater : List (Option FileName × String) :=
  [(some ⟨"users.graphql"⟩, "type Query { any: Any } type User { id: Int } union Any = User"),
    (none, "extend type User implements Node interface Node { id: Int }
      extend union Any = Bot type Bot { id: Int }")]

/-- Texts in which the extensions come first. -/
def extendedBefore : List (Option FileName × String) :=
  [(none, "extend type User implements Node interface Node { id: Int }"),
    (none, "extend union Any = Bot type Bot { id: Int }
      type Query { any: Any } type User { id: Int }"),
    (some ⟨"any.graphql"⟩, "union Any = User")]

theorem parseAll?_extendedLater :
    (Source.parseAll? extendedLater).map (List.map fun entry => entry.2.unplaced) =
      some ((userTypes ++ botTypes).map TypeSystemDefinition.unplaced) := by
  cbv

theorem parseAll?_extendedBefore :
    (Source.parseAll? extendedBefore).map (List.map fun entry => entry.2.unplaced) =
      some ((botTypes ++ userTypes).map TypeSystemDefinition.unplaced) := by
  cbv

end Sample

theorem Schema.definition_order_sample : ∃ schema schema',
    Schema.ofSources Sample.extendedLater = .ok schema ∧
      Schema.ofSources Sample.extendedBefore = .ok schema' ∧
      schema.objects ≠ schema'.objects ∧ schema.SameByName schema' := by
  obtain ⟨definitions, hparse, hdefinitions⟩ :=
    Option.map_eq_some_iff.mp Sample.parseAll?_extendedLater
  obtain ⟨definitions', hparse', hdefinitions'⟩ :=
    Option.map_eq_some_iff.mp Sample.parseAll?_extendedBefore
  have hsame : SucceedAlike Schema.SameByName (Schema.ofSources Sample.extendedLater)
      (Schema.ofSources Sample.extendedBefore) := by
    refine Schema.definition_order hparse hparse' ?_ ?_
    · rw [hdefinitions, hdefinitions', List.map_append, List.map_append]
      exact List.perm_append_comm
    · rw [hdefinitions, hdefinitions']
      rfl
  -- The first object type is `Query` in one schema and `Bot` in the other.
  have hfirst : (Schema.ofSources Sample.extendedLater).toOption.map
      (fun schema => schema.objects.head?) = some (some "Query") := by
    decide +kernel
  have hfirst' : (Schema.ofSources Sample.extendedBefore).toOption.map
      (fun schema => schema.objects.head?) = some (some "Bot") := by
    decide +kernel
  obtain ⟨schema, hschema, hhead⟩ := Option.map_eq_some_iff.mp hfirst
  obtain ⟨other, hother, hhead'⟩ := Option.map_eq_some_iff.mp hfirst'
  have hschema := Sample.mem_toOption.mp hschema
  have hother := Sample.mem_toOption.mp hother
  obtain ⟨schema', hschema', hsame⟩ := hsame.exists_ok hschema
  obtain rfl : schema' = other := Except.ok.inj (hschema'.symm.trans hother)
  refine ⟨schema, schema', hschema, hschema', fun hobjects => ?_, hsame⟩
  rw [hobjects, hhead'] at hhead
  exact absurd hhead (by decide)

end QueryShape
