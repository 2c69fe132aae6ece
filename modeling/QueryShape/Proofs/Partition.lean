import QueryShape.Proofs.Executable.SelectionSets
import QueryShape.Proofs.TypeCase.PartitionContent

/-!
# Partitions of compiled selection sets

Every selection set of a compiled document has a partition. Its variants divide the possible
types, and each of them selects for its object types what the selection set selects for them,
in order, up to repetitions.

## What this module delivers

- `CompiledFrom.partition_presents`: partitioning succeeds on every selection set of a
  compiled document.
- `Schema.partition_divides`: the variants are a partition of the possible types.
- `Schema.partition_selects`: what the variant of an object type selects.
- `Sample.schema`, `Sample.texts`: an interface with two object types, and a query that tells
  them apart.
-/

set_option autoImplicit false

namespace QueryShape

theorem CompiledFrom.partition_presents {schema : Schema} {texts : List SourceText}
    {definitions : Table FragmentSource} {document : CompiledDocument}
    (h : CompiledFrom schema texts definitions document) {set : SelectionSet}
    (hset : document.Has set) (options : TypeCaseOptions) :
    ∃ typeCase, document.fragments.partition options set = .ok typeCase ∧
      TypeCase.Presents document.fragments options set.possible
        (fun type => document.fragments.occurrences options type set) typeCase :=
  FragmentTable.partition_presents h.ordered options (h.resolves hset)

namespace TypeCase

variable {typeCase : TypeCase} {type : ObjectId}

/-- Every possible type lies in exactly one exhaustive variant. -/
theorem WellFormed.existsUnique_variant (h : typeCase.WellFormed)
    (htype : type ∈ typeCase.default.possible) :
    ∃! variant, variant ∈ typeCase.exhaustive ∧ type ∈ variant.possible := by
  obtain ⟨variant, hmem, hin⟩ := h.covered_iff.mpr htype
  refine ⟨variant, ⟨hmem, hin⟩, ?_⟩
  rintro other ⟨hother, hin'⟩
  -- Both are the variant of the type, cut down to disjoint or equal sets.
  obtain ⟨first, hfirst, rfl⟩ := List.mem_iff_getElem.mp hmem
  obtain ⟨second, hsecond, rfl⟩ := List.mem_iff_getElem.mp hother
  have hdisjoint := List.pairwise_iff_getElem.mp h.disjoint_exhaustive
  rcases Nat.lt_trichotomy first second with hlt | rfl | hlt
  · exact absurd hin' (hdisjoint first second hfirst hsecond hlt type hin)
  · rfl
  · exact absurd hin (hdisjoint second first hsecond hfirst hlt type hin')

end TypeCase

/-! ## A sample -/

namespace Sample

/-- Results as options, so that facts about them can be evaluated. -/
theorem mem_toOption {ε α : Type} {result : Except ε α} {value : α} :
    value ∈ result.toOption ↔ result = .ok value := by
  cases result with
  | error error => simp [Except.toOption]
  | ok other => simp [Except.toOption]

/-- The error of a result, so that facts about it can be evaluated. -/
def error? {ε α : Type} : Except ε α → Option ε
  | .error error => some error
  | .ok _ => none

theorem error?_eq_some {ε α : Type} {result : Except ε α} {error : ε} :
    error? result = some error ↔ result = .error error := by
  cases result with
  | error other => simp [error?]
  | ok value => simp [error?]

/-- A position of no importance. -/
def position : Position := ⟨1, 1⟩

/-- A field without parameters. -/
def field (name type : String) : FieldDefinition :=
  ⟨.builtIn, none, none, name, .empty, .named type true⟩

/-- An interface with the object types `Post` and `User`. -/
def schema : Schema where
  types := ⟨[
    ("Query", .object ⟨.builtIn, none, "Query", [], ⟨[("node", field "node" "Node")]⟩⟩),
    ("Int", .int),
    ("Node", .interface ⟨.builtIn, none, "Node", [], ⟨[("id", field "id" "Int")]⟩⟩),
    ("Post", .object ⟨.builtIn, none, "Post", ["Node"], ⟨[("id", field "id" "Int")]⟩⟩),
    ("User", .object ⟨.builtIn, none, "User", ["Node"], ⟨[("id", field "id" "Int")]⟩⟩)]⟩
  directives := ⟨[("include", .includeIf)]⟩
  query := "Query"
  mutation := none
  subscription := none
  objects := ["Query", "Post", "User"]
  possible := ⟨[("Query", ⟨3, 1, by decide⟩), ("Node", ⟨3, 6, by decide⟩),
    ("Post", ⟨3, 2, by decide⟩), ("User", ⟨3, 4, by decide⟩)]⟩

/-- `@include(if:)` with a variable. -/
def includeIf (name : String) : Source.Directive :=
  ⟨position, "include", [("if", .variable name)]⟩

/-- The field `id` under a key. -/
def id (key : Option String) : Source.Selection :=
  .field ⟨position, key, "id", [], []⟩ []

/-- `query Q { node { id ... on Post @include(if: $more) { post: id } ...F } }` with a fragment
on `User`. -/
def texts : List SourceText :=
  [⟨none, ⟨[
    .operation ⟨position, .query, some "Q", [], [],
      [.field ⟨position, none, "node", [], []⟩
        [id none,
          .inline ⟨position, some "Post", [⟨position, "include", [("if", .variable "more")]⟩]⟩
            [id (some "post")],
          .spread ⟨position, "F", []⟩]]⟩,
    .fragment ⟨position, "F", "User", [], [id (some "user")]⟩]⟩⟩]

/-- The field `node` on condition that some variables are true. -/
def node (included : List String) (selections : List Source.Selection) : Source.Selection :=
  .field ⟨position, none, "node", [], included.map includeIf⟩ selections

/-- A spread on condition that some variables are true. -/
def spread (included : List String) (name : String) : Source.Selection :=
  .spread ⟨position, name, included.map includeIf⟩

/-- An inline fragment on condition that some variables are true. -/
def inline (included : List String) (typeCondition : Option String)
    (selections : List Source.Selection) : Source.Selection :=
  .inline ⟨position, typeCondition, included.map includeIf⟩ selections

/-- A query of some selections, and fragments on `Node`. -/
def query (selections : List Source.Selection)
    (fragments : List (String × List Source.Selection)) : List SourceText :=
  [⟨none, ⟨.operation ⟨position, .query, some "Q", [], [], selections⟩ ::
    fragments.map fun (name, selections) => .fragment ⟨position, name, "Node", [], selections⟩⟩⟩]

/-- Whether the selections of some field of an operation pass a test. -/
def anySet (test : CompiledDocument → SelectionSet → Bool) (document : CompiledDocument) : Bool :=
  document.operations.any fun operation => operation.selections.selections.any fun
    | .field _ (some set) => test document set
    | _ => false

/-- A test that some selection set of the sample passes. -/
theorem exists_set (test : CompiledDocument → SelectionSet → Bool)
    (h : (schema.compile texts).toOption.any (anySet test) = true) :
    ∃ document set, schema.compile texts = .ok document ∧ document.Has set ∧
      test document set = true := by
  cases hcompile : schema.compile texts with
  | error error =>
      rw [hcompile] at h
      exact absurd h (by simp [Except.toOption])
  | ok document =>
      rw [hcompile] at h
      obtain ⟨operation, hoperation, h⟩ := List.any_eq_true.mp h
      obtain ⟨selection, hselection, h⟩ := List.any_eq_true.mp h
      split at h
      · next head set =>
          exact ⟨document, set, rfl, .operation hoperation (.field hselection (.self set)), h⟩
      · exact absurd h (by simp)

/-- The selection sets of the fields that the operations of a document select. -/
def fieldSets (document : CompiledDocument) : List SelectionSet :=
  document.operations.flatMap fun operation => operation.selections.selections.filterMap fun
    | .field _ nested => nested
    | _ => none

theorem has_of_mem_fieldSets {document : CompiledDocument} {set : SelectionSet}
    (h : set ∈ fieldSets document) : document.Has set := by
  obtain ⟨operation, hoperation, hset⟩ := List.mem_flatMap.mp h
  obtain ⟨selection, hselection, hnested⟩ := List.mem_filterMap.mp hset
  split at hnested
  · next head nested =>
      obtain rfl := hnested
      exact .operation hoperation (.field hselection (.self set))
  · exact absurd hnested (by simp)

end Sample

/-! ## The partition -/

section Partition

variable {schema : Schema} {texts : List SourceText} {document : CompiledDocument}
  {set : SelectionSet}

/-- The variants of a selection set divide its possible types. The default variant spans all
of them; the exhaustive variants are inhabited, disjoint and together exhaust them, so that
every possible type lies in exactly one. -/
theorem Schema.partition_divides (h : schema.compile texts = .ok document)
    (hset : document.Has set) (options : TypeCaseOptions) :
    ∃ typeCase, document.fragments.partition options set = .ok typeCase ∧
      typeCase.default.possible = set.possible ∧
      (∀ variant ∈ typeCase.exhaustive, variant.possible.isEmpty = false) ∧
      (typeCase.exhaustive.Pairwise fun left right =>
        left.possible.disjoint right.possible = true) ∧
      TypeCase.unionOf set.possible.capacity typeCase.exhaustive = set.possible ∧
      ∀ type ∈ set.possible,
        ∃! variant, variant ∈ typeCase.exhaustive ∧ type ∈ variant.possible := by
  obtain ⟨definitions, hfrom⟩ := Schema.compile_spec h
  obtain ⟨typeCase, hpartition, hpresents⟩ := hfrom.partition_presents hset options
  have hwell := hpresents.wellFormed
  refine ⟨typeCase, hpartition, hpresents.spans, ?_, ?_, ?_, ?_⟩
  · intro variant hmem
    exact PossibleTypes.isEmpty_eq_false_iff.mpr (hwell.inhabited_exhaustive hmem)
  · exact hwell.disjoint_exhaustive.imp fun hdisjoint => PossibleTypes.disjoint_iff.mpr hdisjoint
  · have hunion := TypeCase.HasCapacity.unionOf_exhaustive
      (hpresents.spans.symm ▸ hpresents.capacity) hwell
    rwa [hpresents.spans] at hunion
  · intro type htype
    exact hwell.existsUnique_variant (hpresents.spans.symm ▸ htype)

theorem Schema.partition_divides_sample : ∃ document set,
    Sample.schema.compile Sample.texts = .ok document ∧ document.Has set ∧ 1 ∈ set.possible ∧
      ∃ typeCase, document.fragments.partition .standard set = .ok typeCase ∧
        ∃! variant, variant ∈ typeCase.exhaustive ∧ 1 ∈ variant.possible := by
  obtain ⟨document, set, hcompile, hset, htype⟩ :=
    Sample.exists_set (fun _ set => set.possible.contains 1) (by decide +kernel)
  obtain ⟨typeCase, hpartition, -, -, -, -, hvariant⟩ :=
    Schema.partition_divides hcompile hset .standard
  exact ⟨document, set, hcompile, hset, htype, typeCase, hpartition, hvariant 1 htype⟩

/-! ## The selections of a variant -/

/-- The variant of an object type selects what the selection set selects for the type: with
repetitions left out, both list the same items in the same order. Everything in the variant
applies to all of its object types, and its inline fragments carry nothing but conditions. -/
theorem Schema.partition_selects (h : schema.compile texts = .ok document)
    (hset : document.Has set) (options : TypeCaseOptions) :
    ∃ typeCase, document.fragments.partition options set = .ok typeCase ∧
      ∀ type ∈ set.possible, ∃ variant ∈ typeCase.exhaustive, type ∈ variant.possible ∧
        (∀ other ∈ typeCase.exhaustive, type ∈ other.possible → other = variant) ∧
        variant.Settled options ∧
        (variant.content.map Occurrence.item).eraseDups =
          ((document.fragments.occurrences options type set).map Occurrence.item).eraseDups := by
  obtain ⟨definitions, hfrom⟩ := Schema.compile_spec h
  obtain ⟨typeCase, hpartition, hpresents⟩ := hfrom.partition_presents hset options
  refine ⟨typeCase, hpartition, fun type htype => ?_⟩
  obtain ⟨variant, ⟨hmem, hin⟩, hunique⟩ :=
    hpresents.wellFormed.existsUnique_variant (hpresents.spans.symm ▸ htype)
  refine ⟨variant, hmem, hin, fun other hother hin' => hunique other ⟨hother, hin'⟩,
    hpresents.settled.exhaustive (Variant.narrows_settled options) hmem, ?_⟩
  have hcontent : variant.content = (typeCase.holdingFor type).content :=
    congrArg Holding.content (hpresents.wellFormed.holding_of_mem_exhaustive hmem hin)
  rw [hcontent]
  exact (hpresents.content type htype).eraseDups_map Occurrence.item fun _ _ heq => heq

theorem Schema.partition_selects_sample : ∃ document set,
    Sample.schema.compile Sample.texts = .ok document ∧ document.Has set ∧ 1 ∈ set.possible ∧
      ∃ typeCase, document.fragments.partition .standard set = .ok typeCase ∧
        ∃ variant ∈ typeCase.exhaustive, 1 ∈ variant.possible ∧
          (variant.content.map Occurrence.item).eraseDups =
            ((document.fragments.occurrences .standard 1 set).map Occurrence.item).eraseDups := by
  obtain ⟨document, set, hcompile, hset, htype⟩ :=
    Sample.exists_set (fun _ set => set.possible.contains 1) (by decide +kernel)
  obtain ⟨typeCase, hpartition, hall⟩ := Schema.partition_selects hcompile hset .standard
  obtain ⟨variant, hmem, hin, -, -, hcontent⟩ := hall 1 htype
  exact ⟨document, set, hcompile, hset, htype, typeCase, hpartition, variant, hmem, hin, hcontent⟩

end Partition

end QueryShape
