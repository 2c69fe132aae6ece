import QueryShape.Proofs.Executable.Success
import QueryShape.Proofs.Partition

/-!
# Which directives have to be declared

A directive may stand on an operation, on a fragment and on selections of all three kinds. Compiling
looks each of them up in the schema, along with its arguments, wherever it stands. There is one
exception: a spread of a fragment that was spread before on the way to it is left out before anybody
looks at its directives.

Apart from this, directives have no say in whether documents compile. They compile exactly if they
would without their directives, and the schema declares all directives that are looked at.

## What this module delivers

- `Source.Definition.sites`: all directives that stand in a definition, each with a mark if it
  stands on a repeated spread.
- `Source.Definition.withoutDirectives`, `SourceText.withoutDirectives`: the same definition and
  the same document with no directives in it.
- `Source.Definition.fits_iff`: what a definition needs, taken apart into what it needs without its
  directives and what these need.
- `Schema.directives_declared`: which directives documents that compile have to declare.
- `Schema.directives_declared_unlessRepeated`: a directive on a repeated spread need not be
  declared.
-/

set_option autoImplicit false

namespace QueryShape

namespace Source

/-! ## The directives of a definition -/

/-- A directive where it stands. The mark tells whether that is on a spread of a name that was
spread before on the way to it. -/
structure DirectiveSite where
  directive : Directive
  repeated : Bool

mutual

/-- The directives in a selection, given the names spread before on the way to it. -/
def Selection.sites (seen : NameSet) : Selection → List DirectiveSite
  | .field head selections =>
      head.directives.map (DirectiveSite.mk · false) ++ Selection.sitesIn .empty selections
  | .spread head => head.directives.map (DirectiveSite.mk · (seen.contains head.name))
  | .inline head selections =>
      head.directives.map (DirectiveSite.mk · false) ++ Selection.sitesIn seen selections

/-- The directives in selections. -/
def Selection.sitesIn (seen : NameSet) : List Selection → List DirectiveSite
  | [] => []
  | selection :: rest =>
      selection.sites seen ++ Selection.sitesIn (seenBehind seen selection) rest

end

/-- The directives in a definition: its own, and those of its selections. -/
def Definition.sites : Definition → List DirectiveSite
  | .anonymous _ selections => Selection.sitesIn .empty selections
  | .operation definition =>
      definition.directives.map (DirectiveSite.mk · false) ++
        Selection.sitesIn .empty definition.selections
  | .fragment definition =>
      definition.directives.map (DirectiveSite.mk · false) ++
        Selection.sitesIn .empty definition.selections

/-! ## Leaving directives out -/

/-- A field without directives. -/
def Field.withoutDirectives (field : Field) : Field :=
  { field with directives := [] }

/-- A spread without directives. -/
def Spread.withoutDirectives (spread : Spread) : Spread :=
  { spread with directives := [] }

/-- An inline fragment without directives. -/
def InlineFragment.withoutDirectives (fragment : InlineFragment) : InlineFragment :=
  { fragment with directives := [] }

mutual

/-- A selection without directives, neither its own nor nested ones. -/
def Selection.withoutDirectives : Selection → Selection
  | .field head selections =>
      .field head.withoutDirectives (Selection.allWithoutDirectives selections)
  | .spread head => .spread head.withoutDirectives
  | .inline head selections =>
      .inline head.withoutDirectives (Selection.allWithoutDirectives selections)

/-- Selections without directives. -/
def Selection.allWithoutDirectives : List Selection → List Selection
  | [] => []
  | selection :: rest => selection.withoutDirectives :: Selection.allWithoutDirectives rest

end

/-- An operation without directives. -/
def Operation.withoutDirectives (operation : Operation) : Operation :=
  { operation with
    directives := [], selections := Selection.allWithoutDirectives operation.selections }

/-- A fragment without directives. -/
def Fragment.withoutDirectives (fragment : Fragment) : Fragment :=
  { fragment with
    directives := [], selections := Selection.allWithoutDirectives fragment.selections }

/-- A definition without directives. -/
def Definition.withoutDirectives : Definition → Definition
  | .anonymous position selections =>
      .anonymous position (Selection.allWithoutDirectives selections)
  | .operation definition => .operation definition.withoutDirectives
  | .fragment definition => .fragment definition.withoutDirectives

end Source

/-- A document of a file without directives. -/
def SourceText.withoutDirectives (text : SourceText) : SourceText :=
  { text with document := ⟨text.document.definitions.map Source.Definition.withoutDirectives⟩ }

namespace Source

theorem definitions_withoutDirectives (texts : List SourceText) :
    definitions (texts.map SourceText.withoutDirectives) =
      (definitions texts).map Definition.withoutDirectives := by
  rw [definitions, definitions, List.flatMap_map, List.map_flatMap]
  rfl

/-! ## What stays the same -/

theorem seenBehind_withoutDirectives (seen : NameSet) (selection : Selection) :
    seenBehind seen selection.withoutDirectives = seenBehind seen selection := by
  cases selection with
  | field head selections => rfl
  | spread head => rfl
  | inline head selections => rfl

theorem allWithoutDirectives_eq_nil_iff {selections : List Selection} :
    Selection.allWithoutDirectives selections = [] ↔ selections = [] := by
  cases selections with
  | nil => exact Iff.rfl
  | cons first rest => simp [Selection.allWithoutDirectives]

mutual

theorem Selection.spreads_withoutDirectives (selection : Selection) :
    selection.withoutDirectives.spreads = selection.spreads := by
  cases selection with
  | field head selections => exact Selection.spreadsIn_withoutDirectives selections
  | spread head => rfl
  | inline head selections => exact Selection.spreadsIn_withoutDirectives selections

theorem Selection.spreadsIn_withoutDirectives (selections : List Selection) :
    Selection.spreadsIn (Selection.allWithoutDirectives selections) =
      Selection.spreadsIn selections := by
  cases selections with
  | nil => rfl
  | cons first rest =>
      rw [Selection.allWithoutDirectives, Selection.spreadsIn, Selection.spreadsIn,
        Selection.spreads_withoutDirectives first, Selection.spreadsIn_withoutDirectives rest]

end

/-- Leaving directives out changes no names. -/
theorem keepsNames_withoutDirectives : KeepsNames Definition.withoutDirectives where
  operation? definition := by
    cases definition with
    | anonymous position selections => rfl
    | operation operation => rfl
    | fragment fragment => rfl
  fragment? definition := by
    cases definition with
    | anonymous position selections => rfl
    | operation operation => rfl
    | fragment fragment => rfl
  spreads definition := by
    cases definition with
    | anonymous position selections => exact Selection.spreadsIn_withoutDirectives selections
    | operation operation => exact Selection.spreadsIn_withoutDirectives operation.selections
    | fragment fragment => exact Selection.spreadsIn_withoutDirectives fragment.selections

end Source

/-! ## What directives need -/

/-- A schema clears directives if it declares those that do not stand on repeated spreads. -/
def Schema.Clears (schema : Schema) (sites : List Source.DirectiveSite) : Prop :=
  ∀ site ∈ sites, site.repeated = false → schema.Declares site.directive

section Clears

variable {schema : Schema}

theorem Schema.clears_append {first rest : List Source.DirectiveSite} :
    schema.Clears (first ++ rest) ↔ schema.Clears first ∧ schema.Clears rest :=
  List.forall_mem_append

theorem Schema.clears_map_mk {directives : List Source.Directive} {repeated : Bool} :
    schema.Clears (directives.map (Source.DirectiveSite.mk · repeated)) ↔
      (repeated = false → schema.DeclaresAll directives) := by
  rw [Schema.Clears, List.forall_mem_map, Schema.DeclaresAll]
  constructor
  · intro h hfirst directive hmem
    exact h directive hmem hfirst
  · intro h directive hmem hfirst
    exact h hfirst directive hmem

theorem Schema.clears_map_mk_false {directives : List Source.Directive} :
    schema.Clears (directives.map (Source.DirectiveSite.mk · false)) ↔
      schema.DeclaresAll directives :=
  Schema.clears_map_mk.trans (forall_prop_of_true rfl)

theorem Schema.declaresAll_nil : schema.DeclaresAll [] :=
  List.forall_mem_nil _

end Clears

namespace Source

variable {schema : Schema} {all : List Definition}

theorem hasField_iff_withoutDirectives {parent : NamedType} {field : Field} {type : NamedType} :
    schema.HasField parent field type ↔
      schema.HasField parent field.withoutDirectives type ∧
        schema.DeclaresAll field.directives := by
  constructor
  · rintro ⟨definition, hfield, htype, hdefines, hdirectives⟩
    exact ⟨⟨definition, hfield, htype, hdefines, Schema.declaresAll_nil⟩, hdirectives⟩
  · rintro ⟨⟨definition, hfield, htype, hdefines, -⟩, hdirectives⟩
    exact ⟨definition, hfield, htype, hdefines, hdirectives⟩

mutual

/-- What a selection needs, taken apart into what it needs without its directives and what these
need. -/
theorem Selection.fits_iff (parent : NamedType) (seen : NameSet) (selection : Selection) :
    selection.Fits schema parent seen ↔
      selection.withoutDirectives.Fits schema parent seen ∧
        schema.Clears (selection.sites seen) := by
  cases selection with
  | field head selections =>
      simp only [Selection.withoutDirectives, Selection.Fits, Selection.sites,
        Schema.clears_append, Schema.clears_map_mk_false, ne_eq, allWithoutDirectives_eq_nil_iff]
      constructor
      · rintro ⟨type, hfield, hshape, hnested⟩
        obtain ⟨hfield, hdirectives⟩ := hasField_iff_withoutDirectives.mp hfield
        by_cases hcomposite : type.isComposite = true
        · obtain ⟨hpossible, hall⟩ := hnested hcomposite
          obtain ⟨hall, hclears⟩ := (Selection.allFit_iff type .empty selections).mp hall
          exact ⟨⟨type, hfield, hshape, fun _ => ⟨hpossible, hall⟩⟩, hdirectives, hclears⟩
        · -- Nothing is nested in a field of a type that is not composite.
          have hnil : selections = [] := by_contra fun hne => hcomposite (hshape.mpr hne)
          subst hnil
          exact ⟨⟨type, hfield, hshape, fun h => absurd h hcomposite⟩, hdirectives,
            List.forall_mem_nil _⟩
      · rintro ⟨⟨type, hfield, hshape, hnested⟩, hdirectives, hclears⟩
        refine ⟨type, hasField_iff_withoutDirectives.mpr ⟨hfield, hdirectives⟩, hshape, ?_⟩
        intro hcomposite
        obtain ⟨hpossible, hall⟩ := hnested hcomposite
        exact ⟨hpossible, (Selection.allFit_iff type .empty selections).mpr ⟨hall, hclears⟩⟩
  | spread head =>
      rw [Selection.withoutDirectives, Selection.Fits, Selection.Fits, Selection.sites,
        Schema.clears_map_mk]
      exact (and_iff_right fun _ => Schema.declaresAll_nil).symm
  | inline head selections =>
      simp only [Selection.withoutDirectives, Selection.Fits, Selection.sites,
        Schema.clears_append, Schema.clears_map_mk_false]
      constructor
      · rintro ⟨inner, hnarrows, hdirectives, hall⟩
        obtain ⟨hall, hclears⟩ := (Selection.allFit_iff inner seen selections).mp hall
        exact ⟨⟨inner, hnarrows, Schema.declaresAll_nil, hall⟩, hdirectives, hclears⟩
      · rintro ⟨⟨inner, hnarrows, -, hall⟩, hdirectives, hclears⟩
        exact ⟨inner, hnarrows, hdirectives,
          (Selection.allFit_iff inner seen selections).mpr ⟨hall, hclears⟩⟩

theorem Selection.allFit_iff (parent : NamedType) (seen : NameSet) (selections : List Selection) :
    Selection.AllFit schema parent seen selections ↔
      Selection.AllFit schema parent seen (Selection.allWithoutDirectives selections) ∧
        schema.Clears (Selection.sitesIn seen selections) := by
  cases selections with
  | nil => exact ⟨fun _ => ⟨trivial, List.forall_mem_nil _⟩, fun _ => trivial⟩
  | cons first rest =>
      rw [Selection.AllFit, Selection.allWithoutDirectives, Selection.AllFit,
        Selection.sitesIn, Schema.clears_append, seenBehind_withoutDirectives,
        Selection.fits_iff parent seen first,
        Selection.allFit_iff parent (seenBehind seen first) rest]
      exact and_and_and_comm

end

/-- What a definition needs, taken apart in the same way. -/
theorem Definition.fits_iff (definition : Definition) :
    definition.Fits schema ↔
      definition.withoutDirectives.Fits schema ∧ schema.Clears definition.sites := by
  cases definition with
  | anonymous position selections => exact ⟨False.elim, fun h => h.1.elim⟩
  | operation definition =>
      simp only [Definition.withoutDirectives, Definition.Fits, Operation.Fits,
        Operation.withoutDirectives, Definition.sites, Schema.clears_append,
        Schema.clears_map_mk_false]
      constructor
      · rintro ⟨root, type, hname, hroot, hdeclared, hdirectives, hpossible, htype, hall⟩
        obtain ⟨hall, hclears⟩ := (Selection.allFit_iff type .empty _).mp hall
        exact ⟨⟨root, type, hname, hroot, hdeclared, Schema.declaresAll_nil, hpossible, htype,
          hall⟩, hdirectives, hclears⟩
      · rintro ⟨⟨root, type, hname, hroot, hdeclared, -, hpossible, htype, hall⟩, hdirectives,
          hclears⟩
        exact ⟨root, type, hname, hroot, hdeclared, hdirectives, hpossible, htype,
          (Selection.allFit_iff type .empty _).mpr ⟨hall, hclears⟩⟩
  | fragment definition =>
      simp only [Definition.withoutDirectives, Definition.Fits, Fragment.Fits,
        Fragment.withoutDirectives, Definition.sites, Schema.clears_append,
        Schema.clears_map_mk_false]
      constructor
      · rintro ⟨type, hcondition, hdirectives, hall⟩
        obtain ⟨hall, hclears⟩ := (Selection.allFit_iff type .empty _).mp hall
        exact ⟨⟨type, hcondition, Schema.declaresAll_nil, hall⟩, hdirectives, hclears⟩
      · rintro ⟨⟨type, hcondition, -, hall⟩, hdirectives, hclears⟩
        exact ⟨type, hcondition, hdirectives,
          (Selection.allFit_iff type .empty _).mpr ⟨hall, hclears⟩⟩

/-- Definitions compile together if they do without their directives and these are cleared. -/
theorem compilable_iff_withoutDirectives :
    Compilable schema all ↔
      Compilable schema (all.map Definition.withoutDirectives) ∧
        ∀ definition ∈ all, schema.Clears definition.sites := by
  have hwithout (hclears : ∀ definition ∈ all, schema.Clears definition.sites) :
      Compilable schema (all.map Definition.withoutDirectives) ↔ Compilable schema all :=
    keepsNames_withoutDirectives.compilable_iff fun definition hmem =>
      (definition.fits_iff.trans (and_iff_left (hclears definition hmem))).symm
  constructor
  · intro h
    have hclears : ∀ definition ∈ all, schema.Clears definition.sites :=
      fun definition hmem => (definition.fits_iff.mp (h.fits definition hmem)).2
    exact ⟨(hwithout hclears).mpr h, hclears⟩
  · rintro ⟨h, hclears⟩
    exact (hwithout hclears).mp h

end Source

/-! ## The directives of documents -/

/-- Documents compile exactly if they compile without their directives, and all directives in them
are declared by the schema and pass only arguments that are, except on spreads of names that were
spread before on the way to them. -/
theorem Schema.directives_declared (schema : Schema) (texts : List SourceText) :
    (∃ document, schema.compile texts = .ok document) ↔
      (∃ document, schema.compile (texts.map SourceText.withoutDirectives) = .ok document) ∧
        ∀ definition ∈ Source.definitions texts, ∀ site ∈ definition.sites,
          site.repeated = false → schema.Declares site.directive := by
  rw [Schema.compile_succeeds_iff, Schema.compile_succeeds_iff,
    Source.definitions_withoutDirectives]
  exact Source.compilable_iff_withoutDirectives

/-- `query Q { node { ...F ...F @nope } }`, with a fragment `F`. -/
def Sample.undeclared : List SourceText :=
  Sample.query
    [Sample.node [] [Sample.spread [] "F",
      .spread ⟨Sample.position, "F", [⟨Sample.position, "nope", []⟩]⟩]]
    [("F", [Sample.id none])]

/-- The exception is one: `query Q { node { ...F ...F @nope } }` compiles, although the schema
declares no directive `@nope`. -/
theorem Schema.directives_declared_unlessRepeated :
    (∃ document, Sample.schema.compile Sample.undeclared = .ok document) ∧
      ∃ definition ∈ Source.definitions Sample.undeclared,
        ∃ site ∈ definition.sites,
          ¬ Sample.schema.Declares site.directive := by
  have hcompile : ∃ document, document ∈ (Sample.schema.compile Sample.undeclared).toOption :=
    Option.isSome_iff_exists.mp (by decide +kernel)
  simp only [Sample.mem_toOption] at hcompile
  refine ⟨hcompile, _, List.mem_cons_self, ⟨⟨Sample.position, "nope", []⟩, true⟩, ?_, ?_⟩
  · exact List.mem_singleton_self _
  · rintro ⟨definition, hdefinition, -⟩
    have hnone : Sample.schema.directive? "nope" = none := by decide
    rw [hnone] at hdefinition
    exact absurd hdefinition (by simp)

end QueryShape
