import QueryShape.Proofs.Executable.SpreadOrder

/-!
# Definitions without their places

Two definitions are the same up to layout if they are equal once all positions are forgotten. The
printed form of a definition, and the names that it spreads, do not see positions.

## What this module delivers

- `Source.Definition.unplaced`: a definition with all positions reset, and the same for its parts.
- `Source.Definition.source_unplaced`: the canonical form does not depend on positions.
- `Source.Selection.spreadsIn_unplaced`: neither do the names that are spread.
-/

set_option autoImplicit false

namespace QueryShape.Source

/-! ## Forgetting positions -/

/-- A directive without its position. -/
def Directive.unplaced (directive : Directive) : Directive :=
  { directive with position := default }

/-- A variable definition without its position. -/
def VariableDefinition.unplaced (definition : VariableDefinition) : VariableDefinition :=
  { definition with position := default }

/-- A field without positions. -/
def Field.unplaced (field : Field) : Field :=
  { field with position := default, directives := field.directives.map Directive.unplaced }

/-- A spread without positions. -/
def Spread.unplaced (spread : Spread) : Spread :=
  { spread with position := default, directives := spread.directives.map Directive.unplaced }

/-- An inline fragment without positions. -/
def InlineFragment.unplaced (fragment : InlineFragment) : InlineFragment :=
  { fragment with
    position := default, directives := fragment.directives.map Directive.unplaced }

mutual

/-- A selection without positions. -/
def Selection.unplaced : Selection → Selection
  | .field head selections => .field head.unplaced (Selection.unplacedAll selections)
  | .spread head => .spread head.unplaced
  | .inline head selections => .inline head.unplaced (Selection.unplacedAll selections)

/-- Selections without positions. -/
def Selection.unplacedAll : List Selection → List Selection
  | [] => []
  | selection :: rest => selection.unplaced :: Selection.unplacedAll rest

end

/-- An operation without positions. -/
def Operation.unplaced (operation : Operation) : Operation :=
  { operation with
    position := default
    declared := operation.declared.map VariableDefinition.unplaced
    directives := operation.directives.map Directive.unplaced
    selections := Selection.unplacedAll operation.selections }

/-- A fragment without positions. -/
def Fragment.unplaced (fragment : Fragment) : Fragment :=
  { fragment with
    position := default
    directives := fragment.directives.map Directive.unplaced
    selections := Selection.unplacedAll fragment.selections }

/-- A definition without positions. -/
def Definition.unplaced : Definition → Definition
  | .anonymous _ selections => .anonymous default (Selection.unplacedAll selections)
  | .operation definition => .operation definition.unplaced
  | .fragment definition => .fragment definition.unplaced

theorem Fragment.name_eq_of_unplaced_eq {fragment other : Fragment}
    (h : other.unplaced = fragment.unplaced) : other.name = fragment.name := by
  have hnames : other.unplaced.name = fragment.unplaced.name := congrArg Fragment.name h
  exact hnames

/-! ## Printing -/

theorem Printer.directives_unplaced (indent : Nat) (directives : List Directive) :
    Printer.directives indent (directives.map Directive.unplaced) =
      Printer.directives indent directives := by
  rw [Printer.directives, List.map_map]
  rfl

theorem Field.print_unplaced (indent : Nat) (field : Field) :
    field.unplaced.print indent = field.print indent := by
  rw [Field.print, Field.print, Field.unplaced, Printer.directives_unplaced]

mutual

theorem Selection.print_unplaced (indent : Nat) (selection : Selection) :
    selection.unplaced.print indent = selection.print indent := by
  cases selection with
  | field head selections =>
      cases selections with
      | nil =>
          simp only [Selection.unplaced, Selection.unplacedAll, Selection.print,
            Field.print_unplaced]
      | cons first rest =>
          simp only [Selection.unplaced, Selection.unplacedAll, Selection.print,
            Field.print_unplaced, Selection.print_unplaced (indent + 2) first,
            Selection.printAll_unplaced (indent + 2) rest]
  | spread head =>
      simp only [Selection.unplaced, Selection.print, Spread.unplaced, Printer.directives_unplaced]
  | inline head selections =>
      simp only [Selection.unplaced, Selection.print, InlineFragment.unplaced,
        Printer.directives_unplaced, Selection.printAll_unplaced (indent + 2) selections]

theorem Selection.printAll_unplaced (indent : Nat) (selections : List Selection) :
    Selection.printAll indent (Selection.unplacedAll selections) =
      Selection.printAll indent selections := by
  cases selections with
  | nil => rfl
  | cons first rest =>
      simp only [Selection.unplacedAll, Selection.printAll, Selection.print_unplaced indent first,
        Selection.printAll_unplaced indent rest]

end

theorem Operation.print_unplaced (operation : Operation) :
    operation.unplaced.print = operation.print := by
  have htexts : (operation.declared.map VariableDefinition.unplaced).map
      Printer.variableDefinition = operation.declared.map Printer.variableDefinition := by
    rw [List.map_map]
    rfl
  simp only [Operation.print, Operation.unplaced, Printer.declared, htexts,
    Printer.directives_unplaced, Selection.printAll_unplaced]

theorem Fragment.print_unplaced (fragment : Fragment) :
    fragment.unplaced.print = fragment.print := by
  simp only [Fragment.print, Fragment.unplaced, Printer.directives_unplaced,
    Selection.printAll_unplaced]

/-- The canonical form of a definition does not depend on positions. -/
theorem Definition.source_unplaced (definition : Definition) :
    definition.unplaced.source = definition.source := by
  cases definition with
  | anonymous position selections =>
      simp only [Definition.source, Definition.unplaced, Definition.print,
        Selection.printAll_unplaced]
  | operation operation =>
      simp only [Definition.source, Definition.unplaced, Definition.print,
        Operation.print_unplaced]
  | fragment fragment =>
      simp only [Definition.source, Definition.unplaced, Definition.print,
        Fragment.print_unplaced]

/-- Definitions that are the same up to layout have the same canonical text. -/
theorem canonicalText_congr {first second : List Definition}
    (h : first.map Definition.unplaced = second.map Definition.unplaced) :
    canonicalText first = canonicalText second := by
  have htexts : ∀ definitions : List Definition, definitions.map Definition.source =
      (definitions.map Definition.unplaced).map Definition.source := by
    intro definitions
    rw [List.map_map]
    exact List.map_congr_left fun definition _ => (Definition.source_unplaced definition).symm
  rw [canonicalText, canonicalText, htexts first, htexts second, h]

/-! ## Names that are spread -/

mutual

theorem Selection.spreads_unplaced (selection : Selection) :
    selection.unplaced.spreads = selection.spreads := by
  cases selection with
  | field head selections => exact Selection.spreadsIn_unplaced selections
  | spread head => rfl
  | inline head selections => exact Selection.spreadsIn_unplaced selections

theorem Selection.spreadsIn_unplaced (selections : List Selection) :
    Selection.spreadsIn (Selection.unplacedAll selections) = Selection.spreadsIn selections := by
  cases selections with
  | nil => rfl
  | cons first rest =>
      rw [Selection.unplacedAll, Selection.spreadsIn, Selection.spreads_unplaced first,
        Selection.spreadsIn_unplaced rest, Selection.spreadsIn]

end

end QueryShape.Source
