import QueryShape.Source.Document
import QueryShape.Text.Decimal
import QueryShape.Text.Line

/-!
# The printed form of documents

Every document has one printed form, which depends neither on its layout nor on its
comments. Nested selections are indented by two spaces.

## What this module delivers

- `Printer.quoted`, `Printer.block`, `Printer.string`: the two forms of a string and
  the choice between them.
- `Printer.value`, `Printer.arguments`, `Printer.directives`.
- `Selection.print`, `Definition.print`, `Document.print`.
- `Definition.source`: the printed form of a definition without its final line end,
  which is what identifies an operation or a fragment.
-/

set_option autoImplicit false

namespace QueryShape.Source

open QueryShape.Text

namespace Printer

/-! ## Strings -/

/-- Whether a quoted string shows a character as it is, provided it is neither a
quote nor a backslash. -/
def isPlain (c : Char) : Bool :=
  0x20 ≤ c.toNat && c.toNat ≤ 0xFFFF

/-- Whether a character may stand in a block string. -/
def fitsBlock (c : Char) : Bool :=
  c = '\n' || c = '\r' || c = '\t' || isPlain c

/-- Decimal digits, at least four. -/
def paddedDecimal (n : Nat) : List Char :=
  let digits := Nat.toDigits 10 n
  List.replicate (4 - digits.length) '0' ++ digits

/-- How a quoted string writes a character. The code of one that it cannot show is
written in decimal. -/
def escape (c : Char) : List Char :=
  match c with
  | '\r' => ['\\', 'r']
  | '\n' => ['\\', 'n']
  | '\t' => ['\\', 't']
  | '"' => ['\\', '"']
  | '\\' => ['\\', '\\']
  | c => if isPlain c then [c] else '\\' :: 'u' :: paddedDecimal c.toNat

/-- The quoted form of a string. -/
def quoted (text : List Char) : List Char :=
  '"' :: text.flatMap escape ++ ['"']

/-- Puts a backslash before each closing mark of a block string. -/
def escapeMarks : List Char → List Char
  | '"' :: '"' :: '"' :: rest => '\\' :: '"' :: '"' :: '"' :: escapeMarks rest
  | c :: rest => c :: escapeMarks rest
  | [] => []

/-- Spaces up to a column. -/
def margin (indent : Nat) : List Char :=
  List.replicate indent ' '

/-- A line of a block string; a blank line keeps only its line end. -/
def blockLine (indent : Nat) (line : List Char) : List Char :=
  if isBlankLine line then ['\n'] else margin (indent + 2) ++ escapeMarks line ++ ['\n']

/-- The block form of a string: its lines stand two columns further in than the
text around it. -/
def block (indent : Nat) (text : List Char) : List Char :=
  ['"', '"', '"', '\n'] ++ (lines text).flatMap (blockLine indent) ++ margin indent ++
    ['"', '"', '"']

/-- A string: as a block if it has several lines and only characters that a block
can hold, otherwise quoted. -/
def string (indent : Nat) (text : String) : String :=
  let chars := text.toList
  if chars.contains '\n' && chars.all fitsBlock then String.ofList (block indent chars)
  else String.ofList (quoted chars)

/-! ## Values -/

/-- Joins texts with commas. -/
def commas (texts : List String) : String :=
  String.intercalate ", " texts

mutual

/-- A value. -/
def value (indent : Nat) : Value → String
  | .null => "null"
  | .bool b => if b then "true" else "false"
  | .int literal => toString literal.value
  | .float x => Decimal.render x
  | .string text => string indent text
  | .enum name => name
  | .variable name => "$" ++ name
  | .list items => "[" ++ commas (values indent items) ++ "]"
  | .object entries => "\x7b" ++ commas (fields indent entries) ++ "\x7d"

/-- The items of a list. -/
def values (indent : Nat) : List Value → List String
  | [] => []
  | first :: rest => value indent first :: values indent rest

/-- The entries of an object. -/
def fields (indent : Nat) : List (String × Value) → List String
  | [] => []
  | (key, first) :: rest => (key ++ ": " ++ value indent first) :: fields indent rest

end

/-- Arguments in parentheses; nothing if there are none. -/
def arguments (indent : Nat) (arguments : List (String × Value)) : String :=
  if arguments.isEmpty then "" else "(" ++ commas (fields indent arguments) ++ ")"

/-- A directive. -/
def directive (indent : Nat) (directive : Directive) : String :=
  "@" ++ directive.name ++ arguments indent directive.arguments

/-- Directives, each behind a space. -/
def directives (indent : Nat) (directives : List Directive) : String :=
  String.join (directives.map (fun d => " " ++ directive indent d))

/-- A variable definition. -/
def variableDefinition (definition : VariableDefinition) : String :=
  "$" ++ definition.name ++ ": " ++ definition.type.render ++
    match definition.defaultValue with
    | some default => " = " ++ value 0 default
    | none => ""

/-- The variables of an operation. A subscription shows them only behind a name,
and without separators. -/
def declared (kind : OperationKind) (named : Bool) (definitions : List VariableDefinition) :
    String :=
  let texts := definitions.map variableDefinition
  match kind with
  | .subscription =>
      if !named || texts.isEmpty then "" else "(" ++ String.join texts ++ ")"
  | _ => if texts.isEmpty then "" else "(" ++ commas texts ++ ")"

end Printer

/-! ## Selections and definitions -/

/-- The head of a field, without a line end. -/
def Field.print (indent : Nat) (head : Field) : String :=
  (match head.givenKey with
    | some key => key ++ ": "
    | none => "") ++
    head.name ++ Printer.arguments indent head.arguments ++
    Printer.directives indent head.directives

/-- Braces around printed selections, opened on the line before and closed on a line
of their own. -/
def Printer.braces (indent : Nat) (inner : String) : String :=
  " \x7b\n" ++ inner ++ String.ofList (margin indent) ++ "\x7d\n"

mutual

/-- A selection at a column, with its line end. -/
def Selection.print (indent : Nat) : Selection → String
  | .field head selections =>
      String.ofList (Printer.margin indent) ++ head.print indent ++
        match selections with
        | [] => "\n"
        | first :: rest =>
            Printer.braces indent
              (first.print (indent + 2) ++ Selection.printAll (indent + 2) rest)
  | .spread head =>
      String.ofList (Printer.margin indent) ++ "..." ++ head.name ++
        Printer.directives indent head.directives ++ "\n"
  | .inline head selections =>
      String.ofList (Printer.margin indent) ++ "..." ++
        (match head.typeCondition with
          | some type => " on " ++ type
          | none => "") ++
        Printer.directives indent head.directives ++
        Printer.braces indent (Selection.printAll (indent + 2) selections)

/-- Selections at a column, one below the other. -/
def Selection.printAll (indent : Nat) : List Selection → String
  | [] => ""
  | first :: rest => first.print indent ++ Selection.printAll indent rest

end

/-- An operation. -/
def Operation.print (operation : Operation) : String :=
  operation.kind.keyword ++
    (match operation.name with
      | some name => " " ++ name
      | none => "") ++
    Printer.declared operation.kind operation.name.isSome operation.declared ++
    Printer.directives 0 operation.directives ++
    Printer.braces 0 (Selection.printAll 2 operation.selections)

/-- A named fragment. -/
def Fragment.print (fragment : Fragment) : String :=
  "fragment " ++ fragment.name ++ " on " ++ fragment.typeCondition ++
    Printer.directives 0 fragment.directives ++
    Printer.braces 0 (Selection.printAll 2 fragment.selections)

/-- A definition, with its line end. -/
def Definition.print : Definition → String
  | .anonymous _ selections => "\x7b\n" ++ Selection.printAll 2 selections ++ "\x7d\n"
  | .operation definition => definition.print
  | .fragment definition => definition.print

/-- The definitions of a document, with an empty line between them. -/
def Document.print (document : Document) : String :=
  String.intercalate "\n" (document.definitions.map Definition.print)

/-- The printed form of a definition without white space at its end. -/
def Definition.source (definition : Definition) : String :=
  trimEnd definition.print

end QueryShape.Source
