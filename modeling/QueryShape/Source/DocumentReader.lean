import QueryShape.Source.Reader

/-!
# Reading executable documents

## What this module delivers

- `Reader.selections`: the selections between braces, at any depth.
- `Reader.definition`: an operation or a fragment.
- `Document.parse?`: the document that a text denotes; `none` if it denotes none.
-/

set_option autoImplicit false

namespace QueryShape.Source

namespace Reader

/-- The head of a field: a name, or an alias, a colon and a name; then arguments
and directives. -/
def fieldHead (levels : Nat) : Reader Field := do
  let (first, position) ← located
  let second ← if ← symbol? ':' then some <$> name else pure none
  let arguments ← arguments levels
  let directives ← directives levels
  match second with
  | some name => return ⟨position, some first, name, arguments, directives⟩
  | none => return ⟨position, none, first, arguments, directives⟩

/-- A fragment spread behind its points. -/
def spread (levels : Nat) : Reader Spread := do
  let (name, position) ← located
  let directives ← directives levels
  return ⟨position, name, directives⟩

/-- The head of an inline fragment behind its points: an optional type condition
and directives. -/
def inlineHead (levels : Nat) : Reader InlineFragment := fun tokens => (do
  let typeCondition ← if ← word? "on" then some <$> name else pure none
  let directives ← directives levels
  return ⟨(tokens.head?.map Token.position).getD default, typeCondition, directives⟩ :
    Reader InlineFragment) tokens

/-- Whether a token begins a fragment spread when it stands behind points. Behind
points the word `on` always introduces a type condition. -/
def beginsSpread (token : Token) : Bool :=
  isName token && !isWord "on" token

/-- One selection, given the reader of the nested selections and the levels left
outside of them. -/
def selectionWith (levels : Nat) (nested : Reader (List Selection)) : Reader Selection := do
  if (← take? (fun token => token.lexeme matches .ellipsis)).isSome then
    if ← next beginsSpread then
      return .spread (← spread levels)
    else
      let head ← inlineHead levels
      return .inline head (← nested)
  else
    let head ← fieldHead levels
    if ← next (isSymbol '\x7b') then
      return .field head (← nested)
    else
      return .field head []

/-- Selections between braces, at least one. -/
def selections : Nat → Reader (List Selection)
  | 0 => fail
  | levels + 1 => do
      let _ ← symbol '\x7b'
      someUntil '\x7d' (selectionWith levels (selections levels))

/-- A variable definition. -/
def variableDefinition (levels : Nat) : Reader VariableDefinition := do
  let position ← symbol '$'
  let name ← name
  let _ ← symbol ':'
  let type ← typeRef levels
  let value ← defaultValue? levels
  return ⟨position, name, type, value⟩

/-- An operation of a kind, behind its keyword. -/
def operationBody (position : Position) (kind : OperationKind) : Reader Operation := do
  let name ← if ← next isName then some <$> name else pure none
  let declared ← bracketed nestingLimit '(' ')' variableDefinition
  let directives ← directives nestingLimit
  let selections ← selections nestingLimit
  return ⟨position, kind, name, declared, directives, selections⟩

/-- A named fragment, behind its keyword. -/
def fragmentBody (position : Position) : Reader Fragment := do
  let name ← name
  let _ ← word "on"
  let typeCondition ← Reader.name
  let directives ← directives nestingLimit
  let selections ← selections nestingLimit
  return ⟨position, name, typeCondition, directives, selections⟩

/-- A definition of a document. -/
def definition : Reader Definition := do
  match ← peek? with
  | none => fail
  | some token =>
      if isSymbol '\x7b' token then
        return .anonymous token.position (← selections nestingLimit)
      else
        let (keyword, position) ← located
        match OperationKind.ofKeyword? keyword with
        | some kind => return .operation (← operationBody position kind)
        | none =>
            if keyword = "fragment" then return .fragment (← fragmentBody position) else fail

end Reader

/-- The document that a text denotes: one definition or more. -/
def Document.parse? (text : String) : Option Document := do
  let definitions ← Reader.run? (Reader.many (fun _ => true) Reader.definition) text
  if definitions.isEmpty then none else some ⟨definitions⟩

end QueryShape.Source
