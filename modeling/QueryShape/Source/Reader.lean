import QueryShape.Source.Document
import QueryShape.Source.Token

/-!
# Reading from a list of tokens

A reader takes tokens from the front of a list, or fails. One token of look-ahead
decides every alternative of the grammars.

## What this module delivers

- `Reader`: readers as state transformers over `Option`, and the readers of single
  tokens.
- `Reader.many`: repeats a reader as long as the next token allows it.
- The part of the grammar that documents and schemas share: type references,
  values, arguments, directives.

Brackets may be nested fifty deep. The readers that enter brackets take the number
of levels that are left, and recurse on it: the limit of the format is also the
reason why reading ends.
-/

set_option autoImplicit false

namespace QueryShape.Source

/-- Takes tokens from the front of a list, or fails. -/
abbrev Reader (α : Type) : Type := StateT (List Token) Option α

/-- How deep brackets may be nested in a text. -/
def nestingLimit : Nat := 50

namespace Reader

variable {α : Type}

/-- Fails. -/
def fail : Reader α := fun _ => none

/-- The next token, which stays where it is. -/
def peek? : Reader (Option Token) := fun tokens => some (tokens.head?, tokens)

/-- Whether a token is a given symbol. -/
def isSymbol (c : Char) (token : Token) : Bool :=
  match token.lexeme with
  | .symbol d => c = d
  | _ => false

/-- Whether a token is a given word. -/
def isWord (word : String) (token : Token) : Bool :=
  match token.lexeme with
  | .name text => text = word
  | _ => false

/-- Whether a token is a name. -/
def isName (token : Token) : Bool :=
  match token.lexeme with
  | .name _ => true
  | _ => false

/-- Whether a token is a string. -/
def isString (token : Token) : Bool :=
  match token.lexeme with
  | .string _ => true
  | _ => false

/-- Whether the next token satisfies a test. At the end of the tokens none does. -/
def next (test : Token → Bool) : Reader Bool := do
  return (← peek?).any test

/-- Takes a token that satisfies a test. -/
def take (test : Token → Bool) : Reader Token
  | token :: rest => if test token then some (token, rest) else none
  | [] => none

/-- Takes a token that satisfies a test, if it is next. -/
def take? (test : Token → Bool) : Reader (Option Token)
  | token :: rest => if test token then some (some token, rest) else some (none, token :: rest)
  | [] => some (none, [])

/-- Takes a symbol and returns its place. -/
def symbol (c : Char) : Reader Position := do
  return (← take (isSymbol c)).position

/-- Takes a symbol if it is next, and says whether it did. -/
def symbol? (c : Char) : Reader Bool := do
  return (← take? (isSymbol c)).isSome

/-- Takes a given word and returns its place. -/
def word (text : String) : Reader Position := do
  return (← take (isWord text)).position

/-- Takes a given word if it is next, and says whether it did. -/
def word? (text : String) : Reader Bool := do
  return (← take? (isWord text)).isSome

/-- Takes a name with its place. -/
def located : Reader (String × Position)
  | ⟨.name text, position⟩ :: rest => some ((text, position), rest)
  | _ => none

/-- Takes a name. -/
def name : Reader String := do
  return (← located).1

/-- Repeats a reader while the next token satisfies a test, at most `fuel` times. -/
def manyFuel (go : Token → Bool) (item : Reader α) : Nat → Reader (List α)
  | 0 => pure []
  | fuel + 1 => do
      if ← next go then
        let first ← item
        let more ← manyFuel go item fuel
        return first :: more
      else
        return []

/-- Repeats a reader while the next token satisfies a test. An item takes at least
one token, so there are no more items than tokens. -/
def many (go : Token → Bool) (item : Reader α) : Reader (List α) := fun tokens =>
  manyFuel go item tokens.length tokens

/-- Items up to a closing symbol, which is taken. -/
def upTo (close : Char) (item : Reader α) : Reader (List α) := do
  let items ← many (fun token => !isSymbol close token) item
  let _ ← symbol close
  return items

/-- Items up to a closing symbol, at least one. -/
def someUntil (close : Char) (item : Reader α) : Reader (List α) := do
  let items ← upTo close item
  if items.isEmpty then fail else return items

/-- Items in brackets, at least one; nothing if the bracket is not next. The
reader of an item is told how many levels the brackets leave to it. -/
def bracketed (levels : Nat) (opening closing : Char) (item : Nat → Reader α) :
    Reader (List α) := do
  if ← symbol? opening then
    match levels with
    | 0 => fail
    | inner + 1 => someUntil closing (item inner)
  else
    return []

/-- Runs a reader on the tokens of a text; it has to take all of them. -/
def run? (reader : Reader α) (text : String) : Option α := do
  let tokens ← Token.ofText? text
  let (result, rest) ← reader tokens
  if rest.isEmpty then some result else none

/-! ## Types and values -/

/-- A type reference: a name or a list in brackets, and a mark if null is excluded. -/
def typeRef : Nat → Reader TypeRef
  | 0 => do
      let text ← name
      let strict ← symbol? '!'
      return .named text !strict
  | levels + 1 => do
      if ← symbol? '[' then
        let item ← typeRef levels
        let _ ← symbol ']'
        let strict ← symbol? '!'
        return .list item !strict
      else
        let text ← name
        let strict ← symbol? '!'
        return .named text !strict

/-- The value that a word stands for: the words for truth values and null are
reserved, all others are enum values. -/
def wordValue (text : String) : Value :=
  if text = "true" then .bool true
  else if text = "false" then .bool false
  else if text = "null" then .null
  else .enum text

/-- A value that is not a list or an object. Variables are values only where they
are allowed. -/
def plainValue (allowed : Bool) : Reader Value
  | ⟨.symbol '$', _⟩ :: rest =>
      if allowed then (do return .variable (← name) : Reader Value) rest else none
  | ⟨.int literal, _⟩ :: rest => some (.int literal, rest)
  | ⟨.float value, _⟩ :: rest => some (.float value, rest)
  | ⟨.string text, _⟩ :: rest => some (.string text, rest)
  | ⟨.name text, _⟩ :: rest => some (wordValue text, rest)
  | _ => none

/-- A value. -/
def value (allowed : Bool) : Nat → Reader Value
  | 0 => plainValue allowed
  | levels + 1 => do
      if ← symbol? '[' then
        return .list (← upTo ']' (value allowed levels))
      else if ← symbol? '\x7b' then
        let fields ← upTo '\x7d' (do
          let key ← name
          let _ ← symbol ':'
          let value ← value allowed levels
          return (key, value))
        return Value.ofFields fields
      else
        plainValue allowed

/-- An argument: a name, a colon and a value. -/
def argument (levels : Nat) : Reader (String × Value) := do
  let key ← name
  let _ ← symbol ':'
  let value ← value true levels
  return (key, value)

/-- Arguments in parentheses, or nothing. -/
def arguments (levels : Nat) : Reader (List (String × Value)) :=
  bracketed levels '(' ')' argument

/-- A directive, located at its `@`. -/
def directive (levels : Nat) : Reader Directive := do
  let position ← symbol '@'
  let name ← name
  let arguments ← arguments levels
  return ⟨position, name, arguments⟩

/-- The directives that come next. -/
def directives (levels : Nat) : Reader (List Directive) :=
  many (isSymbol '@') (directive levels)

/-- A default value, if an equals sign announces one. -/
def defaultValue? (levels : Nat) : Reader (Option Value) := do
  if ← symbol? '=' then return some (← value false levels) else return none

end Reader

end QueryShape.Source
