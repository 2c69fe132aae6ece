/-!
# JSON texts

A manifest and an option record are read from JSON, and a manifest is written as
JSON.

## What this module delivers

- `Json`: a JSON value as far as the library looks at one. Objects keep their
  members in order and keep repeated ones; numbers keep no value, since no record
  of the library holds one.
- `Json.parse?`: reads a text strictly: one value, white space around it, nothing
  else. Whether an escaped string denotes a text at all (a surrogate may stand
  alone) is recorded with the string, because it only matters where the string is
  used.
- `Json.quote`: a text as a JSON string.
-/

set_option autoImplicit false

namespace QueryShape.Text

/-- A JSON value. A string is `none` when an unpaired surrogate in it keeps it
from being a text. -/
inductive Json where
  | null
  | bool (value : Bool)
  | number
  | string (text : Option String)
  | array (items : List Json)
  | object (members : List (Option String × Json))

namespace Json

/-! ## Strings -/

/-- The value of a hexadecimal digit of either case. -/
def hexDigit? (c : Char) : Option Nat :=
  if '0' ≤ c && c ≤ '9' then some (c.toNat - '0'.toNat)
  else if 'a' ≤ c && c ≤ 'f' then some (c.toNat - 'a'.toNat + 10)
  else if 'A' ≤ c && c ≤ 'F' then some (c.toNat - 'A'.toNat + 10)
  else none

/-- The value of four hexadecimal digits. -/
def hexWord? (a b c d : Char) : Option Nat := do
  let a ← hexDigit? a
  let b ← hexDigit? b
  let c ← hexDigit? c
  let d ← hexDigit? d
  pure (((a * 16 + b) * 16 + c) * 16 + d)

/-- The character that a one-letter escape stands for. -/
def escaped? : Char → Option Char
  | '"' => some '"'
  | '\\' => some '\\'
  | '/' => some '/'
  | 'b' => some '\x08'
  | 'f' => some '\x0c'
  | 'n' => some '\n'
  | 'r' => some '\r'
  | 't' => some '\t'
  | _ => none

/-- The sixteen-bit units between the quotes and the text behind them. A
character that stands for itself is a unit of its own, marked as `inl`. -/
def units : List Char → Option (List (Char ⊕ Nat) × List Char)
  | [] => none
  | '"' :: rest => some ([], rest)
  | '\\' :: 'u' :: a :: b :: c :: d :: rest => do
      let unit ← hexWord? a b c d
      let (more, rest) ← units rest
      pure (.inr unit :: more, rest)
  | '\\' :: c :: rest => do
      let c ← escaped? c
      let (more, rest) ← units rest
      pure (.inl c :: more, rest)
  | c :: rest =>
      if c.toNat < 0x20 then none
      else do
        let (more, rest) ← units rest
        pure (.inl c :: more, rest)

/-- Joins units into characters. Two units that form a surrogate pair are one
character; a surrogate on its own is none. -/
def joinUnits : List (Char ⊕ Nat) → Option (List Char)
  | [] => some []
  | .inl c :: rest => (joinUnits rest).map (c :: ·)
  | .inr high :: .inr low :: rest =>
      if 0xD800 ≤ high && high < 0xDC00 then
        if 0xDC00 ≤ low && low < 0xE000 then
          (joinUnits rest).map
            (Char.ofNat (0x10000 + (high - 0xD800) * 0x400 + (low - 0xDC00)) :: ·)
        else none
      else if 0xDC00 ≤ high && high < 0xE000 then none
      else (joinUnits (.inr low :: rest)).map (Char.ofNat high :: ·)
  | .inr unit :: rest =>
      if 0xD800 ≤ unit && unit < 0xE000 then none
      else (joinUnits rest).map (Char.ofNat unit :: ·)

/-- Reads a string behind its opening quote. -/
def stringBody (chars : List Char) : Option (Option String × List Char) := do
  let (body, rest) ← units chars
  pure ((joinUnits body).map String.ofList, rest)

/-! ## Values -/

/-- Drops the white space of the format: space, tab, line feed, carriage return. -/
def skipSpace (chars : List Char) : List Char :=
  chars.dropWhile (fun c => c == ' ' || c == '\t' || c == '\n' || c == '\r')

/-- Requires at least one digit and drops all digits that follow. -/
def someDigits? : List Char → Option (List Char)
  | c :: rest => if c.isDigit then some (rest.dropWhile Char.isDigit) else none
  | [] => none

/-- Drops a number without a sign: no leading zeros, digits behind a point and
behind an exponent mark. -/
def magnitude? (chars : List Char) : Option (List Char) := do
  let rest ← match chars with
    | '0' :: c :: rest => if c.isDigit then none else some (c :: rest)
    | ['0'] => some []
    | _ => someDigits? chars
  let rest ← match rest with
    | '.' :: rest => someDigits? rest
    | _ => some rest
  match rest with
  | c :: rest =>
      if c == 'e' || c == 'E' then
        match rest with
        | sign :: digits => if sign == '+' || sign == '-' then someDigits? digits else someDigits? rest
        | [] => none
      else some (c :: rest)
  | [] => some []

/-- Drops a word that has to stand at the front. -/
def dropWord? : List Char → List Char → Option (List Char)
  | [], chars => some chars
  | w :: word, c :: chars => if w = c then dropWord? word chars else none
  | _ :: _, [] => none

mutual

/-- Reads a value at the front of the characters. Every call reads at least one
character before the next, so a fuel of twice the length suffices. -/
def value (fuel : Nat) (chars : List Char) : Option (Json × List Char) :=
  match fuel with
  | 0 => none
  | fuel + 1 =>
      match skipSpace chars with
      | '"' :: rest => (stringBody rest).map (fun (text, rest) => (.string text, rest))
      | '[' :: rest =>
          match skipSpace rest with
          | ']' :: rest => some (.array [], rest)
          | rest => (items fuel rest).map (fun (items, rest) => (.array items, rest))
      | '\x7b' :: rest =>
          match skipSpace rest with
          | '\x7d' :: rest => some (.object [], rest)
          | rest => (members fuel rest).map (fun (members, rest) => (.object members, rest))
      | 't' :: rest => (dropWord? ['r', 'u', 'e'] rest).map (fun rest => (.bool true, rest))
      | 'f' :: rest => (dropWord? ['a', 'l', 's', 'e'] rest).map (fun rest => (.bool false, rest))
      | 'n' :: rest => (dropWord? ['u', 'l', 'l'] rest).map (fun rest => (.null, rest))
      | '-' :: rest => (magnitude? rest).map (fun rest => (.number, rest))
      | rest => (magnitude? rest).map (fun rest => (.number, rest))

/-- Reads the items of an array up to its closing bracket. -/
def items (fuel : Nat) (chars : List Char) : Option (List Json × List Char) :=
  match fuel with
  | 0 => none
  | fuel + 1 => do
      let (first, rest) ← value fuel chars
      match skipSpace rest with
      | ',' :: rest =>
          let (more, rest) ← items fuel rest
          pure (first :: more, rest)
      | ']' :: rest => pure ([first], rest)
      | _ => none

/-- Reads the members of an object up to its closing brace. -/
def members (fuel : Nat) (chars : List Char) : Option (List (Option String × Json) × List Char) :=
  match fuel with
  | 0 => none
  | fuel + 1 =>
      match skipSpace chars with
      | '"' :: rest => do
          let (key, rest) ← stringBody rest
          match skipSpace rest with
          | ':' :: rest =>
              let (first, rest) ← value fuel rest
              match skipSpace rest with
              | ',' :: rest =>
                  let (more, rest) ← members fuel rest
                  pure ((key, first) :: more, rest)
              | '\x7d' :: rest => pure ([(key, first)], rest)
              | _ => none
          | _ => none
      | _ => none

end

/-- Reads a whole text as one value. -/
def parse? (text : String) : Option Json := do
  let chars := text.toList
  let (json, rest) ← value (2 * chars.length + 1) chars
  if (skipSpace rest).isEmpty then some json else none

/-- The text of a string value. -/
def text? : Json → Option String
  | string text => text
  | _ => none

/-- The value of a truth value. -/
def bool? : Json → Option Bool
  | bool value => some value
  | _ => none

/-- The value of the only member with a key in a record: `some none` when the key is
absent, `none` when it is repeated or when some key is no text. -/
def member? (members : List (Option String × Json)) (key : String) : Option (Option Json) :=
  if members.any (fun entry => entry.1.isNone) then none
  else
    match members.filter (fun entry => entry.1 == some key) with
    | [] => some none
    | [entry] => some (some entry.2)
    | _ => none

/-! ## Writing strings -/

/-- How a character is written inside a string: quote, backslash and the control
characters are escaped, all else stands for itself. -/
def escape (c : Char) : List Char :=
  match c with
  | '"' => ['\\', '"']
  | '\\' => ['\\', '\\']
  | '\x08' => ['\\', 'b']
  | '\x0c' => ['\\', 'f']
  | '\n' => ['\\', 'n']
  | '\r' => ['\\', 'r']
  | '\t' => ['\\', 't']
  | c =>
      if c.toNat < 0x20 then
        ['\\', 'u', '0', '0', Nat.digitChar (c.toNat / 16), Nat.digitChar (c.toNat % 16)]
      else [c]

/-- A text as a JSON string. -/
def quote (text : String) : String :=
  String.ofList ('"' :: text.toList.flatMap escape ++ ['"'])

end Json

end QueryShape.Text
