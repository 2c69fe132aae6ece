import QueryShape.Location
import QueryShape.Source.BlockString
import QueryShape.Source.Value
import QueryShape.Text.Decimal

/-!
# Tokens of documents and schemas

Documents and schemas share their tokens. Between tokens, spaces, commas, tabs,
line ends, byte order marks and comments are skipped.

## What this module delivers

- `Token`: a symbol, a name, a number or a string, with the place of its first
  character.
- `Position.after`, `Position.skip`: how text moves a position.
- `Token.first?`: the token at the front of a text and its length.
- `Token.ofText?`: all tokens of a text; `none` if a part of it is no token.
-/

set_option autoImplicit false

namespace QueryShape

/-! ## Positions -/

/-- The position behind a piece of text: a line feed begins a line, every other
character is one column wide. -/
def Position.after (position : Position) (text : List Char) : Position :=
  text.foldl
    (fun p c => if c = '\n' then ⟨p.line + 1, 1⟩ else ⟨p.line, p.column + 1⟩) position

/-- Skips what may stand between tokens. A tab is eight columns wide; carriage
returns and byte order marks have no width. A comment runs through the first line
feed or carriage return, and either counts as a line end there. -/
def Position.skip (position : Position) (comment : Bool) : List Char → Position × List Char
  | [] => (position, [])
  | c :: rest =>
      if comment then
        if c = '\n' || c = '\r' then skip ⟨position.line + 1, 1⟩ false rest
        else skip position true rest
      else
        match c with
        | ' ' | ',' => skip ⟨position.line, position.column + 1⟩ false rest
        | '\t' => skip ⟨position.line, position.column + 8⟩ false rest
        | '\r' | '\uFEFF' => skip position false rest
        | '\n' => skip ⟨position.line + 1, 1⟩ false rest
        | '#' => skip position true rest
        | _ => (position, c :: rest)

/-- Skipping only removes characters. -/
theorem Position.length_skip_le (position : Position) (comment : Bool) (chars : List Char) :
    (position.skip comment chars).2.length ≤ chars.length := by
  induction chars generalizing position comment with
  | nil => simp [skip]
  | cons c rest ih =>
      unfold skip
      split
      · split
        · exact Nat.le_succ_of_le (ih _ _)
        · exact Nat.le_succ_of_le (ih _ _)
      · split <;> first | exact Nat.le_succ_of_le (ih _ _) | exact Nat.le_refl _

namespace Source

/-! ## Tokens -/

/-- What a token is. -/
inductive Lexeme where
  /-- One of the characters of `symbols`. -/
  | symbol (c : Char)
  /-- Three points. -/
  | ellipsis
  | name (text : String)
  | int (literal : IntLiteral)
  | float (value : Float)
  /-- A string or a block string, with its escapes resolved. -/
  | string (text : String)
deriving Inhabited

/-- A token and the place of its first character. -/
structure Token where
  lexeme : Lexeme
  position : Position
deriving Inhabited

namespace Token

/-- The characters that are tokens on their own. -/
def symbols : List Char :=
  ['!', '$', ':', '=', '@', '|', '&', '(', ')', '[', ']', '\x7b', '\x7d']

/-- Whether a character can begin a name. -/
def beginsName (c : Char) : Bool :=
  c.isAlpha || c = '_'

/-- Whether a character can stand in a name. -/
def continuesName (c : Char) : Bool :=
  c.isAlphanum || c = '_'

/-! ## Numbers -/

/-- Whether a character ends a number. All others belong to it and may spoil it. -/
def endsNumber (c : Char) : Bool :=
  symbols.contains c || [' ', '\n', '\r', '\t', ',', '#'].contains c

/-- The value of decimal digits; `none` unless all characters are digits. -/
def natural? (chars : List Char) : Option Nat :=
  if chars.all Char.isDigit then
    some (chars.foldl (fun n c => 10 * n + (c.toNat - '0'.toNat)) 0)
  else none

/-- The integer part of a number, without its sign: at least one digit and no
leading zero before others. -/
def whole? (chars : List Char) : Option Nat :=
  match chars with
  | [] => none
  | ['0'] => some 0
  | '0' :: _ => none
  | _ => natural? chars

/-- The exponent of a number: a sign with digits, or digits of which the first is
one of `1` to `8`. -/
def exponent? (chars : List Char) : Option Int :=
  match chars with
  | '+' :: d :: digits => (natural? (d :: digits)).map Int.ofNat
  | '-' :: d :: digits => (natural? (d :: digits)).map (fun n => -Int.ofNat n)
  | d :: digits =>
      if '1' ≤ d && d ≤ '8' then (natural? (d :: digits)).map Int.ofNat else none
  | [] => none

/-- Cuts a list at the first character that satisfies a test; the character itself
is left out. -/
def cutAt (test : Char → Bool) (chars : List Char) : List Char × Option (List Char) :=
  match chars.dropWhile (fun c => !test c) with
  | [] => (chars, none)
  | _ :: rest => (chars.takeWhile (fun c => !test c), some rest)

/-- Reads the text of a number. Without a point and an exponent it is an integer
and has to fit in 64 bits. -/
def number? (chars : List Char) : Option Lexeme := do
  let (negative, chars) := match chars with
    | '-' :: rest => (true, rest)
    | _ => (false, chars)
  let (mantissa, exponentPart) := cutAt (fun c => c = 'e' || c = 'E') chars
  let (wholePart, fractionPart) := cutAt (· = '.') mantissa
  let whole ← whole? wholePart
  match fractionPart, exponentPart with
  | none, none =>
      let value : Int := if negative then -whole else whole
      if h : FitsInt64 value then some (.int ⟨value, h⟩) else none
  | fractionPart, exponentPart =>
      let fraction := fractionPart.getD []
      if fractionPart == some [] then none
      else
        let digits ← natural? fraction
        let exponent ← match exponentPart with
          | none => some 0
          | some chars => exponent? chars
        some (.float
          (Decimal.toFloat negative (whole * Nat.pow 10 fraction.length + digits)
            (exponent - fraction.length)))

/-! ## Strings -/

/-- The value of a hexadecimal digit of either case. -/
def hexDigit? (c : Char) : Option Nat :=
  if c.isDigit then some (c.toNat - '0'.toNat)
  else if 'a' ≤ c && c ≤ 'f' then some (c.toNat - 'a'.toNat + 10)
  else if 'A' ≤ c && c ≤ 'F' then some (c.toNat - 'A'.toNat + 10)
  else none

/-- The value of hexadecimal digits. -/
def hexNumber? (chars : List Char) : Option Nat :=
  chars.foldlM (fun n c => (hexDigit? c).map (16 * n + ·)) 0

/-- The character of a four-character code: hexadecimal digits, of which a plus
sign may take the first place. Surrogates are no characters. -/
def codePoint? (a b c d : Char) : Option Char := do
  let code ← if a = '+' then hexNumber? [b, c, d] else hexNumber? [a, b, c, d]
  if 0xD800 ≤ code && code < 0xE000 then none else some (Char.ofNat code)

/-- The character that a one-letter escape stands for. -/
def escaped? : Char → Option Char
  | '"' => some '"'
  | '\\' => some '\\'
  | '/' => some '/'
  | 'n' => some '\n'
  | 'r' => some '\r'
  | 't' => some '\t'
  | 'f' => some '\x0c'
  | 'b' => some '\x10'
  | _ => none

/-- Reads a string behind its opening quote: its characters with escapes resolved,
and the number of characters read, the closing quote included. -/
def quoted? : List Char → Option (List Char × Nat)
  | [] => none
  | '"' :: _ => some ([], 1)
  | '\n' :: _ => none
  | '\\' :: 'u' :: a :: b :: c :: d :: rest => do
      let first ← codePoint? a b c d
      let (more, length) ← quoted? rest
      pure (first :: more, length + 6)
  | '\\' :: c :: rest => do
      let first ← escaped? c
      let (more, length) ← quoted? rest
      pure (first :: more, length + 2)
  | c :: rest => do
      let (more, length) ← quoted? rest
      pure (c :: more, length + 1)

/-- Reads a block string behind its opening quotes up to the first three quotes
with no backslash directly before them: the characters as they stand, and the
number of characters read, the closing quotes included. -/
def block? (backslash : Bool) : List Char → Option (List Char × Nat)
  | [] => none
  | '"' :: '"' :: '"' :: rest =>
      if backslash then do
        let (more, length) ← block? false rest
        pure ('"' :: '"' :: '"' :: more, length + 3)
      else some ([], 3)
  | c :: rest => do
      let (more, length) ← block? (c = '\\') rest
      pure (c :: more, length + 1)

/-! ## The token at the front of a text -/

/-- The token that begins with a character, given the characters behind it, and
how many of those belong to it. -/
def first? (c : Char) (rest : List Char) : Option (Lexeme × Nat) :=
  if symbols.contains c then some (.symbol c, 0)
  else if beginsName c then
    let tail := rest.takeWhile continuesName
    some (.name (String.ofList (c :: tail)), tail.length)
  else if c = '-' || c.isDigit then
    let tail := rest.takeWhile (fun d => !endsNumber d)
    (number? (c :: tail)).map (fun lexeme => (lexeme, tail.length))
  else
    match c, rest with
    | '.', '.' :: '.' :: _ => some (.ellipsis, 2)
    | '"', '"' :: '"' :: body =>
        (block? false body).map (fun (text, length) =>
          (.string (String.ofList (BlockString.content text)), length + 2))
    | '"', body =>
        (quoted? body).map (fun (text, length) => (.string (String.ofList text), length))
    | _, _ => none

/-- The tokens of a text that begins at a position. -/
def ofChars? (position : Position) (chars : List Char) : Option (List Token) :=
  match _h : position.skip false chars with
  | (_, []) => some []
  | (start, c :: rest) => do
      let (lexeme, length) ← first? c rest
      let more ← ofChars? (start.after (c :: rest.take length)) (rest.drop length)
      pure (⟨lexeme, start⟩ :: more)
termination_by chars.length
decreasing_by
  have hle := position.length_skip_le false chars
  rw [_h] at hle
  simp only [List.length_cons] at hle
  simp only [List.length_drop]
  omega

/-- The tokens of a text. -/
def ofText? (text : String) : Option (List Token) :=
  ofChars? ⟨1, 1⟩ text.toList

end Token

end Source

end QueryShape
