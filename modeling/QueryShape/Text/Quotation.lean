import QueryShape.Text.Unprintable

/-!
# Quoted texts in messages

## What this module delivers

- `quotation`: a text between double quotes, with an escape for every character that
  could be mistaken or cannot be shown.
-/

set_option autoImplicit false

namespace QueryShape.Text

/-- A character inside a quotation. Double quotes and backslashes stand behind a backslash,
usual control characters have letters, and what cannot be shown is given by its number in
hexadecimal digits. -/
def quotedChar (c : Char) : List Char :=
  match c with
  | '"' => ['\\', '"']
  | '\\' => ['\\', '\\']
  | '\n' => ['\\', 'n']
  | '\r' => ['\\', 'r']
  | '\t' => ['\\', 't']
  | '\x00' => ['\\', '0']
  | c =>
      if isUnprintable c then
        ['\\', 'u', '\x7b'] ++ Nat.toDigits 16 c.toNat ++ ['\x7d']
      else [c]

/-- A text between double quotes. -/
def quotation (text : String) : String :=
  String.ofList ('"' :: text.toList.flatMap quotedChar ++ ['"'])

end QueryShape.Text
