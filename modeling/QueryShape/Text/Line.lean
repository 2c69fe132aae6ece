/-!
# White space and lines

## What this module delivers

- `isBlank`: the Unicode white-space property, all twenty-five code points of it.
- `trim`, `trimEnd`: a text without its outer, or its trailing, white space.
- `lines`: the lines of a text. A line ends at a line feed, or at a carriage
  return directly before one; a lone carriage return belongs to its line. A text
  that ends with a line feed has no further empty line.
-/

set_option autoImplicit false

namespace QueryShape.Text

/-- The code points that have the Unicode property `White_Space`, as ranges. -/
def blankRanges : List (Nat × Nat) :=
  [(0x9, 0xD), (0x20, 0x20), (0x85, 0x85), (0xA0, 0xA0), (0x1680, 0x1680), (0x2000, 0x200A),
    (0x2028, 0x2029), (0x202F, 0x202F), (0x205F, 0x205F), (0x3000, 0x3000)]

/-- Whether a character is Unicode white space. -/
def isBlank (c : Char) : Bool :=
  blankRanges.any (fun range => range.1 ≤ c.toNat && c.toNat ≤ range.2)

/-- Whether a line shows nothing. -/
def isBlankLine (line : List Char) : Bool :=
  line.all isBlank

/-- The characters without trailing white space. -/
def trimEndChars (chars : List Char) : List Char :=
  (chars.reverse.dropWhile isBlank).reverse

/-- A text without trailing white space. -/
def trimEnd (text : String) : String :=
  String.ofList (trimEndChars text.toList)

/-- A text without white space at either end. -/
def trim (text : String) : String :=
  String.ofList (trimEndChars (text.toList.dropWhile isBlank))

/-- Puts a character in front of the first line; without any line it makes one. -/
def onFirstLine (c : Char) : List (List Char) → List (List Char)
  | [] => [[c]]
  | line :: rest => (c :: line) :: rest

/-- The lines of a text, without their line ends. -/
def lines : List Char → List (List Char)
  | [] => []
  | '\r' :: '\n' :: rest => [] :: lines rest
  | '\n' :: rest => [] :: lines rest
  | c :: rest => onFirstLine c (lines rest)

end QueryShape.Text
