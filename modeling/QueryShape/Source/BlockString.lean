import QueryShape.Text.Line

/-!
# Block strings

The text between the marks of a block string is laid out for reading: it stands
indented, between blank lines. The content is what remains when this layout is
taken away.

## What this module delivers

- `content`: the content of a block string, given the characters between its marks.
- `indentation`: how many bytes of white space all lines share, the first line
  apart, since it stands directly behind the opening mark.
-/

set_option autoImplicit false

namespace QueryShape.Source.BlockString

open QueryShape.Text

/-- The number of bytes of some characters. -/
def byteCount (chars : List Char) : Nat :=
  chars.foldl (fun total c => total + c.utf8Size) 0

/-- The number of bytes of the white space that a line begins with. -/
def leadingBytes (line : List Char) : Nat :=
  byteCount (line.takeWhile isBlank)

/-- The white space, in bytes, that all lines share that are neither blank nor the
first. Lines come with their index. -/
def indentation (numbered : List (Nat × List Char)) : Option Nat :=
  ((numbered.filter (fun entry => entry.1 != 0 && !isBlankLine entry.2)).map
    (fun entry => leadingBytes entry.2)).min?

/-- Drops characters from the front of a line up to a number of bytes. -/
def dropBytes : Nat → List Char → List Char
  | 0, line => line
  | _, [] => []
  | n + 1, c :: rest => dropBytes (n + 1 - c.utf8Size) rest
termination_by n => n
decreasing_by
  have := c.utf8Size_pos
  omega

/-- A line without the shared white space. The first line and lines shorter than
the shared white space stay as they are. -/
def outdent (shared : Nat) (entry : Nat × List Char) : List Char :=
  if entry.1 != 0 && shared ≤ byteCount entry.2 then dropBytes shared entry.2
  else entry.2

/-- Replaces each escaped closing mark by the mark itself. -/
def unescape : List Char → List Char
  | '\\' :: '"' :: '"' :: '"' :: rest => '"' :: '"' :: '"' :: unescape rest
  | c :: rest => c :: unescape rest
  | [] => []

/-- The lines from the first to the last that is not blank. -/
def dropBlankEnds (numbered : List (Nat × List Char)) : List (Nat × List Char) :=
  let blank (entry : Nat × List Char) : Bool := isBlankLine entry.2
  ((numbered.dropWhile blank).reverse.dropWhile blank).reverse

/-- The content of a block string: outer blank lines dropped, the shared white
space removed, escaped marks resolved, lines joined by line feeds. -/
def content (chars : List Char) : List Char :=
  let numbered := (lines chars).zipIdx.map (fun entry => (entry.2, entry.1))
  let shared := (indentation numbered).getD 0
  let kept := (dropBlankEnds numbered).map (fun entry => unescape (outdent shared entry))
  List.intercalate ['\n'] kept

end QueryShape.Source.BlockString
