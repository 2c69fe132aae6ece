/-!
# Names of files

A text may come from a file. Whatever is read out of the text remembers the name of that
file in the words in which it was given, because messages quote it so.

## What this module delivers

- `FileName`: the name of a file as it was given.
- `FileName.steps`: the way that a name describes.

Two names can differ and still describe one way: `a//b` and `a/./b` are `a/b`. Names
agree (`==`) if they describe the same way; `=` compares their words. The way is read off
the words alone, no file system is asked.
-/

set_option autoImplicit false

namespace QueryShape

/-- The name of a file as it was given. -/
structure FileName where
  text : String
deriving DecidableEq, Repr, Inhabited

namespace FileName

/-- Whether a part of a name takes a step. Between two slashes, neither nothing nor a
single point does. -/
def isStep (part : String) : Bool :=
  part != "" && part != "."

/-- The way that a name describes. What stands in front of the first slash always counts:
nothing means the root, and a single point the working directory. -/
def steps (name : FileName) : List String :=
  if name.text.isEmpty then []
  else
    match name.text.splitOn "/" with
    | [] => []
    | start :: parts => start :: parts.filter isStep

/-- Names agree if they describe the same way. -/
instance : BEq FileName := ⟨fun left right => left.steps == right.steps⟩

end FileName

end QueryShape
