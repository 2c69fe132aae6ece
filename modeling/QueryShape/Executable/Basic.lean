import QueryShape.ReferencedTypes
import QueryShape.Selection.Basic

/-!
# Compiled documents

## What this module delivers

- `Variable`, `Operation`, `Fragment`: compiled definitions. Operations and fragments
  keep their own text in canonical form.
- `FragmentTable`: the fragments of a document, numbered in the order in which they were
  completed, and the numbers by name.
- `FragmentTable.push`, `FragmentTable.idOf?_push`: pushing a fragment keeps the two in step.
- `CompiledDocument`: everything that comes out of compiling documents.
- `FragmentTable.reachable`: the fragments that can be reached from given ones, in
  depth-first order of first reference.
- `CompiledDocument.unusedFragments`: the fragments that no operation reaches.
-/

set_option autoImplicit false

namespace QueryShape

/-- A variable of an operation. -/
structure Variable where
  name : String
  type : TypeRef
  defaultValue : Option Value
  location : Location
deriving BEq, Inhabited

/-- A compiled operation. -/
structure Operation where
  name : String
  kind : OperationKind
  /-- The name of the root type. -/
  root : String
  declared : Table Variable
  directives : List AppliedDirective
  selections : SelectionSet
  /-- The operation in canonical form. -/
  source : String
  file : Option FileName
  location : Location
deriving BEq, Inhabited

/-- A compiled fragment. -/
structure Fragment where
  name : String
  typeCondition : String
  directives : List AppliedDirective
  selections : SelectionSet
  /-- The fragment in canonical form. -/
  source : String
  file : Option FileName
  location : Location
deriving BEq, Inhabited

/-- The fragments that an operation spreads itself. -/
def Operation.spreads (operation : Operation) : List FragmentId :=
  operation.selections.spreads

/-- The fragments that a fragment spreads itself. -/
def Fragment.spreads (fragment : Fragment) : List FragmentId :=
  fragment.selections.spreads

/-! ## Fragment tables -/

/-- The numbers of names when fragments are numbered in order. A name that comes again gets the
later number. -/
def numbersOf (fragments : List Fragment) : Table FragmentId :=
  fragments.zipIdx.foldl (fun numbers (fragment, id) => numbers.insert fragment.name id) .empty

/-- Fragments in the order in which they were completed. A fragment comes after all
fragments that it spreads. Names are not searched for: their numbers are kept beside the
fragments. -/
structure FragmentTable where
  fragments : List Fragment
  numbers : Table FragmentId
  numbers_eq : numbers = numbersOf fragments

namespace FragmentTable

/-- The table of some fragments, numbered in order. -/
def ofFragments (fragments : List Fragment) : FragmentTable :=
  ⟨fragments, numbersOf fragments, rfl⟩

/-- The table without fragments. -/
def empty : FragmentTable := ofFragments []

instance : Inhabited FragmentTable := ⟨empty⟩

/-- Tables agree if their fragments do and their names have the same numbers. -/
instance : BEq FragmentTable :=
  ⟨fun left right => left.fragments == right.fragments && left.numbers == right.numbers⟩

/-- The fragments decide on the numbers. -/
theorem eq_of_fragments {left right : FragmentTable} (h : left.fragments = right.fragments) :
    left = right := by
  obtain ⟨fragments, numbers, rfl⟩ := left
  obtain ⟨fragments', numbers', rfl⟩ := right
  obtain rfl : fragments = fragments' := h
  rfl

/-- The number of fragments. -/
def size (table : FragmentTable) : Nat :=
  table.fragments.length

/-- The fragment with a number. -/
def get? (table : FragmentTable) (id : FragmentId) : Option Fragment :=
  table.fragments[id]?

/-- The number of the fragment with a name. -/
def idOf? (table : FragmentTable) (name : String) : Option FragmentId :=
  table.numbers.get? name

/-- The fragment with a name. -/
def named? (table : FragmentTable) (name : String) : Option Fragment :=
  (table.idOf? name).bind table.get?

theorem numbersOf_concat (fragments : List Fragment) (fragment : Fragment) :
    numbersOf (fragments ++ [fragment]) =
      (numbersOf fragments).insert fragment.name fragments.length := by
  simp [numbersOf, List.zipIdx_append]

/-- Adds a fragment at the end, and its number under its name. -/
def push (table : FragmentTable) (fragment : Fragment) : FragmentTable :=
  ⟨table.fragments ++ [fragment], table.numbers.insert fragment.name table.size, by
    rw [numbersOf_concat, table.numbers_eq, size]⟩

/-- The fragment that is pushed has the next number under its name. The numbers of other names stay
as they are. -/
theorem idOf?_push (table : FragmentTable) (fragment : Fragment) (name : String) :
    (table.push fragment).idOf? name =
      if name = fragment.name then some table.size else table.idOf? name :=
  Table.get?_insert ..

/-- The fragment with a number, which ought to be there. -/
def resolve (table : FragmentTable) (id : FragmentId) : Except InvariantError Fragment :=
  match table.get? id with
  | some fragment => .ok fragment
  | none => .error (.fragmentMissing id)

theorem resolve_eq_ok {table : FragmentTable} {id : FragmentId} {fragment : Fragment} :
    table.resolve id = .ok fragment ↔ table.get? id = some fragment := by
  rw [resolve]
  cases table.get? id with
  | none => simp
  | some present => simp

/-- Adds a fragment and those that it reaches to a list, unless they are in it. The
depth bounds the number of fragments of the table on a path of references. -/
def visit (table : FragmentTable) : Nat → List FragmentId → FragmentId → List FragmentId
  | depth, known, id =>
      if known.contains id then known
      else
        match table.get? id, depth with
        | some fragment, depth + 1 => fragment.spreads.foldl (visit table depth) (known ++ [id])
        | _, _ => known ++ [id]

/-- The fragments that can be reached from some roots, the roots included, in
depth-first order of first reference. Numbers that the table lacks lead nowhere. -/
def reachable (table : FragmentTable) (roots : List FragmentId) : List FragmentId :=
  roots.foldl (visit table table.size) []

end FragmentTable

/-! ## Compiled documents -/

/-- What comes out of compiling documents. -/
structure CompiledDocument where
  operations : List Operation
  fragments : FragmentTable
  referencedTypes : NameSet
deriving BEq, Inhabited

namespace CompiledDocument

/-- The operation with a name. -/
def operation? (document : CompiledDocument) (name : String) : Option Operation :=
  document.operations.find? (fun operation => operation.name == name)

/-- The fragments that no operation reaches, in the order of the table. -/
def unusedFragments (document : CompiledDocument) : List Fragment :=
  let used := document.operations.flatMap
    (fun operation => document.fragments.reachable operation.spreads)
  (document.fragments.fragments.zipIdx.filter (fun entry => !used.contains entry.2)).map Prod.fst

end CompiledDocument

end QueryShape
