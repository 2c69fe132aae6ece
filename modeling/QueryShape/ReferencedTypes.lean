import QueryShape.Schema.Basic

/-!
# The types that a document refers to

A generator of declarations has to know which types of the schema a document
touches. A union brings its members along, and an input object the types of its
fields, because no selection leads to those.

## What this module delivers

- `NamedType.dependencies`: the types that a type brings along.
- `NameSet.addType`: adds a type and everything that it brings along, in depth-first
  order.
- `NameSet.enterType`: the same on a set that goes on to be used after an error, and so
  keeps what was added before it.

Adding inserts a name before it follows the dependencies of that name, so types that
depend on each other do no harm. Each step down inserts a new name of the schema,
which is why the number of types bounds the depth.
-/

set_option autoImplicit false

namespace QueryShape

/-- The names of the types that a type brings along. -/
def NamedType.dependencies : NamedType → List String
  | .inputObject type => type.fields.values.map (fun field => field.type.typeName)
  | .union type => type.members.names
  | _ => []

/-- Adds a type and what it brings along, down to a depth. -/
def NameSet.addTypeWithin (schema : Schema) :
    Nat → NameSet → String → Except InvariantError NameSet
  | depth, set, name =>
      if set.contains name then .ok set
      else
        match schema.type? name with
        | none => .error (.typeMissing name)
        | some type =>
            match depth with
            | 0 => .ok (set.insert name)
            | depth + 1 => type.dependencies.foldlM (addTypeWithin schema depth) (set.insert name)

/-- Adds a type and everything that it brings along. A name that the set has already
changes nothing; a name that the schema lacks is an error. -/
def NameSet.addType (set : NameSet) (schema : Schema) (name : String) :
    Except InvariantError NameSet :=
  NameSet.addTypeWithin schema schema.types.size set name

/-- Enters names one after the other until there is an error. What was entered before the
error stays. -/
def NameSet.enterAll (enter : NameSet → String → NameSet × Option InvariantError)
    (set : NameSet) : List String → NameSet × Option InvariantError
  | [] => (set, none)
  | name :: names =>
      match enter set name with
      | (after, none) => enterAll enter after names
      | (after, some error) => (after, some error)

/-- Enters a type and what it brings along, down to a depth. -/
def NameSet.enterTypeWithin (schema : Schema) :
    Nat → NameSet → String → NameSet × Option InvariantError
  | depth, set, name =>
      if set.contains name then (set, none)
      else
        match schema.type? name with
        | none => (set, some (.typeMissing name))
        | some type =>
            match depth with
            | 0 => (set.insert name, none)
            | depth + 1 =>
                enterAll (enterTypeWithin schema depth) (set.insert name) type.dependencies

/-- Enters a type and everything that it brings along into a set, and reports the error
that there is. The set is as it stands then, also after an error. -/
def NameSet.enterType (set : NameSet) (schema : Schema) (name : String) :
    NameSet × Option InvariantError :=
  NameSet.enterTypeWithin schema schema.types.size set name

end QueryShape
