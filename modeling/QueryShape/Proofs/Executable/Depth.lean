import QueryShape.Proofs.BoundedRecursion
import QueryShape.Proofs.Executable.Success

/-!
# Depths that are never used up

Two recursions of a compilation carry a depth: finding a fragment, and adding a type with what it
brings along. The depth only shows that the recursion ends. Each step down takes a defined name that
was not taken before, so any two depths that cover the names that are left give the same result. The
recursion without a depth therefore has a solution, only one, and it is what is computed.

## What this module delivers

- `findStep`, `FindsFragments`: finding fragments as a recursion without a depth.
- `boundedRecursion_fragmentIdWithin`: the names outside the path are what is left.
- `findsFragments_iff`: the recursion has one solution.
- `addStep`, `AddsTypes`: adding types as a recursion without a depth.
- `boundedRecursion_addTypeWithin`, `addsTypes_iff`: the same for types.
-/

set_option autoImplicit false

namespace QueryShape

open CompileM

section Missing

variable {α : Type} [DecidableEq α] {all known : List α}

theorem missing_cons (place : α) : missing all (place :: known) = missing all (known ++ [place]) := by
  have hsame : (place :: known).toFinset = (known ++ [place]).toFinset := by
    rw [List.toFinset_append, List.toFinset_cons, Finset.insert_eq, Finset.union_comm]
    rfl
  rw [missing, missing, hsame]

theorem missing_cons_lt {place : α} (hmem : place ∈ all) (hnew : place ∉ known) :
    missing all (place :: known) < missing all known :=
  missing_cons place ▸ missing_concat_lt hmem hnew

end Missing

/-! ## Finding fragments -/

section Fragments

variable {schema : Schema} {definitions : Table FragmentSource}

/-- One step of finding the number of a fragment. What the fragment spreads is found by another
resolver, which belongs to the longer path. -/
def findStep (schema : Schema) (definitions : Table FragmentSource) (inner : Resolver)
    (path : List String) (name : String) (location : Location) : CompileM FragmentId := do
  match (← get).fragments.idOf? name with
  | some id => pure id
  | none =>
      if path.contains name then malformed (.fragmentCycle name location)
      else
        match definitions.get? name with
        | none => undefined (.undefinedFragment name location)
        | some source => do
            let fragment ← compileFragment schema inner source
            let compilation ← get
            set { compilation with fragments := compilation.fragments.push fragment }
            pure compilation.fragments.size

/-- A resolver for every path that finds what a fragment spreads by the resolver for the longer path,
however long the path gets. -/
def FindsFragments (schema : Schema) (definitions : Table FragmentSource)
    (find : List String → Resolver) : Prop :=
  ∀ path name location,
    find path name location = findStep schema definitions (find (name :: path)) path name location

/-- The resolver for the longer path matters only for a defined name that is not on the path. -/
theorem findStep_congr {inner inner' : Resolver} {path : List String} {name : String}
    {location : Location}
    (h : name ∉ path → name ∈ definitions.keys → inner = inner') :
    findStep schema definitions inner path name location =
      findStep schema definitions inner' path name location := by
  unfold findStep
  cases hpath : path.contains name with
  | true => rfl
  | false =>
      cases hsource : definitions.get? name with
      | none => rfl
      | some source =>
          have hnew : name ∉ path := by simpa using hpath
          rw [h hnew (Table.mem_keys_of_get? hsource)]

/-- With a depth left, finding a fragment is one step. Where no depth is needed none is used. -/
theorem fragmentIdWithin_eq_findStep {depth : Nat} {path : List String} {name : String}
    (hdepth : name ∉ path → name ∈ definitions.keys → 0 < depth) (location : Location) :
    fragmentIdWithin schema definitions depth path name location =
      findStep schema definitions (fragmentIdWithin schema definitions (depth - 1) (name :: path))
        path name location := by
  unfold findStep
  conv_lhs => unfold fragmentIdWithin
  cases hpath : path.contains name with
  | true => rfl
  | false =>
      cases hsource : definitions.get? name with
      | none => rfl
      | some source =>
          have hnew : name ∉ path := by simpa using hpath
          obtain ⟨below, rfl⟩ := Nat.exists_eq_succ_of_ne_zero
            (Nat.pos_iff_ne_zero.mp (hdepth hnew (Table.mem_keys_of_get? hsource)))
          rfl

/-- The names outside the path are what is left: each step down takes one of them. -/
theorem boundedRecursion_fragmentIdWithin : BoundedRecursion
    (fun find path name location =>
      findStep schema definitions (find (name :: path)) path name location)
    (fragmentIdWithin schema definitions) (missing definitions.keys) where
  unfolds {depth path} hdepth := by
    funext name location
    apply fragmentIdWithin_eq_findStep
    intro hnew hdefined
    exact Nat.zero_lt_of_lt (Nat.lt_of_lt_of_le (missing_cons_lt hdefined hnew) hdepth)
  descends {depth path find} _ hfind := by
    funext name location
    apply findStep_congr
    intro hnew hdefined
    exact hfind (name :: path) (missing_cons_lt hdefined hnew)

theorem missing_keys_le_size (path : List String) :
    missing definitions.keys path ≤ definitions.size :=
  (missing_le_length _ _).trans_eq (List.length_map _)

/-- The recursion without a depth has one solution: to find fragments with the number of definitions
as the depth. -/
theorem findsFragments_iff {find : List String → Resolver} :
    FindsFragments schema definitions find ↔
      find = fragmentIdWithin schema definitions definitions.size := by
  refine Iff.trans ?_ (boundedRecursion_fragmentIdWithin.solves_iff missing_keys_le_size)
  simp only [FindsFragments, funext_iff]

end Fragments

/-! ## Adding types -/

section Types

namespace NameSet

variable {schema : Schema}

/-- One step of adding a type. What the type brings along is added one after the other. -/
def addStep (schema : Schema) (inner : NameSet → String → Except InvariantError NameSet)
    (set : NameSet) (name : String) : Except InvariantError NameSet :=
  if set.contains name then .ok set
  else
    match schema.type? name with
    | none => .error (.typeMissing name)
    | some type => type.dependencies.foldlM inner (set.insert name)

/-- Adding that adds in the same way what a type brings along, however far this leads. -/
def AddsTypes (schema : Schema) (add : NameSet → String → Except InvariantError NameSet) : Prop :=
  ∀ set name, add set name = addStep schema add set name

/-- A step down leaves fewer types outside the set. -/
theorem lacking_insert_lt {set : NameSet} {name : String} {type : NamedType}
    (hnew : set.contains name = false) (htype : schema.type? name = some type) :
    lacking schema (set.insert name) < lacking schema set := by
  have hnotin : name ∉ set.names := fun hmem => by simp [contains_iff_mem.mpr hmem] at hnew
  rw [lacking, names_insert_of_not_mem hnotin]
  exact missing_concat_lt (Table.mem_keys_of_get? htype) hnotin

/-- What a depth covers it still covers after each of some names has been added. So adding that
agrees with adding down to this depth, wherever the depth covers what is lacking, gives the same. -/
theorem foldlM_addTypeWithin_congr {bound depth : Nat} (hbound : bound ≤ depth)
    {add : NameSet → String → Except InvariantError NameSet}
    (hadd : ∀ set name, lacking schema set ≤ bound →
      add set name = addTypeWithin schema depth set name)
    (names : List String) {set : NameSet} (hset : lacking schema set ≤ bound) :
    names.foldlM add set = names.foldlM (addTypeWithin schema depth) set := by
  induction names generalizing set with
  | nil => rfl
  | cons name names ih =>
      rw [List.foldlM_cons, List.foldlM_cons, hadd set name hset]
      cases hfirst : addTypeWithin schema depth set name with
      | error error => rfl
      | ok middle =>
          have hgrows := (addTypeWithin_gains depth (hset.trans hbound) hfirst).visits.isPrefix
          exact ih ((missing_le_of_isPrefix hgrows).trans hset)

/-- Within a depth that covers what the set lacks, adding is one step. -/
theorem addTypeWithin_eq_addStep {depth : Nat} {set : NameSet} (name : String)
    (hdepth : lacking schema set ≤ depth) :
    addTypeWithin schema depth set name =
      addStep schema (addTypeWithin schema (depth - 1)) set name := by
  unfold addStep
  conv_lhs => unfold addTypeWithin
  cases hknown : set.contains name with
  | true => rfl
  | false =>
      cases htype : schema.type? name with
      | none => rfl
      | some type =>
          have hless := Nat.lt_of_lt_of_le (lacking_insert_lt hknown htype) hdepth
          obtain ⟨below, rfl⟩ := Nat.exists_eq_succ_of_ne_zero (Nat.ne_zero_of_lt hless)
          rfl

/-- What types bring along matters only if the type is defined and not in the set. -/
theorem addStep_congr {inner inner' : NameSet → String → Except InvariantError NameSet}
    {set : NameSet} {name : String}
    (h : ∀ type, set.contains name = false → schema.type? name = some type →
      type.dependencies.foldlM inner (set.insert name) =
        type.dependencies.foldlM inner' (set.insert name)) :
    addStep schema inner set name = addStep schema inner' set name := by
  unfold addStep
  cases hknown : set.contains name with
  | true => rfl
  | false =>
      cases htype : schema.type? name with
      | none => rfl
      | some type => exact h type hknown htype

/-- The types outside the set are what is left. -/
theorem boundedRecursion_addTypeWithin :
    BoundedRecursion (addStep schema) (addTypeWithin schema) (lacking schema) where
  unfolds hdepth := by
    funext name
    exact addTypeWithin_eq_addStep name hdepth
  descends {depth set add} hdepth hadd := by
    funext name
    apply addStep_congr
    intro type hnew htype
    have hless := lacking_insert_lt hnew htype
    refine foldlM_addTypeWithin_congr (Nat.le_sub_one_of_lt (Nat.lt_of_lt_of_le hless hdepth))
      (fun other inner hother => ?_) _ (Nat.le_refl _)
    rw [hadd other (Nat.lt_of_le_of_lt hother hless)]

theorem lacking_le_size (set : NameSet) : lacking schema set ≤ schema.types.size :=
  (missing_le_length _ _).trans_eq (List.length_map _)

/-- The recursion without a depth has one solution: to add types with the number of types as the
depth. -/
theorem addsTypes_iff {add : NameSet → String → Except InvariantError NameSet} :
    AddsTypes schema add ↔ add = fun set name => set.addType schema name := by
  refine Iff.trans ?_ (boundedRecursion_addTypeWithin.solves_iff lacking_le_size)
  simp only [AddsTypes, funext_iff]

end NameSet

end Types

end QueryShape
