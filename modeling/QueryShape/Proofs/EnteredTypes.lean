import QueryShape.Proofs.BuiltSchema
import QueryShape.Proofs.Executable.Depth
import QueryShape.Proofs.Preorder
import QueryShape.Proofs.ReferencedTypes
import QueryShape.Proofs.Schema.Finishing

/-!
# Sets of types that go on to be used

Types are entered into a set one after the other, and the set goes on to be used if one of them
cannot be entered. By then something may have been entered on its behalf, and the set would hold
types without what they bring along. A schema that has been built leaves no room for that: what its
types bring along is defined, so a type is entered with everything it leads to or refused at once.

While a type is being entered the set is not closed, because a type that is still being expanded is
passed over like one that is finished. So nothing is said about the sets in between. Each addition as
a whole visits its type in depth-first order, and what such a visit leaves behind is closed again.

## What this module delivers

- `NameSet.settled_enterTypeWithin`: entering agrees with adding, but for the set that an error
  leaves behind.
- `NameSet.EntersTypes`, `NameSet.entersTypes_iff`: entering as a recursion without a depth, which has
  one solution.
- `NameSet.Closed.enterType`: what entering one type does to a closed set.
- `NameSet.Closed.enterEach`: the same for any run of additions.
- `Schema.PulledIn`: what union members and fields of input objects pull in.
- `Schema.entered_types`: the set after any additions to an empty one, and what one more does.
-/

set_option autoImplicit false

namespace QueryShape

variable {schema : Schema}

/-! ## Entering and adding -/

namespace NameSet

/-- An outcome without the set that an error leaves behind. -/
def settled : NameSet × Option InvariantError → Except InvariantError NameSet
  | (after, none) => .ok after
  | (_, some error) => .error error

theorem eq_of_settled {outcome : NameSet × Option InvariantError} {after : NameSet}
    (h : settled outcome = .ok after) : outcome = (after, none) := by
  obtain ⟨set, error⟩ := outcome
  cases error with
  | none =>
      cases h
      rfl
  | some error => exact nomatch h

/-- Names are entered in the order in which they are added, up to the first error. -/
theorem settled_enterAll {enter : NameSet → String → NameSet × Option InvariantError}
    {add : NameSet → String → Except InvariantError NameSet}
    (hsame : ∀ set name, settled (enter set name) = add set name) (names : List String)
    (set : NameSet) : settled (enterAll enter set names) = names.foldlM add set := by
  induction names generalizing set with
  | nil => rfl
  | cons name names ih =>
      rw [enterAll, List.foldlM_cons, ← hsame]
      rcases enter set name with ⟨after, error⟩
      cases error with
      | none => exact ih after
      | some error => rfl

theorem settled_enterTypeWithin (schema : Schema) (depth : Nat) (set : NameSet) (name : String) :
    settled (enterTypeWithin schema depth set name) = addTypeWithin schema depth set name := by
  -- At depth zero both stop at the type itself, whatever it brings along.
  induction depth generalizing set name with
  | zero =>
      unfold enterTypeWithin addTypeWithin
      split
      · rfl
      · cases schema.type? name with
        | none => rfl
        | some type => rfl
  | succ depth ih =>
      unfold enterTypeWithin addTypeWithin
      split
      · rfl
      · cases schema.type? name with
        | none => rfl
        | some type => exact settled_enterAll ih type.dependencies (set.insert name)

theorem enterType_of_addType {set after : NameSet} {name : String}
    (h : set.addType schema name = .ok after) : set.enterType schema name = (after, none) := by
  apply eq_of_settled
  rw [enterType, settled_enterTypeWithin]
  exact h

/-- A name that the schema lacks is refused before anything is entered. -/
theorem enterType_of_missing {set : NameSet} {name : String} (hnew : name ∉ set.names)
    (hnone : schema.type? name = none) :
    set.enterType schema name = (set, some (.typeMissing name)) := by
  unfold enterType enterTypeWithin
  rw [if_neg (fun hmem => hnew (contains_iff_mem.mp hmem)), hnone]

end NameSet

/-! ## Entering without a depth -/

namespace NameSet

/-- One step of entering a type. What the type brings along is entered one after the other. -/
def enterStep (schema : Schema) (inner : NameSet → String → NameSet × Option InvariantError)
    (set : NameSet) (name : String) : NameSet × Option InvariantError :=
  if set.contains name then (set, none)
  else
    match schema.type? name with
    | none => (set, some (.typeMissing name))
    | some type => enterAll inner (set.insert name) type.dependencies

/-- Entering that enters in the same way what a type brings along, however far this leads. -/
def EntersTypes (schema : Schema) (enter : NameSet → String → NameSet × Option InvariantError) :
    Prop :=
  ∀ set name, enter set name = enterStep schema enter set name

theorem isPrefix_enterAll {enter : NameSet → String → NameSet × Option InvariantError}
    (henter : ∀ set name, set.names <+: (enter set name).1.names) (names : List String)
    (set : NameSet) : set.names <+: (enterAll enter set names).1.names := by
  induction names generalizing set with
  | nil => exact List.prefix_refl set.names
  | cons name names ih =>
      have hfirst := henter set name
      rw [enterAll]
      generalize enter set name = outcome at hfirst ⊢
      obtain ⟨after, error⟩ := outcome
      cases error with
      | none => exact hfirst.trans (ih after)
      | some error => exact hfirst

theorem isPrefix_insert (set : NameSet) (name : String) : set.names <+: (set.insert name).names := by
  by_cases hmem : name ∈ set.names
  · rw [insert, if_pos (contains_iff_mem.mpr hmem)]
  · rw [names_insert_of_not_mem hmem]
    exact List.prefix_append set.names [name]

/-- Whatever the depth, and also where there is an error, nothing is taken out of the set. -/
theorem isPrefix_enterTypeWithin (depth : Nat) (set : NameSet) (name : String) :
    set.names <+: (enterTypeWithin schema depth set name).1.names := by
  induction depth generalizing set name with
  | zero =>
      unfold enterTypeWithin
      split
      · exact List.prefix_refl set.names
      · cases schema.type? name with
        | none => exact List.prefix_refl set.names
        | some type => exact isPrefix_insert set name
  | succ depth ih =>
      unfold enterTypeWithin
      split
      · exact List.prefix_refl set.names
      · cases schema.type? name with
        | none => exact List.prefix_refl set.names
        | some type =>
            exact (isPrefix_insert set name).trans (isPrefix_enterAll ih type.dependencies _)

/-- Names may be entered by any function that agrees where a bound covers what is lacking. -/
theorem enterAll_congr {bound depth : Nat}
    {enter : NameSet → String → NameSet × Option InvariantError}
    (henter : ∀ set name, lacking schema set ≤ bound →
      enter set name = enterTypeWithin schema depth set name)
    (names : List String) {set : NameSet} (hset : lacking schema set ≤ bound) :
    enterAll enter set names = enterAll (enterTypeWithin schema depth) set names := by
  induction names generalizing set with
  | nil => rfl
  | cons name names ih =>
      have hgrows : set.names <+: (enterTypeWithin schema depth set name).1.names :=
        isPrefix_enterTypeWithin depth set name
      rw [enterAll, enterAll, henter set name hset]
      generalize enterTypeWithin schema depth set name = outcome at hgrows ⊢
      obtain ⟨after, error⟩ := outcome
      cases error with
      | none => exact ih ((missing_le_of_isPrefix hgrows).trans hset)
      | some error => rfl

/-- Within a depth that covers what the set lacks, entering is one step. -/
theorem enterTypeWithin_eq_enterStep {depth : Nat} {set : NameSet} (name : String)
    (hdepth : lacking schema set ≤ depth) :
    enterTypeWithin schema depth set name =
      enterStep schema (enterTypeWithin schema (depth - 1)) set name := by
  unfold enterStep
  conv_lhs => unfold enterTypeWithin
  cases hknown : set.contains name with
  | true => rfl
  | false =>
      cases htype : schema.type? name with
      | none => rfl
      | some type =>
          have hless := Nat.lt_of_lt_of_le (lacking_insert_lt hknown htype) hdepth
          obtain ⟨below, rfl⟩ := Nat.exists_eq_succ_of_ne_zero (Nat.ne_zero_of_lt hless)
          rfl

/-- The types outside the set are what is left. -/
theorem boundedRecursion_enterTypeWithin :
    BoundedRecursion (enterStep schema) (enterTypeWithin schema) (lacking schema) where
  unfolds hdepth := by
    funext name
    exact enterTypeWithin_eq_enterStep name hdepth
  descends {depth set enter} hdepth henter := by
    funext name
    unfold enterStep
    cases hknown : set.contains name with
    | true => rfl
    | false =>
        cases htype : schema.type? name with
        | none => rfl
        | some type =>
            have hless := lacking_insert_lt hknown htype
            refine enterAll_congr (fun other inner hother => ?_) _ (Nat.le_refl _)
            rw [henter other (Nat.lt_of_le_of_lt hother hless)]

/-- The recursion without a depth has one solution: to enter types with the number of types as the
depth. -/
theorem entersTypes_iff {enter : NameSet → String → NameSet × Option InvariantError} :
    EntersTypes schema enter ↔ enter = fun set name => set.enterType schema name := by
  refine Iff.trans ?_ (boundedRecursion_enterTypeWithin.solves_iff lacking_le_size)
  simp only [EntersTypes, funext_iff]

end NameSet

/-! ## One addition -/

/-- In a coherent schema a type that is defined leads to defined types only. -/
theorem Schema.Coherent.definesAll (h : schema.Coherent) {name : String}
    (hname : (schema.type? name).isSome = true) : schema.DefinesAll name := by
  intro other hleads
  induction hleads with
  | refl => exact hname
  | @tail outer inner _ hstep ih =>
      obtain ⟨type, htype⟩ := Option.isSome_iff_exists.mp ih
      rw [Schema.broughtBy, htype] at hstep
      exact h.mentioned inner (.brought htype hstep)

namespace NameSet

/-- A defined type is entered with all that it leads to, in depth-first order, and the set is closed
again. Any other name is refused, and the set stays as it is. -/
theorem Closed.enterType {set : NameSet} (hclosed : set.Closed schema)
    (hcoherent : schema.Coherent) (name : String) :
    (schema.type? name = none →
      set.enterType schema name = (set, some (.typeMissing name))) ∧
    ((schema.type? name).isSome = true → ∃ after, set.enterType schema name = (after, none) ∧
      after.Closed schema ∧ DepthFirst schema.broughtBy set.names [name] after.names) := by
  constructor
  · intro hnone
    apply enterType_of_missing _ hnone
    -- A closed set holds defined types only.
    intro hmem
    have hdefined := (hclosed name hmem).1
    rw [hnone] at hdefined
    exact Bool.false_ne_true hdefined
  · intro hdefined
    obtain ⟨after, hadded⟩ := exists_addType set (hcoherent.definesAll hdefined)
    exact ⟨after, enterType_of_addType hadded, (hclosed.addType hadded).1,
      (addType_gains hadded).visits⟩

/-! ## Any run of additions -/

/-- The set after entering types one after the other, whatever became of each of them. -/
def enterEach (schema : Schema) (set : NameSet) (names : List String) : NameSet :=
  names.foldl (fun set name => (set.enterType schema name).1) set

end NameSet

/-- The names that the schema defines, of a list. -/
def Schema.defined (schema : Schema) (names : List String) : List String :=
  names.filter fun name => (schema.type? name).isSome

namespace NameSet

/-- After any run of additions a closed set is closed again, and the defined types have been visited
in depth-first order. -/
theorem Closed.enterEach (hcoherent : schema.Coherent) (names : List String) {set : NameSet}
    (hclosed : set.Closed schema) : (set.enterEach schema names).Closed schema ∧
      DepthFirst schema.broughtBy set.names (schema.defined names)
        (set.enterEach schema names).names := by
  induction names generalizing set with
  | nil => exact ⟨hclosed, .done _⟩
  | cons name names ih =>
      obtain ⟨hrefused, hentered⟩ := hclosed.enterType hcoherent name
      rw [NameSet.enterEach, List.foldl_cons, Schema.defined]
      cases htype : schema.type? name with
      | none =>
          rw [hrefused htype, List.filter_cons_of_neg (by simp [htype])]
          exact ih hclosed
      | some type =>
          obtain ⟨after, henter, hafter, hvisits⟩ := hentered (by rw [htype]; rfl)
          rw [henter, List.filter_cons_of_pos (by simp [htype]), depthFirst_cons]
          obtain ⟨hlater, hothers⟩ := ih hafter
          exact ⟨hlater, after.names, hvisits, hothers⟩

theorem enterEach_append (schema : Schema) (set : NameSet) (names more : List String) :
    set.enterEach schema (names ++ more) =
      (set.enterEach schema names).enterEach schema more :=
  List.foldl_append

end NameSet

/-! ## What is pulled in -/

/-- The types that some types pull in: themselves, the members of unions, and the types of the fields
of input objects. -/
inductive Schema.PulledIn (schema : Schema) (added : List String) : String → Prop
  | added {name : String} : name ∈ added → PulledIn schema added name
  | member {outer inner : String} {union : UnionType} :
      PulledIn schema added outer → schema.type? outer = some (.union union) →
      inner ∈ union.members.names → PulledIn schema added inner
  | inputField {outer : String} {input : InputObjectType} {field : InputField} :
      PulledIn schema added outer → schema.type? outer = some (.inputObject input) →
      field ∈ input.fields.values → PulledIn schema added field.type.typeName

theorem Schema.pulledIn_iff {added : List String} {name : String} :
    schema.PulledIn added name ↔ ∃ root ∈ added, LeadsTo schema.broughtBy root name := by
  constructor
  · intro hpulled
    induction hpulled with
    | added hmem => exact ⟨_, hmem, .refl⟩
    | member _ htype hmem ih =>
        obtain ⟨root, hroot, hleads⟩ := ih
        exact ⟨root, hroot, hleads.tail (Schema.mem_broughtBy.mpr (Or.inl ⟨_, htype, hmem⟩))⟩
    | inputField _ htype hmem ih =>
        obtain ⟨root, hroot, hleads⟩ := ih
        refine ⟨root, hroot, hleads.tail (Schema.mem_broughtBy.mpr (Or.inr ?_))⟩
        exact ⟨_, htype, _, hmem, rfl⟩
  · rintro ⟨root, hroot, hleads⟩
    induction hleads with
    | refl => exact .added hroot
    | tail _ hstep ih =>
        rcases Schema.mem_broughtBy.mp hstep with ⟨union, htype, hmem⟩ | ⟨input, htype, hfield⟩
        · exact .member ih htype hmem
        · obtain ⟨field, hmem, rfl⟩ := hfield
          exact .inputField ih htype hmem

/-! ## Schemas that have been built -/

/-- Entering types ends, also where they lead back to each other: without a bound on its depth it is a
recursion that has one solution. Types are entered into an empty set, one after the other. Then the
set holds, each once, what the defined ones among them pull in, in the preorder of a listing of all
that they bring along, and later additions leave all of it at its place. One more addition fails
exactly if its name is not defined, and then changes nothing; else the set goes on with what is new in
the listing of its type. -/
theorem Schema.entered_types (hbuilt : schema.Built) (names : List String) :
    let set := NameSet.empty.enterEach schema names
    (∀ enter, NameSet.EntersTypes schema enter ↔
      enter = fun set name => set.enterType schema name) ∧
    set.names.Nodup ∧
      (∀ name, name ∈ set.names ↔ schema.PulledIn (schema.defined names) name) ∧
      (∃ listed, Unfolds schema.broughtBy [] (schema.defined names) listed ∧
        set.names = listed.eraseDups) ∧
      (∀ more, set.names <+: (NameSet.empty.enterEach schema (names ++ more)).names) ∧
      ∀ name,
        ((set.enterType schema name).2.isSome = true ↔ schema.type? name = none) ∧
        (schema.type? name = none →
          set.enterType schema name = (set, some (.typeMissing name))) ∧
        ((schema.type? name).isSome = true →
          ∃ listed, Unfolds schema.broughtBy [] [name] listed ∧
            (set.enterType schema name).1.names = (set.names ++ listed).eraseDups) := by
  intro set
  have hcoherent := hbuilt.coherent
  obtain ⟨hclosed, hvisits⟩ :=
    NameSet.Closed.enterEach hcoherent names (NameSet.closed_empty schema)
  have hnodup : set.names.Nodup := hvisits.nodup List.nodup_nil
  refine ⟨fun _ => NameSet.entersTypes_iff, hnodup, ?_, hvisits.eq_eraseDups_of_nil, ?_, ?_⟩
  · intro name
    rw [Schema.pulledIn_iff]
    exact hvisits.mem_iff
  · intro more
    rw [NameSet.enterEach_append]
    exact (NameSet.Closed.enterEach hcoherent more hclosed).2.isPrefix
  · intro name
    obtain ⟨hrefused, hentered⟩ := hclosed.enterType hcoherent name
    refine ⟨⟨?_, ?_⟩, hrefused, ?_⟩
    · intro hfails
      by_contra hnone
      obtain ⟨after, henter, -⟩ := hentered (Option.isSome_iff_ne_none.mpr hnone)
      rw [henter] at hfails
      exact Bool.false_ne_true hfails
    · intro hnone
      rw [hrefused hnone]
      rfl
    · intro hdefined
      obtain ⟨after, henter, -, hvisits⟩ := hentered hdefined
      rw [henter]
      exact hvisits.eq_eraseDups hnodup fun place hplace => (hclosed place hplace).2

/-! ## A sample -/

namespace Sample

/-- A field of an input object as written. -/
def sourceInput (name type : String) : Source.InputValue :=
  ⟨position, none, name, .named type true, none, []⟩

/-- `input Left { right: Right }` and `input Right { left: Left count: Int }`, which lead back to each
other, with `union Any = User` and its member. -/
def leadingBackTypes : List (Option FileName × Source.TypeSystemDefinition) :=
  [sourceType "Query" (.object [] [sourceField "id" "Int"]),
    sourceType "Left" (.inputObject [sourceInput "right" "Right"]),
    sourceType "Right" (.inputObject [sourceInput "left" "Left", sourceInput "count" "Int"]),
    sourceType "User" (.object [] [sourceField "id" "Int"]),
    sourceType "Any" (.union ["User"])].map fun definition => (none, definition)

/-- Types to enter, of which one is missing. -/
def someTypes : List String :=
  ["Right", "Nowhere", "Any", "Left"]

end Sample

theorem Schema.entered_types_sample : ∃ schema : Schema, schema.Built ∧
    (NameSet.empty.enterEach schema Sample.someTypes).names =
      ["Right", "Left", "Int", "Any", "User"] ∧
    schema.PulledIn ["Right", "Any", "Left"] "User" ∧
    ¬ schema.PulledIn ["Right", "Any", "Left"] "Query" ∧
    (NameSet.empty.enterEach schema Sample.someTypes).enterType schema "Nowhere" =
      (NameSet.empty.enterEach schema Sample.someTypes, some (.typeMissing "Nowhere")) := by
  have hcheck : ∃ schema ∈ (Schema.ofDefinitions Sample.leadingBackTypes).toOption,
      (NameSet.empty.enterEach schema Sample.someTypes).names =
          ["Right", "Left", "Int", "Any", "User"] ∧
        schema.defined Sample.someTypes = ["Right", "Any", "Left"] ∧
        (schema.type? "Nowhere").isSome = false := by
    decide +kernel
  simp only [Sample.mem_toOption] at hcheck
  obtain ⟨schema, hschema, hset, hdefined, hnowhere⟩ := hcheck
  have hbuilt := Schema.built_of_ofDefinitions hschema
  obtain ⟨-, -, hpulled, -, -, hnext⟩ := Schema.entered_types hbuilt Sample.someTypes
  rw [hset, hdefined] at hpulled
  refine ⟨schema, hbuilt, hset, (hpulled "User").mp (by decide), ?_, ?_⟩
  · intro hquery
    exact absurd ((hpulled "Query").mpr hquery) (by decide)
  · exact (hnext "Nowhere").2.1 (Option.isNone_iff_eq_none.mp (by simpa using hnowhere))

end QueryShape
