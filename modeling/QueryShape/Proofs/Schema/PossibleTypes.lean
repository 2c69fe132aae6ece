import QueryShape.Proofs.Schema.Rearranging
import Mathlib.Data.Finset.Dedup

/-!
# Possible types by name

A set of possible types holds numbers of object types, and these follow the order of definitions.
Read as names, the set says which object types a composite type stands for: an object for itself, an
interface for those that list it, a union for its members. That depends on the types alone.

## What this module delivers

- `PossibleTypes.mem_ofIds`: the members of a set that is made from numbers.
- `NamedType.admits?`: which object types a type stands for.
- `SchemaDraft.get?_possibleTypes`: the set that is found under a name.
- `Schema.possibleObjects?`: the names of the possible types of a composite type.
- `SchemaDraft.Finishes.possibleObjects?_eq`: these names in a finished schema.
-/

set_option autoImplicit false

namespace QueryShape

/-! ## Sets from numbers -/

namespace PossibleTypes

variable {set : PossibleTypes} {id other : ObjectId}

theorem mem_single : id ∈ single other ↔ id = other := by
  show (Nat.pow 2 other).testBit id = true ↔ _
  rw [Nat.pow_eq, Nat.testBit_two_pow, decide_eq_true_iff, eq_comm]

theorem mem_insert : id ∈ set.insert other ↔ id ∈ set ∨ id = other := by
  rw [insert, mem_union, mem_single]

theorem mem_ofIds {capacity : Nat} {ids : List ObjectId} : id ∈ ofIds capacity ids ↔ id ∈ ids := by
  have hfold : ∀ (ids : List ObjectId) (set : PossibleTypes),
      id ∈ ids.foldl insert set ↔ id ∈ set ∨ id ∈ ids := by
    intro ids
    induction ids with
    | nil => simp
    | cons first ids ih =>
        intro set
        rw [List.foldl_cons, ih, mem_insert, List.mem_cons, or_assoc]
  rw [ofIds, hfold]
  exact or_iff_right (not_mem_empty capacity)

end PossibleTypes

/-! ## Tables from entries -/

namespace Table

variable {α : Type}

theorem foldl_insert (entries : List (String × α)) (table : Table α)
    (h : ((table.entries ++ entries).map Prod.fst).Nodup) :
    entries.foldl (fun table entry => table.insert entry.1 entry.2) table =
      ⟨table.entries ++ entries⟩ := by
  induction entries generalizing table with
  | nil => rw [List.foldl_nil, List.append_nil]
  | cons entry entries ih =>
      have hnew : entry.1 ∉ table.entries.map Prod.fst := by
        intro hmem
        rw [List.map_append, List.map_cons] at h
        exact (List.nodup_append.mp h).2.2 _ hmem _ List.mem_cons_self rfl
      have hentry : table.insert entry.1 entry.2 = ⟨table.entries ++ [entry]⟩ :=
        congrArg Table.mk (insertEntry_of_not_mem hnew)
      rw [List.foldl_cons, hentry, ih]
      · rw [List.append_assoc, List.singleton_append]
      · rw [List.append_assoc, List.singleton_append]
        exact h

/-- Entries with distinct names are the entries of their table. -/
theorem ofEntries_of_nodup {entries : List (String × α)} (h : (entries.map Prod.fst).Nodup) :
    ofEntries entries = ⟨entries⟩ :=
  foldl_insert entries empty h

end Table

/-! ## Sets of a schema -/

/-- Which object types a composite type stands for: an object for itself, an interface for those
that list it, a union for its members. -/
def NamedType.admits? : NamedType → Option (FieldedType → Bool)
  | .object type => some fun object => object.name == type.name
  | .interface type => some fun object => object.interfaces.contains type.name
  | .union type => some fun object => type.members.contains object.name
  | _ => none

namespace SchemaDraft

/-- The object types, in the order of definitions. -/
def objectTypes (types : Table NamedType) : List FieldedType :=
  types.values.filterMap NamedType.object?

variable {types types' : Table NamedType}

theorem objectNames_eq : objectNames types = (objectTypes types).map FieldedType.name := by
  rw [objectNames, objectTypes, List.map_filterMap]

theorem possibleTypesOf_eq {type : NamedType} : possibleTypesOf types type =
    type.admits?.map fun test => .ofIds (objectNames types).length (idsWhere types test) := by
  cases type <;> rfl

theorem mem_idsWhere {test : FieldedType → Bool} {id : ObjectId} : id ∈ idsWhere types test ↔
    ∃ object, (objectTypes types)[id]? = some object ∧ test object = true := by
  simp only [idsWhere, objectTypes, List.mem_map, List.mem_filter, Prod.exists,
    List.mk_mem_zipIdx_iff_getElem?, exists_eq_right]

/-- Types are bound to their own names, so their names are the keys. -/
theorem map_name_values (hnamed : NamesTypes types) (hnodup : types.keys.Nodup) :
    types.values.map NamedType.name = types.keys := by
  rw [Table.values, Table.keys, List.map_map]
  refine List.map_congr_left fun entry hentry => ?_
  exact hnamed _ _ ((Table.get?_eq_some_iff_mem hnodup).mpr hentry)

/-- Under a name stand the possible types of the type that is bound to it. -/
theorem get?_possibleTypes (hnamed : NamesTypes types) (hnodup : types.keys.Nodup)
    (name : String) :
    (possibleTypes types).get? name = (types.get? name).bind (possibleTypesOf types) := by
  -- No name gets two sets, so the table is made of the entries as they are.
  have hkeys : ((types.values.filterMap fun type =>
      (possibleTypesOf types type).map fun set => (type.name, set)).map Prod.fst).Nodup := by
    have hnames : (types.values.map NamedType.name).Nodup :=
      (map_name_values hnamed hnodup).symm ▸ hnodup
    rw [List.map_filterMap, List.Nodup, List.pairwise_filterMap]
    refine (List.pairwise_map.mp hnames).imp ?_
    intro type type' hne key hkey key' hkey'
    simp only [Option.map_map, Option.map_eq_some_iff, Function.comp_apply,
      exists_and_right] at hkey hkey'
    exact hkey.2 ▸ hkey'.2 ▸ hne
  refine Option.ext fun set => ?_
  rw [possibleTypes, Table.ofEntries_of_nodup hkeys, Table.get?_eq_some_iff_mem hkeys,
    List.mem_filterMap, Option.bind_eq_some_iff]
  constructor
  · rintro ⟨type, htype, hset⟩
    obtain ⟨_, hset, hentry⟩ := Option.map_eq_some_iff.mp hset
    cases hentry
    obtain ⟨key, hkey⟩ := (Table.mem_values_iff hnodup).mp htype
    obtain rfl := hnamed key type hkey
    exact ⟨type, hkey, hset⟩
  · rintro ⟨type, htype, hset⟩
    refine ⟨type, Table.mem_values_of_get? htype, ?_⟩
    rw [hset, Option.map_some, hnamed name type htype]

end SchemaDraft

/-! ## Names -/

/-- The names of the object types that a composite type stands for; `none` for names that are not
those of composite types. -/
def Schema.possibleObjects? (schema : Schema) (name : String) : Option (Finset String) :=
  (schema.possibleTypes? name).map fun set => (schema.possibleNames set).toFinset

namespace SchemaDraft

variable {types types' : Table NamedType} {schema : Schema}

theorem mem_possibleNames (hobjects : schema.objects = objectNames types) {capacity : Nat}
    {test : FieldedType → Bool} {name : String} :
    name ∈ schema.possibleNames (.ofIds capacity (idsWhere types test)) ↔
      name ∈ ((objectTypes types).filter test).map FieldedType.name := by
  -- A number names the object type that stands at its place.
  have hname : ∀ id, schema.objectName? id =
      ((objectTypes types)[id]?).map FieldedType.name := by
    intro id
    rw [Schema.objectName?, hobjects, objectNames_eq, List.getElem?_map]
  simp only [Schema.possibleNames, List.mem_filterMap, PossibleTypes.mem_ids, hname,
    Option.map_eq_some_iff, List.mem_map, List.mem_filter]
  constructor
  · rintro ⟨id, hid, object, hobject, rfl⟩
    obtain ⟨_, hother, htest⟩ := mem_idsWhere.mp (PossibleTypes.mem_ofIds.mp hid)
    obtain rfl := Option.some.inj (hobject.symm.trans hother)
    exact ⟨object, ⟨List.mem_of_getElem? hobject, htest⟩, rfl⟩
  · rintro ⟨object, ⟨hmem, htest⟩, rfl⟩
    obtain ⟨id, hobject⟩ := List.mem_iff_getElem?.mp hmem
    exact ⟨id, PossibleTypes.mem_ofIds.mpr (mem_idsWhere.mpr ⟨object, hobject, htest⟩), object,
      hobject, rfl⟩

/-- The names in a finished schema are those of the object types for which its type stands. -/
theorem Finishes.possibleObjects?_eq {draft : SchemaDraft} (h : draft.Finishes types schema)
    (hnamed : NamesTypes types) (hnodup : types.keys.Nodup) (name : String) :
    schema.possibleObjects? name = (types.get? name).bind fun type => type.admits?.map fun test =>
      (((objectTypes types).filter test).map FieldedType.name).toFinset := by
  have hpossible : schema.possible = possibleTypes types := by rw [h.schema]
  have hobjects : schema.objects = objectNames types := by rw [h.schema]
  rw [Schema.possibleObjects?, Schema.possibleTypes?, hpossible, get?_possibleTypes hnamed hnodup,
    Option.map_bind]
  refine congrArg (Option.bind _) (funext fun type => ?_)
  rw [Function.comp_apply, possibleTypesOf_eq, Option.map_map]
  refine congrArg (Option.map · _) (funext fun test => Finset.ext fun object => ?_)
  rw [Function.comp_apply, List.mem_toFinset, List.mem_toFinset, mem_possibleNames hobjects]

/-- Rearranged types make the same possible types, as far as names go. -/
theorem Finishes.possibleObjects?_congr {draft draft' : SchemaDraft} {schema' : Schema}
    (h : draft.Finishes types schema) (h' : draft'.Finishes types' schema')
    (hnamed : NamesTypes types) (htypes : types.Rearranged types') (name : String) :
    schema.possibleObjects? name = schema'.possibleObjects? name := by
  have hnamed' : NamesTypes types' := fun name type htype =>
    hnamed name type ((htypes.get?_eq name).trans htype)
  -- The object types are the same in another order, and names do not show the order.
  have hobjects : ∀ object, object ∈ objectTypes types ↔ object ∈ objectTypes types' := by
    intro object
    simp only [objectTypes, List.mem_filterMap, htypes.mem_values]
  rw [h.possibleObjects?_eq hnamed htypes.nodup, h'.possibleObjects?_eq hnamed' htypes.nodup',
    htypes.get?_eq]
  refine congrArg (Option.bind _) (funext fun type => ?_)
  refine congrArg (Option.map · _) (funext fun test => Finset.ext fun object => ?_)
  simp only [List.mem_toFinset, List.mem_map, List.mem_filter, hobjects]

end SchemaDraft

end QueryShape
