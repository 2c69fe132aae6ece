/-!
# Tables and name sets in order of first insertion

The order in which names are declared can be observed: listings follow it, and so
does the order in which a document is checked. A `Table` is therefore a list of
entries. Writing a name that is already present replaces the value and leaves the
entry in its old place.

## What this module delivers

- `Table`: names with values in order of first insertion, with `get?`,
  `contains`, `insert`, `erase`, and the views `keys`, `values`, `entries`.
- `insertSorted`: writes into a list that is kept in the order of its names.
- `NameSet`: names in order of first insertion.
- Equality of both that ignores the order (`BEq`): two tables agree when they
  bind the same names to equal values.
- The small laws that say what each operation does to `get?`.
-/

set_option autoImplicit false

namespace QueryShape

/-- Names bound to values, in order of first insertion. -/
structure Table (α : Type) where
  entries : List (String × α)
deriving Repr, DecidableEq

namespace Table

variable {α β : Type}

/-- The table without entries. -/
def empty : Table α := ⟨[]⟩

instance : Inhabited (Table α) := ⟨empty⟩

/-- The value bound to a name. -/
def get? (table : Table α) (name : String) : Option α :=
  table.entries.lookup name

/-- Whether a name is bound. -/
def contains (table : Table α) (name : String) : Bool :=
  (table.get? name).isSome

/-- Writes one entry into a list of entries: in place when the name is there,
otherwise at the end. -/
def insertEntry (name : String) (value : α) : List (String × α) → List (String × α)
  | [] => [(name, value)]
  | (key, old) :: rest =>
      if key = name then (key, value) :: rest else (key, old) :: insertEntry name value rest

/-- Binds a name. A name that is bound already keeps its place. -/
def insert (table : Table α) (name : String) (value : α) : Table α :=
  ⟨insertEntry name value table.entries⟩

/-- Removes a name and keeps the order of the rest. -/
def erase (table : Table α) (name : String) : Table α :=
  ⟨table.entries.filter (fun entry => entry.1 != name)⟩

/-- The table that results from writing the entries one after the other. -/
def ofEntries (entries : List (String × α)) : Table α :=
  entries.foldl (fun table entry => table.insert entry.1 entry.2) empty

/-- The bound names, in order. -/
def keys (table : Table α) : List String :=
  table.entries.map Prod.fst

/-- The bound values, in order. -/
def values (table : Table α) : List α :=
  table.entries.map Prod.snd

/-- The number of bound names. -/
def size (table : Table α) : Nat :=
  table.entries.length

/-- Whether nothing is bound. -/
def isEmpty (table : Table α) : Bool :=
  table.entries.isEmpty

/-- Agreement without regard to order: equally many entries, and each entry of
the first table is bound to an equal value in the second. -/
def agrees [BEq α] (left right : Table α) : Bool :=
  left.size == right.size &&
    left.entries.all (fun entry => right.get? entry.1 == some entry.2)

instance [BEq α] : BEq (Table α) := ⟨agrees⟩

/-! ## Laws -/

@[simp] theorem get?_empty (name : String) : (empty : Table α).get? name = none := rfl

theorem lookup_insertEntry (name other : String) (value : α) (entries : List (String × α)) :
    (insertEntry name value entries).lookup other =
      if other = name then some value else entries.lookup other := by
  induction entries with
  | nil =>
      by_cases h : other = name
      · simp [insertEntry, h]
      · simp [insertEntry, List.lookup_cons, h, beq_false_of_ne h]
  | cons entry rest ih =>
      obtain ⟨key, old⟩ := entry
      by_cases hkey : key = name
      · subst hkey
        by_cases h : other = key
        · simp [insertEntry, h]
        · simp [insertEntry, List.lookup_cons, h, beq_false_of_ne h]
      · by_cases h : other = key
        · subst h
          simp [insertEntry, hkey]
        · simp [insertEntry, List.lookup_cons, hkey, beq_false_of_ne h, ih]

/-- Reading after writing. -/
theorem get?_insert (table : Table α) (name other : String) (value : α) :
    (table.insert name value).get? other =
      if other = name then some value else table.get? other :=
  lookup_insertEntry name other value table.entries

/-- What a name is bound to is one of the bound values. -/
theorem mem_values_of_get? {table : Table α} {name : String} {value : α}
    (h : table.get? name = some value) : value ∈ table.values := by
  obtain ⟨before, after, hentries, -⟩ := List.lookup_eq_some_iff.mp h
  rw [values, hentries, List.map_append, List.map_cons]
  exact List.mem_append_right _ List.mem_cons_self

/-- A name that is bound to something is one of the bound names. -/
theorem mem_keys_of_get? {table : Table α} {name : String} {value : α}
    (h : table.get? name = some value) : name ∈ table.keys := by
  obtain ⟨before, after, hentries, -⟩ := List.lookup_eq_some_iff.mp h
  rw [keys, hentries, List.map_append, List.map_cons]
  exact List.mem_append_right _ List.mem_cons_self

theorem map_fst_insertEntry (name : String) (value : α) (entries : List (String × α)) :
    (insertEntry name value entries).map Prod.fst =
      if name ∈ entries.map Prod.fst then entries.map Prod.fst
      else entries.map Prod.fst ++ [name] := by
  induction entries with
  | nil => simp [insertEntry]
  | cons entry rest ih =>
      obtain ⟨key, old⟩ := entry
      by_cases hkey : key = name
      · subst hkey
        simp [insertEntry]
      · by_cases hmem : name ∈ rest.map Prod.fst
        · simp [insertEntry, hkey, ih, List.mem_cons, hmem]
        · have hne : ¬ name = key := fun h => hkey h.symm
          simp only [insertEntry, if_neg hkey, List.map_cons, ih, if_neg hmem,
            List.mem_cons, hne, false_or, List.cons_append]

/-- Nothing is bound to a name that is not one of the bound names. -/
theorem get?_eq_none_iff {table : Table α} {name : String} :
    table.get? name = none ↔ name ∉ table.keys := by
  rw [get?, List.lookup_eq_none_iff, keys, List.mem_map]
  constructor
  · rintro hnone ⟨entry, hentry, rfl⟩
    exact absurd (hnone entry hentry) (by simp)
  · intro hnew entry hentry
    exact bne_iff_ne.mpr fun heq => hnew ⟨entry, hentry, heq.symm⟩

/-- Where every name is bound once, the entries say what the names are bound to. -/
theorem get?_eq_some_iff_mem {table : Table α} {name : String} {value : α}
    (hnodup : table.keys.Nodup) :
    table.get? name = some value ↔ (name, value) ∈ table.entries := by
  obtain ⟨entries⟩ := table
  simp only [get?, keys] at *
  induction entries with
  | nil => simp
  | cons entry entries ih =>
      obtain ⟨key, old⟩ := entry
      simp only [List.map_cons, List.nodup_cons] at hnodup
      rw [List.lookup_cons, List.mem_cons, Prod.mk.injEq]
      by_cases hkey : name = key
      · subst hkey
        have hnew : (name, value) ∉ entries :=
          fun hmem => hnodup.1 (List.mem_map_of_mem (f := Prod.fst) hmem)
        simp [hnew, eq_comm]
      · simp [beq_false_of_ne hkey, hkey, ih hnodup.2]

theorem insertEntry_of_not_mem {name : String} {value : α} {entries : List (String × α)}
    (h : name ∉ entries.map Prod.fst) :
    insertEntry name value entries = entries ++ [(name, value)] := by
  induction entries with
  | nil => rfl
  | cons entry rest ih =>
      rw [List.map_cons, List.mem_cons, not_or] at h
      rw [insertEntry, if_neg fun heq => h.1 heq.symm, ih h.2, List.cons_append]

/-- A name that is bound already keeps its place; a new one goes to the end. -/
theorem keys_insert (table : Table α) (name : String) (value : α) :
    (table.insert name value).keys =
      if name ∈ table.keys then table.keys else table.keys ++ [name] :=
  map_fst_insertEntry name value table.entries

end Table

/-! ## Lists in the order of their names -/

/-- Writes an entry into a list that is kept in the order of its names; an entry
with the same name is replaced. -/
def insertSorted {α : Type} (name : String) (value : α) : List (String × α) → List (String × α)
  | [] => [(name, value)]
  | (other, old) :: rest =>
      if name < other then (name, value) :: (other, old) :: rest
      else if name = other then (name, value) :: rest
      else (other, old) :: insertSorted name value rest

/-! ## Name sets -/

/-- Names in order of first insertion, each once. -/
structure NameSet where
  names : List String
deriving Repr, DecidableEq

namespace NameSet

/-- The set without names. -/
def empty : NameSet := ⟨[]⟩

instance : Inhabited NameSet := ⟨empty⟩

/-- Whether a name is in the set. -/
def contains (set : NameSet) (name : String) : Bool :=
  set.names.contains name

/-- Adds a name at the end, unless it is there already. -/
def insert (set : NameSet) (name : String) : NameSet :=
  if set.contains name then set else ⟨set.names ++ [name]⟩

/-- Adds several names, one after the other. -/
def insertAll (set : NameSet) (names : List String) : NameSet :=
  names.foldl insert set

/-- The set of the names of a list. -/
def ofList (names : List String) : NameSet :=
  empty.insertAll names

/-- The number of names. -/
def size (set : NameSet) : Nat :=
  set.names.length

/-- Agreement without regard to order. -/
def agrees (left right : NameSet) : Bool :=
  left.size == right.size && left.names.all right.contains

instance : BEq NameSet := ⟨agrees⟩

/-- What adding a name does to membership. -/
theorem mem_insert (set : NameSet) (name other : String) :
    other ∈ (set.insert name).names ↔ other ∈ set.names ∨ other = name := by
  unfold insert contains
  by_cases h : name ∈ set.names
  · simp only [List.contains_iff_mem, h, if_true]
    exact ⟨Or.inl, fun hm => hm.elim id (fun he => he ▸ h)⟩
  · simp [h]

theorem forall_mem_insert {set : NameSet} {name : String} {holds : String → Prop} :
    (∀ other ∈ (set.insert name).names, holds other) ↔
      (∀ other ∈ set.names, holds other) ∧ holds name := by
  simp only [mem_insert, or_imp, forall_and, forall_eq]

end NameSet

end QueryShape
