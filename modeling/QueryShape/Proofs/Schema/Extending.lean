import QueryShape.Proofs.Schema.Loading

/-!
# Applying extensions

Extensions are applied in the order of loading, each to the type that it names. Those of different
types do not get in each other's way, and one of another kind than its type fails whenever it is
applied. So the extensions of a type can be applied to it before all others.

## What this module delivers

- `Table.insert_insert`, `Table.insert_comm`: writing into a table more than once.
- `SchemaDraft.applyExtension_eq_ok_iff`: what one extension does.
- `SchemaDraft.ExtendsFirst`: the extensions of one type first, and the others after them.
- `SchemaDraft.foldlM_applyExtension_eq_ok_iff`: applying extensions in this order.
-/

set_option autoImplicit false

namespace QueryShape

open Source (TypeExtension)

/-! ## Writing into tables -/

namespace Table

variable {α : Type} {table : Table α} {name other : String} {value value' : α}

theorem insert_insert :
    (table.insert name value).insert name value' = table.insert name value' := by
  obtain ⟨entries⟩ := table
  simp only [insert, mk.injEq]
  induction entries with
  | nil => simp only [insertEntry, if_true]
  | cons entry entries ih =>
      obtain ⟨key, old⟩ := entry
      simp only [insertEntry]
      split
      · next h => simp only [insertEntry, if_pos h]
      · next h => rw [insertEntry, if_neg h, ih]

/-- What is written under different names that are there already may be written in any order. -/
theorem insert_comm (hne : name ≠ other) (hname : name ∈ table.keys) (hother : other ∈ table.keys) :
    (table.insert name value).insert other value' =
      (table.insert other value').insert name value := by
  obtain ⟨entries⟩ := table
  simp only [insert, mk.injEq, keys] at *
  induction entries with
  | nil => exact absurd hname List.not_mem_nil
  | cons entry entries ih =>
      obtain ⟨key, old⟩ := entry
      simp only [List.map_cons, List.mem_cons] at hname hother
      simp only [insertEntry]
      by_cases hkey : key = name
      · have hkey' : key ≠ other := fun heq => hne (hkey ▸ heq)
        simp only [if_pos hkey, if_neg hkey', insertEntry]
      · by_cases hkey' : key = other
        · simp only [if_neg hkey, if_pos hkey', insertEntry]
        · simp only [if_neg hkey, if_neg hkey', insertEntry]
          rw [ih (hname.resolve_left fun heq => hkey heq.symm)
            (hother.resolve_left fun heq => hkey' heq.symm)]

/-- Writing under a name that is there does not see what is put behind. -/
theorem insert_append {others : List (String × α)} (hname : name ∈ table.keys) :
    (⟨table.entries ++ others⟩ : Table α).insert name value =
      ⟨(table.insert name value).entries ++ others⟩ := by
  obtain ⟨entries⟩ := table
  simp only [insert, keys, mk.injEq] at *
  induction entries with
  | nil => exact absurd hname List.not_mem_nil
  | cons entry entries ih =>
      obtain ⟨key, old⟩ := entry
      simp only [List.map_cons, List.mem_cons] at hname
      rw [List.cons_append, insertEntry, insertEntry]
      by_cases hkey : key = name
      · rw [if_pos hkey, if_pos hkey, List.cons_append]
      · rw [if_neg hkey, if_neg hkey, List.cons_append,
          ih (hname.resolve_left fun heq => hkey heq.symm)]

/-- Writing what is there changes nothing. -/
theorem insert_of_get? (h : table.get? name = some value) : table.insert name value = table := by
  obtain ⟨entries⟩ := table
  simp only [insert, mk.injEq, get?] at *
  induction entries with
  | nil => exact absurd h.symm (Option.some_ne_none value)
  | cons entry entries ih =>
      obtain ⟨key, old⟩ := entry
      rw [List.lookup_cons] at h
      by_cases hkey : key = name
      · rw [beq_iff_eq.mpr hkey.symm] at h
        rw [insertEntry, if_pos hkey, Option.some.inj h]
      · rw [beq_eq_false_iff_ne.mpr fun heq => hkey heq.symm] at h
        rw [insertEntry, if_neg hkey, ih h]

/-- With distinct names, writing under a name that is there changes that entry. -/
theorem insert_of_mem (hname : name ∈ table.keys) (hnodup : table.keys.Nodup) :
    table.insert name value =
      ⟨table.entries.map fun entry => if entry.1 = name then (name, value) else entry⟩ := by
  obtain ⟨entries⟩ := table
  simp only [insert, keys, mk.injEq] at *
  induction entries with
  | nil => exact absurd hname List.not_mem_nil
  | cons entry entries ih =>
      obtain ⟨key, old⟩ := entry
      simp only [List.map_cons, List.mem_cons, List.nodup_cons] at hname hnodup
      rw [insertEntry, List.map_cons]
      by_cases hkey : key = name
      · subst hkey
        have hothers : ∀ other ∈ entries,
            (if other.1 = key then (key, value) else other) = other := by
          intro other hother
          have hkeys : other.1 ∈ entries.map Prod.fst := List.mem_map_of_mem hother
          exact if_neg fun heq : other.1 = key => hnodup.1 (heq ▸ hkeys)
        rw [if_pos rfl, if_pos rfl, List.map_congr_left hothers, List.map_id']
      · rw [if_neg hkey, if_neg hkey,
          ih (hname.resolve_left fun heq => hkey heq.symm) hnodup.2]

end Table

/-! ## One extension -/

/-- An extension applies to a type of its own kind only, and leaves the kind as it is. -/
theorem NamedType.kind_extend? {file : Option FileName} {type result : NamedType}
    {extension : TypeExtension} (h : type.extend? file extension = .ok result) :
    type.kind = extension.body.kind ∧ result.kind = type.kind := by
  unfold NamedType.extend? at h
  split at h
  · next hbody =>
      cases h
      rw [hbody]
      exact ⟨rfl, rfl⟩
  · next hbody =>
      obtain ⟨table, -, h⟩ := bind_eq_ok.mp h
      cases h
      rw [hbody]
      exact ⟨rfl, rfl⟩
  · next hbody =>
      obtain ⟨fielded, -, rfl⟩ := map_eq_ok.mp h
      rw [hbody]
      exact ⟨rfl, rfl⟩
  · next hbody =>
      obtain ⟨fielded, -, rfl⟩ := map_eq_ok.mp h
      rw [hbody]
      exact ⟨rfl, rfl⟩
  · next hbody =>
      cases h
      rw [hbody]
      exact ⟨rfl, rfl⟩
  · next hbody =>
      cases h
      rw [hbody]
      exact ⟨rfl, rfl⟩
  · exact nomatch h

/-- Extensions applied to one type, whatever names they have. -/
def NamedType.extendAll (type : NamedType) (entries : List (Option FileName × TypeExtension)) :
    Except SchemaError NamedType :=
  entries.foldlM (fun type entry => type.extend? entry.1 entry.2) type

theorem NamedType.kind_extendAll (entries : List (Option FileName × TypeExtension))
    {type result : NamedType} (h : type.extendAll entries = .ok result) :
    result.kind = type.kind := by
  induction entries generalizing type with
  | nil =>
      cases h
      rfl
  | cons entry entries ih =>
      rw [extendAll, List.foldlM_cons, bind_eq_ok] at h
      obtain ⟨middle, hfirst, hrest⟩ := h
      rw [ih hrest, (kind_extend? hfirst).2]

namespace SchemaDraft

variable {types after : Table NamedType}

/-- An extension puts what it makes of the type that it names in the place of the type. -/
theorem applyExtension_eq_ok_iff {entry : Option FileName × TypeExtension} :
    applyExtension types entry = .ok after ↔
      ∃ type extended, types.get? entry.2.name = some type ∧
        type.extend? entry.1 entry.2 = .ok extended ∧
        types.insert entry.2.name extended = after := by
  rw [applyExtension]
  cases htype : types.get? entry.2.name with
  | none => simp
  | some type => simp [map_eq_ok]

/-! ## The extensions of one type -/

/-- The extensions of a type that are of its kind, as opposed to all others. -/
def isOwn (name : String) (kind : TypeKind) (entry : Option FileName × TypeExtension) : Bool :=
  entry.2.name = name ∧ entry.2.body.kind = kind

section OneType

variable {name : String} {type extended : NamedType} {entry : Option FileName × TypeExtension}

/-- An extension of the type itself. -/
theorem applyExtension_own (htype : types.get? name = some type) (hname : entry.2.name = name) :
    applyExtension types entry = .ok after ↔
      ∃ middle, type.extend? entry.1 entry.2 = .ok middle ∧ types.insert name middle = after := by
  rw [applyExtension_eq_ok_iff, hname, htype]
  simp

/-- An extension of another kind than the type fails. -/
theorem not_applyExtension (htype : types.get? name = some type) (hname : entry.2.name = name)
    (hkind : entry.2.body.kind ≠ type.kind) : applyExtension types entry ≠ .ok after := by
  intro h
  obtain ⟨middle, hmiddle, -⟩ := (applyExtension_own htype hname).mp h
  exact hkind (NamedType.kind_extend? hmiddle).1.symm

/-- An extension of another type does not see what is put in the place of the type. -/
theorem applyExtension_other (htype : types.get? name = some type) (hname : entry.2.name ≠ name) :
    applyExtension (types.insert name extended) entry = .ok after ↔
      ∃ middle, applyExtension types entry = .ok middle ∧ middle.insert name extended = after := by
  simp only [applyExtension_eq_ok_iff, Table.get?_insert, if_neg hname]
  have hcomm : ∀ {other result : NamedType}, types.get? entry.2.name = some other →
      (types.insert name extended).insert entry.2.name result =
        (types.insert entry.2.name result).insert name extended :=
    fun hother => Table.insert_comm (fun heq => hname heq.symm) (Table.mem_keys_of_get? htype)
      (Table.mem_keys_of_get? hother)
  constructor
  · rintro ⟨other, result, hother, hresult, rfl⟩
    exact ⟨_, ⟨other, result, hother, hresult, rfl⟩, (hcomm hother).symm⟩
  · rintro ⟨_, ⟨other, result, hother, hresult, rfl⟩, rfl⟩
    exact ⟨other, result, hother, hresult, hcomm hother⟩

theorem get?_of_applyExtension_other (hname : entry.2.name ≠ name)
    (h : applyExtension types entry = .ok after) : after.get? name = types.get? name := by
  obtain ⟨_, _, -, -, rfl⟩ := applyExtension_eq_ok_iff.mp h
  rw [Table.get?_insert, if_neg fun heq => hname heq.symm]

/-- Extending types by the extensions of one type first, and by all others after that. -/
def ExtendsFirst (name : String) (type : NamedType) (types : Table NamedType)
    (entries : List (Option FileName × TypeExtension)) (after : Table NamedType) : Prop :=
  ∃ extended, type.extendAll (entries.filter (isOwn name type.kind)) = .ok extended ∧
    (entries.filter (!isOwn name type.kind ·)).foldlM applyExtension
      (types.insert name extended) = .ok after

variable {entries : List (Option FileName × TypeExtension)}

/-- One of those that come first. -/
theorem extendsFirst_cons_own (hname : entry.2.name = name)
    (hkind : entry.2.body.kind = type.kind) :
    ExtendsFirst name type types (entry :: entries) after ↔
      ∃ middle, type.extend? entry.1 entry.2 = .ok middle ∧
        ExtendsFirst name middle (types.insert name middle) entries after := by
  have hown : isOwn name type.kind entry = true := by simp [isOwn, hname, hkind]
  -- The type keeps its kind, so the same extensions are its own afterwards.
  have hmiddle : ∀ {middle}, type.extend? entry.1 entry.2 = .ok middle →
      (ExtendsFirst name middle (types.insert name middle) entries after ↔
        ∃ extended, middle.extendAll (entries.filter (isOwn name type.kind)) = .ok extended ∧
          (entries.filter (!isOwn name type.kind ·)).foldlM applyExtension
            (types.insert name extended) = .ok after) := by
    intro middle h
    rw [ExtendsFirst, (NamedType.kind_extend? h).2]
    simp only [Table.insert_insert]
  simp only [ExtendsFirst, List.filter_cons, hown, Bool.not_true, Bool.false_eq_true, if_true,
    if_false, NamedType.extendAll, List.foldlM_cons, bind_eq_ok]
  constructor
  · rintro ⟨extended, ⟨middle, h, hextended⟩, hothers⟩
    exact ⟨middle, h, (hmiddle h).mpr ⟨extended, hextended, hothers⟩⟩
  · rintro ⟨middle, h, hrest⟩
    obtain ⟨extended, hextended, hothers⟩ := (hmiddle h).mp hrest
    exact ⟨extended, ⟨middle, h, hextended⟩, hothers⟩

/-- One of another kind than the type fails also when it comes last. -/
theorem not_extendsFirst_cons (hname : entry.2.name = name)
    (hkind : entry.2.body.kind ≠ type.kind) :
    ¬ ExtendsFirst name type types (entry :: entries) after := by
  rintro ⟨extended, hextended, hothers⟩
  have hown : isOwn name type.kind entry = false := by simp [isOwn, hkind]
  rw [List.filter_cons_of_pos (by simp [hown]), List.foldlM_cons, bind_eq_ok] at hothers
  obtain ⟨_, hfails, -⟩ := hothers
  have hget : (types.insert name extended).get? name = some extended := by
    rw [Table.get?_insert, if_pos rfl]
  refine not_applyExtension hget hname ?_ hfails
  rw [NamedType.kind_extendAll _ hextended]
  exact hkind

/-- One of another type may as well come before. -/
theorem extendsFirst_cons_other (htype : types.get? name = some type)
    (hname : entry.2.name ≠ name) :
    ExtendsFirst name type types (entry :: entries) after ↔
      ∃ middle, applyExtension types entry = .ok middle ∧
        ExtendsFirst name type middle entries after := by
  have hown : isOwn name type.kind entry = false := by simp [isOwn, hname]
  simp only [ExtendsFirst, List.filter_cons, hown, Bool.not_false, Bool.false_eq_true, if_true,
    if_false, List.foldlM_cons, bind_eq_ok, applyExtension_other htype hname]
  constructor
  · rintro ⟨extended, hextended, _, ⟨middle, hmiddle, rfl⟩, hothers⟩
    exact ⟨middle, hmiddle, extended, hextended, hothers⟩
  · rintro ⟨middle, hmiddle, extended, hextended, hothers⟩
    exact ⟨extended, hextended, _, ⟨middle, hmiddle, rfl⟩, hothers⟩

end OneType

/-- The extensions of a type may be applied to it before all others. -/
theorem foldlM_applyExtension_eq_ok_iff {name : String}
    (entries : List (Option FileName × TypeExtension)) {types : Table NamedType} {type : NamedType}
    (htype : types.get? name = some type) :
    entries.foldlM applyExtension types = .ok after ↔
      ExtendsFirst name type types entries after := by
  induction entries generalizing types type with
  | nil =>
      constructor
      · intro h
        exact ⟨type, rfl, by rw [Table.insert_of_get? htype]; exact h⟩
      · rintro ⟨_, hextended, h⟩
        cases hextended
        rw [Table.insert_of_get? htype] at h
        exact h
  | cons entry entries ih =>
      rw [List.foldlM_cons, bind_eq_ok]
      by_cases hname : entry.2.name = name
      · by_cases hkind : entry.2.body.kind = type.kind
        · have hget : ∀ middle, (types.insert name middle).get? name = some middle := by
            intro middle
            rw [Table.get?_insert, if_pos rfl]
          rw [extendsFirst_cons_own hname hkind]
          simp only [applyExtension_own htype hname]
          constructor
          · rintro ⟨_, ⟨middle, hmiddle, rfl⟩, hrest⟩
            exact ⟨middle, hmiddle, (ih (hget middle)).mp hrest⟩
          · rintro ⟨middle, hmiddle, hrest⟩
            exact ⟨_, ⟨middle, hmiddle, rfl⟩, (ih (hget middle)).mpr hrest⟩
        · refine iff_of_false ?_ (not_extendsFirst_cons hname hkind)
          rintro ⟨_, hfails, -⟩
          exact not_applyExtension htype hname hkind hfails
      · rw [extendsFirst_cons_other htype hname]
        exact exists_congr fun middle => and_congr_right fun hmiddle =>
          ih ((get?_of_applyExtension_other hname hmiddle).trans htype)

end SchemaDraft

end QueryShape
