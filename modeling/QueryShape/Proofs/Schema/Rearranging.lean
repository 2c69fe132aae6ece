import QueryShape.Proofs.Schema.Extending

/-!
# Rearranging definitions

The order of definitions shows in the order of types and directives, and there only: names are bound
to the same values whatever the order. Extensions have to keep their order, as each of them adds to
what those before it have made of a type.

## What this module delivers

- `Table.Rearranged`: tables that bind the same names to the same values, in any order.
- `SchemaDraft.Enterable.perm`, `SchemaDraft.rearranged_entered`: entering permuted definitions.
- `SchemaDraft.foldlM_applyExtension_rearranged`: extending rearranged types.
- `SchemaDraft.Finishes.rearranged`: what rearranged drafts are finished to.
-/

set_option autoImplicit false

namespace QueryShape

open Source (TypeSystemDefinition)

/-! ## Tables -/

namespace Table

variable {α : Type} {table table' : Table α} {value : α}

theorem nodup_keys_insert (h : table.keys.Nodup) (name : String) (value : α) :
    (table.insert name value).keys.Nodup := by
  rw [keys_insert]
  split
  · exact h
  · next hnew => exact List.concat_eq_append ▸ h.concat hnew

/-- With distinct names, what a table holds can be read from it. -/
theorem mem_values_iff (h : table.keys.Nodup) :
    value ∈ table.values ↔ ∃ name, table.get? name = some value := by
  simp only [get?_eq_some_iff_mem h, values, List.mem_map, Prod.exists, exists_eq_right]

/-- Tables that bind the same distinct names to the same values, in any order. -/
structure Rearranged (table table' : Table α) : Prop where
  nodup : table.keys.Nodup
  nodup' : table'.keys.Nodup
  get?_eq : ∀ name, table.get? name = table'.get? name

namespace Rearranged

theorem of_perm (hnodup : table.keys.Nodup) (hperm : table.entries.Perm table'.entries) :
    table.Rearranged table' := by
  -- With distinct names a lookup finds whatever entry there is, wherever it stands.
  have hnodup' : table'.keys.Nodup := (hperm.map Prod.fst).nodup_iff.mp hnodup
  refine ⟨hnodup, hnodup', fun name => Option.ext fun value => ?_⟩
  rw [get?_eq_some_iff_mem hnodup, get?_eq_some_iff_mem hnodup', hperm.mem_iff]

theorem mem_values (h : table.Rearranged table') : value ∈ table.values ↔ value ∈ table'.values := by
  rw [mem_values_iff h.nodup, mem_values_iff h.nodup']
  simp only [h.get?_eq]

theorem insert (h : table.Rearranged table') (name : String) (value : α) :
    (table.insert name value).Rearranged (table'.insert name value) where
  nodup := nodup_keys_insert h.nodup name value
  nodup' := nodup_keys_insert h.nodup' name value
  get?_eq other := by rw [get?_insert, get?_insert, h.get?_eq]

theorem kind?_eq {types types' : Table NamedType} (h : types.Rearranged types') :
    types.kind? = types'.kind? := by
  funext name
  rw [kind?, kind?, h.get?_eq]

end Rearranged

end Table

namespace SchemaDraft

/-! ## Entering -/

section Entering

variable {draft : SchemaDraft} {entries entries' : List (Origin × TypeSystemDefinition)}

theorem Fresh.perm {known names names' : List String} (h : Fresh known names)
    (hperm : names.Perm names') : Fresh known names' :=
  ⟨hperm.nodup_iff.mp h.1, fun name hname => h.2 name (hperm.mem_iff.mpr hname)⟩

/-- Whether definitions can be entered does not depend on their order. -/
theorem Enterable.perm (h : draft.Enterable entries) (hperm : entries.Perm entries') :
    draft.Enterable entries' where
  admissible entry hentry := h.admissible entry (hperm.mem_iff.mpr hentry)
  types := h.types.perm ((hperm.filterMap _).map _)
  directives := h.directives.perm ((hperm.filterMap _).map _)
  roots kind := ((hperm.filterMap _).append_left _).length_eq ▸ h.roots kind

/-- Two drafts that hold the same in any order, except for extensions. -/
structure Rearranged (draft draft' : SchemaDraft) : Prop where
  types : draft.types.Rearranged draft'.types
  directives : draft.directives.Rearranged draft'.directives
  roots : ∀ kind, draft.rootEntry? kind = draft'.rootEntry? kind
  extensions : draft.extensions = draft'.extensions

theorem eq_of_perm_of_length_le_one {α : Type} {list list' : List α} (hperm : list.Perm list')
    (hone : list.length ≤ 1) : list = list' := by
  match list, hone with
  | [], _ => exact hperm.nil_eq
  | [_], _ => exact hperm.singleton_eq

/-- Entering definitions in another order leads to a rearranged draft. -/
theorem rearranged_entered (htypes : draft.types.keys.Nodup)
    (hdirectives : draft.directives.keys.Nodup) (h : draft.Enterable entries)
    (hperm : entries.Perm entries')
    (hextensions : entries.filterMap madeExtension? = entries'.filterMap madeExtension?) :
    (draft.entered entries).Rearranged (draft.entered entries') where
  types := .of_perm (nodup_keys_types_entered htypes h)
    (((hperm.filterMap _).map _).append_left _)
  directives := .of_perm (nodup_keys_directives_entered hdirectives h)
    (((hperm.filterMap _).map _).append_left _)
  roots kind := by
    -- There is at most one, so there is nothing to be rearranged.
    rw [rootEntry?_entered, rootEntry?_entered]
    exact congrArg List.head?
      (eq_of_perm_of_length_le_one ((hperm.filterMap _).append_left _) (h.roots kind))
  extensions := congrArg (draft.extensions ++ ·) hextensions

end Entering

/-! ## Extending -/

section Finishing

variable {draft draft' : SchemaDraft} {types types' : Table NamedType}
  {directives directives' : Table DirectiveDefinition}

/-- An extension finds its type wherever that stands. -/
theorem applyExtension_rearranged (h : types.Rearranged types')
    (entry : Option FileName × Source.TypeExtension) :
    SucceedAlike Table.Rearranged (applyExtension types entry) (applyExtension types' entry) := by
  obtain ⟨file, extension⟩ := entry
  simp only [applyExtension, h.get?_eq]
  cases types'.get? extension.name with
  | none => exact .error _ _
  | some type =>
      cases hextended : type.extend? file extension with
      | error error => simpa only [hextended] using .error _ _
      | ok extended => simpa only [hextended] using .ok (h.insert extension.name extended)

theorem foldlM_applyExtension_rearranged (h : types.Rearranged types')
    (entries : List (Option FileName × Source.TypeExtension)) :
    SucceedAlike Table.Rearranged (entries.foldlM applyExtension types)
      (entries.foldlM applyExtension types') := by
  refine SucceedAlike.foldlM ?_ entries (rfl : entries.map id = entries.map id) h
  rintro state state' entry _ hstate rfl
  exact applyExtension_rearranged hstate entry

/-! ## Finishing -/

theorem rearranged_withBuiltIns (h : directives.Rearranged directives') :
    (withBuiltIns directives).Rearranged (withBuiltIns directives') := by
  rw [withBuiltIns, withBuiltIns]
  generalize DirectiveDefinition.builtIns = builtIns
  induction builtIns generalizing directives directives' with
  | nil => exact h
  | cons directive builtIns ih =>
      -- A directive of this name is there on both sides, or on neither.
      have hcontains : directives.contains directive.name = directives'.contains directive.name :=
        congrArg Option.isSome (h.get?_eq directive.name)
      refine ih ?_
      simp only [hcontains]
      split
      · exact h
      · exact h.insert directive.name directive

theorem faults_eq_nil_iff_rearranged (htypes : types.Rearranged types')
    (hdirectives : directives.Rearranged directives') :
    faults types directives = [] ↔ faults types' directives' = [] := by
  simp only [faults_eq_nil_iff, htypes.mem_values, hdirectives.mem_values, htypes.kind?_eq]

/-- A rearranged draft is finished as well. -/
theorem Finishes.rearranged {schema : Schema} (h : draft.Finishes types schema)
    (hdraft : draft.Rearranged draft') (htypes : types.Rearranged types') :
    draft'.Finishes types' ⟨types', withBuiltIns draft'.directives, schema.query, schema.mutation,
      schema.subscription, objectNames types', possibleTypes types'⟩ where
  query := (resolveRoot_congr htypes.kind?_eq
    (congrArg (Option.map RootEntry.type) (hdraft.roots .query))).mp h.query
  mutation := (resolveRoot_congr htypes.kind?_eq
    (congrArg (Option.map RootEntry.type) (hdraft.roots .mutation))).mp h.mutation
  subscription := (resolveRoot_congr htypes.kind?_eq
    (congrArg (Option.map RootEntry.type) (hdraft.roots .subscription))).mp h.subscription
  answered := (faults_eq_nil_iff_rearranged htypes
    (rearranged_withBuiltIns hdraft.directives)).mp h.answered
  schema := rfl

end Finishing

end SchemaDraft

end QueryShape
