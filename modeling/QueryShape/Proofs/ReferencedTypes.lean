import QueryShape.Proofs.DepthFirst
import QueryShape.ReferencedTypes

/-!
# What adding a type does

A type is added together with everything that it brings along, in depth-first order. Adding fails
only if a type on the way is not defined. In a set that holds, with each of its types, what that
type brings along, everything was defined that a type of the set leads to; so whether a type can be
added does not depend on what such a set holds.

## What this module delivers

- `Schema.broughtBy`, `Schema.mem_broughtBy`: what a type brings along.
- `Schema.DefinesAll`: types of which everything is defined.
- `NameSet.Closed`: sets of defined types with what they bring along.
- `NameSet.addType_gains`: what is added, and in which order.
- `NameSet.Closed.addType`: adding to a closed set.
- `NameSet.exists_addType`: when adding succeeds.
-/

set_option autoImplicit false

namespace QueryShape

variable {schema : Schema}

/-- The types that a type of the schema brings along; none if the schema lacks it. -/
def Schema.broughtBy (schema : Schema) (name : String) : List String :=
  ((schema.type? name).map NamedType.dependencies).getD []

/-- Only unions and input objects bring types along. -/
theorem Schema.mem_broughtBy {outer inner : String} : inner ∈ schema.broughtBy outer ↔
    (∃ union, schema.type? outer = some (.union union) ∧ inner ∈ union.members.names) ∨
      ∃ input, schema.type? outer = some (.inputObject input) ∧
        ∃ field ∈ input.fields.values, field.type.typeName = inner := by
  rw [Schema.broughtBy]
  cases schema.type? outer with
  | none => simp
  | some type =>
      cases type with
      | _ => simp [NamedType.dependencies]

/-- The schema defines a type and everything that it leads to. -/
def Schema.DefinesAll (schema : Schema) (name : String) : Prop :=
  ∀ other, LeadsTo schema.broughtBy name other → (schema.type? other).isSome = true

theorem Schema.DefinesAll.of_mem {name inner : String} (h : schema.DefinesAll name)
    (hinner : inner ∈ schema.broughtBy name) : schema.DefinesAll inner :=
  fun other hleads => h other (.head hinner hleads)

namespace NameSet

theorem contains_iff_mem {set : NameSet} {name : String} :
    set.contains name = true ↔ name ∈ set.names :=
  List.contains_iff_mem

theorem names_insert_of_not_mem {set : NameSet} {name : String} (h : name ∉ set.names) :
    (set.insert name).names = set.names ++ [name] := by
  rw [insert, if_neg (fun hmem => h (contains_iff_mem.mp hmem))]

/-- What adding some names has to do with a schema: they are visited in depth-first order, and
what is new is defined. -/
structure Gains (schema : Schema) (before : NameSet) (names : List String) (after : NameSet) :
    Prop where
  visits : DepthFirst schema.broughtBy before.names names after.names
  defined : ∀ name ∈ after.names, name ∈ before.names ∨ (schema.type? name).isSome = true

/-- The types of a schema that a set does not hold. -/
def lacking (schema : Schema) (set : NameSet) : Nat :=
  missing schema.types.keys set.names

/-- Names are added one after the other. With each the depth still covers what is left. -/
theorem foldlM_addTypeWithin_gains {depth : Nat}
    (hadd : ∀ (set : NameSet) (name : String) (after : NameSet), lacking schema set ≤ depth →
      addTypeWithin schema depth set name = .ok after → Gains schema set [name] after)
    (names : List String) {before after : NameSet} (hdepth : lacking schema before ≤ depth)
    (h : names.foldlM (addTypeWithin schema depth) before = .ok after) :
    Gains schema before names after := by
  induction names generalizing before with
  | nil =>
      cases h
      exact ⟨.done _, fun _ => Or.inl⟩
  | cons name names ih =>
      rw [List.foldlM_cons] at h
      obtain ⟨middle, hname, hrest⟩ := bind_eq_ok.mp h
      have hfirst := hadd before name middle hdepth hname
      have hothers := ih ((missing_le_of_isPrefix hfirst.visits.isPrefix).trans hdepth) hrest
      refine ⟨depthFirst_cons.mpr ⟨_, hfirst.visits, hothers.visits⟩, fun other hother => ?_⟩
      rcases hothers.defined other hother with hmiddle | hdefined
      · exact hfirst.defined other hmiddle
      · exact Or.inr hdefined

/-- The depth is enough if it bounds the number of types that the set does not hold. -/
theorem addTypeWithin_gains (depth : Nat) {before after : NameSet} {name : String}
    (hdepth : lacking schema before ≤ depth)
    (h : addTypeWithin schema depth before name = .ok after) :
    Gains schema before [name] after := by
  induction depth using Nat.strongRecOn generalizing before name after with
  | ind depth ih =>
      unfold addTypeWithin at h
      by_cases hknown : name ∈ before.names
      · rw [if_pos (contains_iff_mem.mpr hknown)] at h
        cases h
        exact ⟨.pass hknown (.done _), fun _ => Or.inl⟩
      · rw [if_neg (fun hmem => hknown (contains_iff_mem.mp hmem))] at h
        cases htype : schema.type? name with
        | none =>
            rw [htype] at h
            exact absurd h (by simp)
        | some type =>
            have hinsert := names_insert_of_not_mem hknown
            -- The type itself was not held, so the depth is not used up.
            have hless : lacking schema (before.insert name) < depth := by
              rw [lacking, hinsert]
              exact Nat.lt_of_lt_of_le
                (missing_concat_lt (Table.mem_keys_of_get? htype) hknown) hdepth
            cases depth with
            | zero => exact absurd hless (Nat.not_lt_zero _)
            | succ depth =>
                simp only [htype] at h
                have hinner := foldlM_addTypeWithin_gains
                  (fun _ _ _ hle hok => ih depth (Nat.lt_succ_self depth) hle hok)
                  type.dependencies (Nat.le_of_lt_succ hless) h
                have hbrought : schema.broughtBy name = type.dependencies := by
                  rw [Schema.broughtBy, htype]
                  rfl
                refine ⟨.visit hknown ?_ (.done _), fun other hother => ?_⟩
                · rw [← hinsert, hbrought]
                  exact hinner.visits
                · rcases hinner.defined other hother with hbefore | hdefined
                  · rcases (mem_insert _ _ _).mp hbefore with hold | rfl
                    · exact Or.inl hold
                    · exact Or.inr (by rw [htype]; rfl)
                  · exact Or.inr hdefined

/-- Adding a type visits it and what it leads to in depth-first order, and all that is new is
defined. -/
theorem addType_gains {before after : NameSet} {name : String}
    (h : before.addType schema name = .ok after) : Gains schema before [name] after := by
  refine addTypeWithin_gains schema.types.size ?_ h
  exact (missing_le_length _ _).trans_eq (List.length_map Prod.fst)

/-! ## Closed sets -/

/-- A set of defined types that holds, with each of them, what that type brings along. -/
def Closed (schema : Schema) (set : NameSet) : Prop :=
  ∀ name ∈ set.names, (schema.type? name).isSome = true ∧
    ∀ inner ∈ schema.broughtBy name, inner ∈ set.names

theorem closed_empty (schema : Schema) : Closed schema .empty :=
  fun _ hmem => absurd hmem List.not_mem_nil

/-- Everything that a type of a closed set leads to is in the set, and defined. -/
theorem Closed.definesAll {set : NameSet} (h : set.Closed schema) {name : String}
    (hname : name ∈ set.names) : schema.DefinesAll name := by
  intro other hleads
  have hother : other ∈ set.names := by
    induction hleads with
    | refl => exact hname
    | tail _ hstep ih => exact (h _ ih).2 _ hstep
  exact (h other hother).1

/-- A closed set stays closed, and the type that is added is defined with all that it leads to. -/
theorem Closed.addType {before after : NameSet} {name : String} (hclosed : before.Closed schema)
    (h : before.addType schema name = .ok after) :
    after.Closed schema ∧ schema.DefinesAll name := by
  have hgains := addType_gains h
  have hafter : after.Closed schema := by
    intro other hother
    refine ⟨?_, ?_⟩
    · rcases hgains.defined other hother with hbefore | hdefined
      · exact (hclosed other hbefore).1
      · exact hdefined
    · rcases hgains.visits.closed other hother with hbefore | hinner
      · exact fun inner hmem => hgains.visits.mem_of_known ((hclosed other hbefore).2 inner hmem)
      · exact hinner
  exact ⟨hafter, hafter.definesAll (hgains.visits.mem_of_mem name List.mem_cons_self)⟩

/-! ## Success -/

theorem exists_foldlM_addTypeWithin {depth : Nat}
    (hadd : ∀ (set : NameSet) (name : String), schema.DefinesAll name →
      ∃ after, addTypeWithin schema depth set name = .ok after)
    (names : List String) (hnames : ∀ name ∈ names, schema.DefinesAll name) (set : NameSet) :
    ∃ after, names.foldlM (addTypeWithin schema depth) set = .ok after := by
  induction names generalizing set with
  | nil => exact ⟨set, rfl⟩
  | cons name names ih =>
      obtain ⟨hname, hothers⟩ := List.forall_mem_cons.mp hnames
      obtain ⟨middle, hmiddle⟩ := hadd set name hname
      obtain ⟨after, hafter⟩ := ih hothers middle
      rw [List.foldlM_cons]
      exact ⟨after, bind_eq_ok.mpr ⟨middle, hmiddle, hafter⟩⟩

theorem exists_addTypeWithin (depth : Nat) (set : NameSet) (name : String)
    (h : schema.DefinesAll name) : ∃ after, addTypeWithin schema depth set name = .ok after := by
  induction depth generalizing set name with
  | zero =>
      obtain ⟨type, htype⟩ := Option.isSome_iff_exists.mp (h name .refl)
      unfold addTypeWithin
      split
      · exact ⟨set, rfl⟩
      · exact ⟨set.insert name, by rw [htype]⟩
  | succ depth ih =>
      obtain ⟨type, htype⟩ := Option.isSome_iff_exists.mp (h name .refl)
      have hinner : ∀ inner ∈ type.dependencies, schema.DefinesAll inner := by
        refine fun inner hmem => h.of_mem ?_
        rw [Schema.broughtBy, htype]
        exact hmem
      unfold addTypeWithin
      split
      · exact ⟨set, rfl⟩
      · simp only [htype]
        exact exists_foldlM_addTypeWithin ih type.dependencies hinner (set.insert name)

/-- A type that is defined with all that it leads to can be added to any set. -/
theorem exists_addType (set : NameSet) {name : String} (h : schema.DefinesAll name) :
    ∃ after, set.addType schema name = .ok after :=
  exists_addTypeWithin schema.types.size set name h

end NameSet

end QueryShape
