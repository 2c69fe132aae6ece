import QueryShape.Proofs.Schema.Finishing

/-!
# What loading comes down to

Definitions are entered one after the other, but what becomes of them does not depend on that. They
can be entered if each of them is admissible by itself, no name is defined twice and no root type
named twice; and then the draft holds what each of them makes, in order.

## What this module delivers

- `Source.TypeSystemDefinition.type?` and its siblings: what a definition defines.
- `SchemaDraft.Enterable`, `SchemaDraft.entered`: when definitions can be entered, and what the
  draft holds afterwards.
- `SchemaDraft.enterAll_eq_ok_iff`: entering definitions in these terms.
- `Schema.ofDefinitions_eq_ok_iff`: the schema that definitions make in these terms.
-/

set_option autoImplicit false

namespace QueryShape

open Source (TypeSystemDefinition TypeExtension)

/-! ## What definitions define -/

namespace Source.TypeSystemDefinition

/-- The definition of a type, if it is one. -/
def type? : TypeSystemDefinition → Option TypeDefinition
  | type definition => some definition
  | _ => none

/-- The definition of a directive, if it is one. -/
def directive? : TypeSystemDefinition → Option DirectiveDefinition
  | directive definition => some definition
  | _ => none

/-- The block of root types, if it is one. -/
def roots? : TypeSystemDefinition → Option RootBlock
  | roots block => some block
  | _ => none

/-- The extension of a type, if it is one. -/
def extension? : TypeSystemDefinition → Option TypeExtension
  | extension added => some added
  | _ => none

end Source.TypeSystemDefinition

namespace SchemaDraft

/-- A definition that can be entered as far as it alone is concerned. -/
def Admissible (entry : Origin × TypeSystemDefinition) : Prop :=
  match entry.2 with
  | .type definition => (∃ type, NamedType.ofSource entry.1 definition = .ok type) ∧
      (entry.1.builtIn = false → isReserved definition.name = false)
  | .directive definition =>
      definition.name ∉ DirectiveDefinition.builtIns.map DirectiveDefinition.name ∧
        isReserved definition.name = false
  | _ => True

/-- The type that a definition makes. -/
def madeType? (entry : Origin × TypeSystemDefinition) : Option NamedType := do
  (NamedType.ofSource entry.1 (← entry.2.type?)).toOption

/-- The directive that a definition makes. -/
def madeDirective? (entry : Origin × TypeSystemDefinition) : Option CustomDirective :=
  entry.2.directive?.map fun definition =>
    ⟨entry.1.locate definition.position, definition.description, definition.name,
      Parameter.declaredTable entry.1.file definition.parameters, definition.repeatable⟩

/-- The root type that a definition names for a kind of operation. -/
def madeRoot? (kind : OperationKind) (entry : Origin × TypeSystemDefinition) :
    Option RootEntry := do
  let block ← entry.2.roots?
  (block.root? kind).map (⟨entry.1.locate block.position, ·⟩)

/-- The extension that a definition makes. -/
def madeExtension? (entry : Origin × TypeSystemDefinition) :
    Option (Option FileName × TypeExtension) :=
  entry.2.extension?.map (entry.1.file, ·)

/-- Names that are distinct and not known yet. -/
def Fresh (known names : List String) : Prop :=
  names.Nodup ∧ ∀ name ∈ names, name ∉ known

theorem fresh_nil (known : List String) : Fresh known [] :=
  ⟨List.nodup_nil, fun _ hmem => absurd hmem List.not_mem_nil⟩

theorem Fresh.nodup_append {known names : List String} (h : Fresh known names)
    (hknown : known.Nodup) : (known ++ names).Nodup := by
  refine List.nodup_append.mpr ⟨hknown, h.1, ?_⟩
  rintro name hname _ hnew rfl
  exact h.2 name hnew hname

/-- The first names have to be fresh, and the others besides them. -/
theorem fresh_append {known names others : List String} :
    Fresh known (names ++ others) ↔ Fresh known names ∧ Fresh (known ++ names) others := by
  simp only [Fresh, List.nodup_append, List.mem_append, or_imp, forall_and, not_or]
  constructor
  · rintro ⟨⟨hnames, hothers, hdisjoint⟩, hknown, hknown'⟩
    exact ⟨⟨hnames, hknown⟩, hothers, hknown', fun name hother hname =>
      hdisjoint name hname name hother rfl⟩
  · rintro ⟨⟨hnames, hknown⟩, hothers, hknown', hdisjoint⟩
    refine ⟨⟨hnames, hothers, ?_⟩, hknown, hknown'⟩
    rintro name hname _ hother rfl
    exact hdisjoint name hother hname

/-- When definitions can be entered into a draft. -/
structure Enterable (draft : SchemaDraft) (entries : List (Origin × TypeSystemDefinition)) :
    Prop where
  admissible : ∀ entry ∈ entries, Admissible entry
  types : Fresh draft.types.keys
    ((entries.filterMap fun entry => entry.2.type?).map Source.TypeDefinition.name)
  directives : Fresh draft.directives.keys
    ((entries.filterMap fun entry => entry.2.directive?).map Source.DirectiveDefinition.name)
  roots : ∀ kind,
    (( draft.rootEntry? kind).toList ++ entries.filterMap (madeRoot? kind)).length ≤ 1

/-- The draft that also holds what definitions make. -/
def entered (draft : SchemaDraft) (entries : List (Origin × TypeSystemDefinition)) :
    SchemaDraft where
  types := ⟨draft.types.entries ++ (entries.filterMap madeType?).map fun type => (type.name, type)⟩
  directives := ⟨draft.directives.entries ++
    (entries.filterMap madeDirective?).map fun directive => (directive.name, .custom directive)⟩
  query := (draft.query.toList ++ entries.filterMap (madeRoot? .query)).head?
  mutation := (draft.mutation.toList ++ entries.filterMap (madeRoot? .mutation)).head?
  subscription := (draft.subscription.toList ++ entries.filterMap (madeRoot? .subscription)).head?
  extensions := draft.extensions ++ entries.filterMap madeExtension?

/-- Enters definitions of any origins. -/
def enterAll (draft : SchemaDraft) (entries : List (Origin × TypeSystemDefinition)) :
    Except SchemaError SchemaDraft :=
  entries.foldlM (fun draft entry => add entry.1 draft entry.2) draft

variable {draft after : SchemaDraft} {entries others : List (Origin × TypeSystemDefinition)}

theorem rootEntry?_entered (kind : OperationKind) : rootEntry? (draft.entered entries) kind =
    (( draft.rootEntry? kind).toList ++ entries.filterMap (madeRoot? kind)).head? := by
  cases kind <;> rfl

theorem head?_toList_append {α : Type} (list rest : List α) :
    (list.head?.toList ++ rest).head? = (list ++ rest).head? := by
  cases list <;> rfl

theorem entered_append : (draft.entered entries).entered others =
    draft.entered (entries ++ others) := by
  simp only [entered, List.filterMap_append, List.map_append, List.append_assoc,
    head?_toList_append]

/-- Whether definitions can be entered depends on the names in the draft only. -/
theorem enterable_congr {draft' : SchemaDraft} (htypes : draft.types.keys = draft'.types.keys)
    (hdirectives : draft.directives = draft'.directives)
    (hroots : ∀ kind, draft.rootEntry? kind = draft'.rootEntry? kind) :
    draft.Enterable entries ↔ draft'.Enterable entries := by
  constructor
  · rintro ⟨hadmissible, hnewTypes, hnewDirectives, hone⟩
    exact ⟨hadmissible, htypes ▸ hnewTypes, hdirectives ▸ hnewDirectives,
      fun kind => hroots kind ▸ hone kind⟩
  · rintro ⟨hadmissible, hnewTypes, hnewDirectives, hone⟩
    exact ⟨hadmissible, htypes ▸ hnewTypes, hdirectives ▸ hnewDirectives,
      fun kind => hroots kind ▸ hone kind⟩

/-- An admissible definition of a type makes one, under the name that is defined. -/
theorem map_name_madeType? {entry : Origin × TypeSystemDefinition} (h : Admissible entry) :
    (madeType? entry).map NamedType.name = entry.2.type?.map Source.TypeDefinition.name := by
  obtain ⟨origin, definition⟩ := entry
  cases definition with
  | type definition =>
      obtain ⟨⟨type, htype⟩, -⟩ := h
      have hmade : madeType? (origin, .type definition) = some type :=
        congrArg Except.toOption htype
      rw [hmade]
      exact congrArg some (NamedType.name_ofSource htype)
  | _ => rfl

theorem map_name_filterMap_madeType? (h : ∀ entry ∈ entries, Admissible entry) :
    (entries.filterMap madeType?).map NamedType.name =
      (entries.filterMap fun entry => entry.2.type?).map Source.TypeDefinition.name := by
  rw [List.map_filterMap, List.map_filterMap]
  exact List.filterMap_congr fun entry hentry => map_name_madeType? (h entry hentry)

theorem keys_types_entered (h : ∀ entry ∈ entries, Admissible entry) :
    (draft.entered entries).types.keys = draft.types.keys ++
      (entries.filterMap fun entry => entry.2.type?).map Source.TypeDefinition.name := by
  rw [← map_name_filterMap_madeType? h, Table.keys, entered, List.map_append, List.map_map]
  rfl

theorem keys_directives_entered : (draft.entered entries).directives.keys =
    draft.directives.keys ++
      (entries.filterMap fun entry => entry.2.directive?).map Source.DirectiveDefinition.name := by
  rw [Table.keys, entered, List.map_append, List.map_map, List.map_filterMap, List.map_filterMap]
  refine congrArg _ (List.filterMap_congr fun entry _ => ?_)
  rw [madeDirective?, Option.map_map]
  rfl

/-- The names in a draft stay distinct. -/
theorem nodup_keys_types_entered (hkeys : draft.types.keys.Nodup) (h : draft.Enterable entries) :
    (draft.entered entries).types.keys.Nodup := by
  rw [keys_types_entered h.admissible]
  exact h.types.nodup_append hkeys

theorem nodup_keys_directives_entered (hkeys : draft.directives.keys.Nodup)
    (h : draft.Enterable entries) : (draft.entered entries).directives.keys.Nodup := by
  rw [keys_directives_entered]
  exact h.directives.nodup_append hkeys

/-- Some definitions can be entered, and then others besides them. -/
theorem enterable_append : draft.Enterable (entries ++ others) ↔
    draft.Enterable entries ∧ (draft.entered entries).Enterable others := by
  have hroots : ∀ roots names more : List RootEntry,
      (roots ++ (names ++ more)).length ≤ 1 ↔ (roots ++ names).length ≤ 1 ∧
        ((roots ++ names).head?.toList ++ more).length ≤ 1 := by
    intro roots names more
    rw [← List.append_assoc]
    generalize roots ++ names = first
    cases first with
    | nil => simp
    | cons root rest => simp
  constructor
  · rintro ⟨hadmissible, htypes, hdirectives, hone⟩
    have hfirst := (List.forall_mem_append.mp hadmissible).1
    rw [List.filterMap_append, List.map_append, fresh_append] at htypes hdirectives
    refine ⟨⟨hfirst, htypes.1, hdirectives.1, fun kind => ?_⟩,
      (List.forall_mem_append.mp hadmissible).2, ?_, ?_, fun kind => ?_⟩
    · exact ((hroots _ _ _).mp (List.filterMap_append ▸ hone kind)).1
    · rw [keys_types_entered hfirst]
      exact htypes.2
    · rw [keys_directives_entered]
      exact hdirectives.2
    · rw [rootEntry?_entered]
      exact ((hroots _ _ _).mp (List.filterMap_append ▸ hone kind)).2
  · rintro ⟨⟨hfirst, htypes, hdirectives, hone⟩, hothers, htypes', hdirectives', hone'⟩
    rw [keys_types_entered hfirst] at htypes'
    rw [keys_directives_entered] at hdirectives'
    refine ⟨List.forall_mem_append.mpr ⟨hfirst, hothers⟩, ?_, ?_, fun kind => ?_⟩
    · rw [List.filterMap_append, List.map_append, fresh_append]
      exact ⟨htypes, htypes'⟩
    · rw [List.filterMap_append, List.map_append, fresh_append]
      exact ⟨hdirectives, hdirectives'⟩
    · rw [List.filterMap_append, hroots, ← rootEntry?_entered]
      exact ⟨hone kind, hone' kind⟩

/-! ## One definition -/

theorem addType_eq_ok_iff {origin : Origin} {type : NamedType} :
    draft.addType origin type = .ok after ↔
      (origin.builtIn = false → isReserved type.name = false) ∧ type.name ∉ draft.types.keys ∧
        { draft with types := ⟨draft.types.entries ++ [(type.name, type)]⟩ } = after := by
  have hreserved : (!origin.builtIn && isReserved type.name) = true ↔
      ¬ (origin.builtIn = false → isReserved type.name = false) := by
    simp
  rw [addType]
  split
  · next h => exact iff_of_false error_ne_ok fun hboth => hreserved.mp h hboth.1
  · next h =>
      rw [and_iff_right (not_not.mp fun hnot => h (hreserved.mpr hnot))]
      cases hpresent : draft.types.get? type.name with
      | none =>
          have hnew := Table.get?_eq_none_iff.mp hpresent
          rw [and_iff_right hnew, Table.insert, Table.insertEntry_of_not_mem hnew]
          exact ⟨Except.ok.inj, congrArg Except.ok⟩
      | some present =>
          exact iff_of_false error_ne_ok fun hboth => hboth.1 (Table.mem_keys_of_get? hpresent)

theorem addDirective_eq_ok_iff {origin : Origin} {definition : Source.DirectiveDefinition} :
    draft.addDirective origin definition = .ok after ↔
      (definition.name ∉ DirectiveDefinition.builtIns.map DirectiveDefinition.name ∧
        isReserved definition.name = false) ∧ definition.name ∉ draft.directives.keys ∧
        { draft with directives := ⟨draft.directives.entries ++ [(definition.name,
          .custom ⟨origin.locate definition.position, definition.description, definition.name,
            Parameter.declaredTable origin.file definition.parameters,
            definition.repeatable⟩)]⟩ } = after := by
  simp only [addDirective_eq, List.contains_iff_mem]
  split
  · next h => exact iff_of_false error_ne_ok fun hboth => hboth.1.1 h
  · next hown =>
      split
      · next h => exact iff_of_false error_ne_ok fun hboth => Bool.false_ne_true (hboth.1.2 ▸ h)
      · next hreserved =>
          rw [and_iff_right ⟨hown, Bool.eq_false_iff.mpr hreserved⟩]
          cases hpresent : draft.directives.get? definition.name with
          | none =>
              have hnew := Table.get?_eq_none_iff.mp hpresent
              rw [and_iff_right hnew, Table.insert, Table.insertEntry_of_not_mem hnew]
              exact ⟨Except.ok.inj, congrArg Except.ok⟩
          | some present =>
              exact iff_of_false error_ne_ok fun hboth => hboth.1 (Table.mem_keys_of_get? hpresent)

/-- The draft with the root type that a block names for a kind of operation, if it does. -/
def withRoot (location : Location) (block : Source.RootBlock) (draft : SchemaDraft)
    (kind : OperationKind) : SchemaDraft :=
  match block.root? kind with
  | none => draft
  | some type => draft.setRoot ⟨location, type⟩ kind

theorem rootEntry?_withRoot {location : Location} {block : Source.RootBlock}
    {kind other : OperationKind} : rootEntry? (draft.withRoot location block kind) other =
      if other = kind then
        ((block.root? kind).map (⟨location, ·⟩)).or ( draft.rootEntry? kind)
      else draft.rootEntry? other := by
  rw [withRoot]
  cases block.root? kind with
  | none =>
      by_cases hkind : other = kind
      · rw [if_pos hkind, hkind]
        rfl
      · rw [if_neg hkind]
  | some type => exact rootEntry?_setRoot draft ⟨location, type⟩ kind other

@[simp] theorem types_withRoot {location : Location} {block : Source.RootBlock}
    {kind : OperationKind} : (draft.withRoot location block kind).types = draft.types := by
  rw [withRoot]
  split
  · rfl
  · exact types_setRoot _ _ _

@[simp] theorem directives_withRoot {location : Location} {block : Source.RootBlock}
    {kind : OperationKind} :
    (draft.withRoot location block kind).directives = draft.directives := by
  rw [withRoot]
  split
  · rfl
  · exact directives_setRoot _ _ _

@[simp] theorem extensions_withRoot {location : Location} {block : Source.RootBlock}
    {kind : OperationKind} :
    (draft.withRoot location block kind).extensions = draft.extensions := by
  rw [withRoot]
  split
  · rfl
  · exact extensions_setRoot _ _ _

/-- What a block says about one kind of operation can be entered unless this was said before. -/
theorem addRoot_eq_ok_iff {location : Location} {block : Source.RootBlock} {kind : OperationKind} :
    addRoot location block draft kind = .ok after ↔
      (block.root? kind = none ∨ draft.rootEntry? kind = none) ∧
        draft.withRoot location block kind = after := by
  rw [addRoot, withRoot]
  cases block.root? kind with
  | none => simp
  | some type => cases draft.rootEntry? kind <;> simp

/-- Drafts are equal if they agree in types, directives, root types and extensions. -/
theorem eq_of_roots {draft' : SchemaDraft} (htypes : draft.types = draft'.types)
    (hdirectives : draft.directives = draft'.directives)
    (hroots : ∀ kind, draft.rootEntry? kind = draft'.rootEntry? kind)
    (hextensions : draft.extensions = draft'.extensions) : draft = draft' := by
  obtain ⟨types, directives, query, mutation, subscription, extensions⟩ := draft
  obtain ⟨types', directives', query', mutation', subscription', extensions'⟩ := draft'
  obtain rfl : query = query' := hroots .query
  obtain rfl : mutation = mutation' := hroots .mutation
  obtain rfl : subscription = subscription' := hroots .subscription
  cases htypes
  cases hdirectives
  cases hextensions
  rfl

/-- A block can be entered if none of the kinds of operations that it speaks of was spoken of. -/
theorem addRoots_eq_ok_iff {location : Location} {block : Source.RootBlock} :
    [OperationKind.query, .mutation, .subscription].foldlM (addRoot location block) draft =
        .ok after ↔
      (∀ kind, block.root? kind = none ∨ draft.rootEntry? kind = none) ∧
        [OperationKind.query, .mutation, .subscription].foldl (withRoot location block) draft =
          after := by
  simp only [List.foldlM_cons, List.foldlM_nil, bind_eq_ok, addRoot_eq_ok_iff, List.foldl_cons,
    List.foldl_nil]
  constructor
  · rintro ⟨_, ⟨hquery, rfl⟩, _, ⟨hmutation, rfl⟩, _, ⟨hsubscription, rfl⟩, hafter⟩
    refine ⟨fun kind => ?_, Except.ok.inj hafter⟩
    cases kind with
    | query => exact hquery
    | mutation => simpa [rootEntry?_withRoot] using hmutation
    | subscription => simpa [rootEntry?_withRoot] using hsubscription
  · rintro ⟨hkinds, rfl⟩
    refine ⟨_, ⟨hkinds .query, rfl⟩, _, ⟨?_, rfl⟩, _, ⟨?_, rfl⟩, rfl⟩
    · simpa [rootEntry?_withRoot] using hkinds .mutation
    · simpa [rootEntry?_withRoot] using hkinds .subscription

theorem fresh_singleton {known : List String} {name : String} :
    Fresh known [name] ↔ name ∉ known := by
  simp [Fresh]

theorem head?_toList_append_nil {α : Type} (first : Option α) :
    (first.toList ++ []).head? = first := by
  cases first <;> rfl

/-- A definition of a type enters the type. -/
theorem entered_type {origin : Origin} {definition : Source.TypeDefinition} {type : NamedType}
    (h : NamedType.ofSource origin definition = .ok type) :
    draft.entered [(origin, .type definition)] =
      { draft with types := ⟨draft.types.entries ++ [(type.name, type)]⟩ } := by
  have hmade : madeType? (origin, .type definition) = some type := congrArg Except.toOption h
  refine eq_of_roots ?_ ?_ (fun kind => ?_) (List.append_nil _)
  · rw [entered, List.filterMap_cons_some hmade]
    rfl
  · exact congrArg Table.mk (List.append_nil _)
  · rw [rootEntry?_entered]
    cases kind <;> exact head?_toList_append_nil _

theorem entered_directive {origin : Origin} {definition : Source.DirectiveDefinition} :
    draft.entered [(origin, .directive definition)] =
      { draft with directives := ⟨draft.directives.entries ++ [(definition.name,
        .custom ⟨origin.locate definition.position, definition.description, definition.name,
          Parameter.declaredTable origin.file definition.parameters,
          definition.repeatable⟩)]⟩ } := by
  refine eq_of_roots ?_ rfl (fun kind => ?_) (List.append_nil _)
  · exact congrArg Table.mk (List.append_nil _)
  · rw [rootEntry?_entered]
    cases kind <;> exact head?_toList_append_nil _

theorem entered_extension {origin : Origin} {added : TypeExtension} :
    draft.entered [(origin, .extension added)] =
      { draft with extensions := draft.extensions ++ [(origin.file, added)] } := by
  refine eq_of_roots ?_ ?_ (fun kind => ?_) rfl
  · exact congrArg Table.mk (List.append_nil _)
  · exact congrArg Table.mk (List.append_nil _)
  · rw [rootEntry?_entered]
    cases kind <;> exact head?_toList_append_nil _

theorem filterMap_madeRoot?_roots {origin : Origin} {block : Source.RootBlock}
    {kind : OperationKind} : [(origin, TypeSystemDefinition.roots block)].filterMap
      (madeRoot? kind) =
        ((block.root? kind).map (⟨origin.locate block.position, ·⟩)).toList := by
  rw [List.filterMap_cons, List.filterMap_nil]
  have hmade : madeRoot? kind (origin, .roots block) =
      (block.root? kind).map (⟨origin.locate block.position, ·⟩) := rfl
  rw [hmade]
  cases block.root? kind <;> rfl

/-- A block enters the root types that it names, where none was named before. -/
theorem entered_roots {origin : Origin} {block : Source.RootBlock}
    (h : ∀ kind, block.root? kind = none ∨ draft.rootEntry? kind = none) :
    draft.entered [(origin, .roots block)] =
      [OperationKind.query, .mutation, .subscription].foldl
        (withRoot (origin.locate block.position) block) draft := by
  refine eq_of_roots ?_ ?_ (fun kind => ?_) ?_
  · simp only [List.foldl_cons, List.foldl_nil, types_withRoot]
    exact congrArg Table.mk (List.append_nil _)
  · simp only [List.foldl_cons, List.foldl_nil, directives_withRoot]
    exact congrArg Table.mk (List.append_nil _)
  · have hentered : rootEntry? (draft.entered [(origin, .roots block)]) kind =
        ((block.root? kind).map (⟨origin.locate block.position, ·⟩)).or
          ( draft.rootEntry? kind) := by
      rw [rootEntry?_entered, filterMap_madeRoot?_roots]
      rcases h kind with hnone | hnone
      · rw [hnone]
        exact head?_toList_append_nil _
      · rw [hnone, Option.or_none]
        cases block.root? kind <;> rfl
    rw [hentered]
    cases kind <;> simp [rootEntry?_withRoot]
  · simp only [List.foldl_cons, List.foldl_nil, extensions_withRoot]
    exact List.append_nil _

theorem length_toList_append_nil_le {α : Type} (first : Option α) :
    (first.toList ++ []).length ≤ 1 := by
  cases first <;> simp

theorem enterable_type {origin : Origin} {definition : Source.TypeDefinition} :
    draft.Enterable [(origin, .type definition)] ↔
      Admissible (origin, .type definition) ∧ definition.name ∉ draft.types.keys := by
  constructor
  · rintro ⟨hadmissible, hfresh, -, -⟩
    exact ⟨List.forall_mem_singleton.mp hadmissible, fresh_singleton.mp hfresh⟩
  · rintro ⟨hadmissible, hnew⟩
    exact ⟨List.forall_mem_singleton.mpr hadmissible, fresh_singleton.mpr hnew, fresh_nil _,
      fun _ => length_toList_append_nil_le _⟩

theorem enterable_directive {origin : Origin} {definition : Source.DirectiveDefinition} :
    draft.Enterable [(origin, .directive definition)] ↔
      Admissible (origin, .directive definition) ∧ definition.name ∉ draft.directives.keys := by
  constructor
  · rintro ⟨hadmissible, -, hfresh, -⟩
    exact ⟨List.forall_mem_singleton.mp hadmissible, fresh_singleton.mp hfresh⟩
  · rintro ⟨hadmissible, hnew⟩
    exact ⟨List.forall_mem_singleton.mpr hadmissible, fresh_nil _, fresh_singleton.mpr hnew,
      fun _ => length_toList_append_nil_le _⟩

theorem enterable_extension {origin : Origin} {added : TypeExtension} :
    draft.Enterable [(origin, .extension added)] where
  admissible := List.forall_mem_singleton.mpr trivial
  types := fresh_nil _
  directives := fresh_nil _
  roots _ := length_toList_append_nil_le _

theorem enterable_roots {origin : Origin} {block : Source.RootBlock} :
    draft.Enterable [(origin, .roots block)] ↔
      ∀ kind, block.root? kind = none ∨ draft.rootEntry? kind = none := by
  have hone : ∀ kind, (( draft.rootEntry? kind).toList ++
      [(origin, TypeSystemDefinition.roots block)].filterMap (madeRoot? kind)).length ≤ 1 ↔
        block.root? kind = none ∨ draft.rootEntry? kind = none := by
    intro kind
    rw [filterMap_madeRoot?_roots]
    cases block.root? kind <;> cases draft.rootEntry? kind <;> simp
  constructor
  · intro h kind
    exact (hone kind).mp (h.roots kind)
  · intro hkinds
    exact ⟨List.forall_mem_singleton.mpr trivial, fresh_nil _, fresh_nil _,
      fun kind => (hone kind).mpr (hkinds kind)⟩

/-- A definition can be entered exactly if it alone can be. -/
theorem add_eq_ok_iff {entry : Origin × TypeSystemDefinition} :
    add entry.1 draft entry.2 = .ok after ↔
      draft.Enterable [entry] ∧ draft.entered [entry] = after := by
  obtain ⟨origin, definition⟩ := entry
  cases definition with
  | roots block =>
      rw [add, addRoots_eq_ok_iff, enterable_roots]
      exact and_congr_right fun hkinds => by rw [entered_roots hkinds]
  | type definition =>
      rw [add, bind_eq_ok, enterable_type]
      simp only [addType_eq_ok_iff]
      constructor
      · rintro ⟨type, htype, hreserved, hnew, rfl⟩
        rw [NamedType.name_ofSource htype] at hreserved hnew
        exact ⟨⟨⟨⟨type, htype⟩, hreserved⟩, hnew⟩, entered_type htype⟩
      · rintro ⟨⟨⟨⟨type, htype⟩, hreserved⟩, hnew⟩, rfl⟩
        rw [← NamedType.name_ofSource htype] at hreserved hnew
        exact ⟨type, htype, hreserved, hnew, (entered_type htype).symm⟩
  | extension added =>
      rw [and_iff_right enterable_extension, entered_extension]
      exact ⟨Except.ok.inj, congrArg Except.ok⟩
  | directive definition =>
      rw [add, addDirective_eq_ok_iff, enterable_directive, entered_directive,
        and_assoc (a := Admissible _)]
      exact Iff.rfl

/-! ## All definitions -/

theorem enterable_nil : draft.Enterable [] where
  admissible _ hmem := absurd hmem List.not_mem_nil
  types := fresh_nil _
  directives := fresh_nil _
  roots kind := by
    cases draft.rootEntry? kind <;> simp

theorem entered_nil : draft.entered [] = draft := by
  refine eq_of_roots ?_ ?_ (fun kind => ?_) (List.append_nil _)
  · exact congrArg Table.mk (List.append_nil _)
  · exact congrArg Table.mk (List.append_nil _)
  · rw [rootEntry?_entered]
    exact head?_toList_append_nil _

/-- Definitions can be entered one after the other if they can be entered together. -/
theorem enterAll_eq_ok_iff : draft.enterAll entries = .ok after ↔
    draft.Enterable entries ∧ draft.entered entries = after := by
  induction entries generalizing draft with
  | nil =>
      rw [and_iff_right enterable_nil, entered_nil]
      exact ⟨Except.ok.inj, congrArg Except.ok⟩
  | cons entry entries ih =>
      -- The first definition is entered alone, and the others into what results.
      rw [enterAll, List.foldlM_cons, bind_eq_ok, ← List.singleton_append, enterable_append,
        ← entered_append]
      constructor
      · rintro ⟨middle, hfirst, hrest⟩
        obtain ⟨hone, rfl⟩ := add_eq_ok_iff.mp hfirst
        obtain ⟨hothers, rfl⟩ := ih.mp hrest
        exact ⟨⟨hone, hothers⟩, rfl⟩
      · rintro ⟨⟨hone, hothers⟩, rfl⟩
        exact ⟨_, add_eq_ok_iff.mpr ⟨hone, rfl⟩, ih.mpr ⟨hothers, rfl⟩⟩

/-- Definitions that are given, with their origins. -/
def givenEntries (definitions : List (Option FileName × TypeSystemDefinition)) :
    List (Origin × TypeSystemDefinition) :=
  definitions.map fun entry => (⟨entry.1, false⟩, entry.2)

/-- The definitions of the introspection types, with their origins. -/
def introspectionEntries : List (Origin × TypeSystemDefinition) :=
  Introspection.definitions.map (⟨none, true⟩, ·)

theorem introspectionEntries_extensions :
    introspectionEntries.filterMap madeExtension? = [] := by
  rw [introspectionEntries, Introspection.definitions, List.map_map, List.filterMap_map,
    List.filterMap_eq_nil_iff]
  exact fun _ _ => rfl

end SchemaDraft

/-- Definitions make a schema if they can be entered besides the introspection types, the extensions
can be applied, and the draft can be finished. -/
theorem Schema.ofDefinitions_eq_ok_iff
    {definitions : List (Option FileName × TypeSystemDefinition)} {schema : Schema} :
    Schema.ofDefinitions definitions = .ok schema ↔ ∃ loaded types,
      (SchemaDraft.empty.Enterable
          (SchemaDraft.givenEntries definitions ++ SchemaDraft.introspectionEntries) ∧
        SchemaDraft.empty.entered
          (SchemaDraft.givenEntries definitions ++ SchemaDraft.introspectionEntries) = loaded) ∧
        loaded.extensions.foldlM SchemaDraft.applyExtension loaded.types = .ok types ∧
        loaded.Finishes types schema := by
  have hgiven : ∀ draft : SchemaDraft, definitions.foldlM
      (fun draft entry => SchemaDraft.add ⟨entry.1, false⟩ draft entry.2) draft =
        draft.enterAll (SchemaDraft.givenEntries definitions) := by
    intro draft
    rw [SchemaDraft.enterAll, SchemaDraft.givenEntries, List.foldlM_map]
  have hown : ∀ draft : SchemaDraft, draft.addAll ⟨none, true⟩ Introspection.definitions =
      draft.enterAll SchemaDraft.introspectionEntries := by
    intro draft
    rw [SchemaDraft.enterAll, SchemaDraft.introspectionEntries, List.foldlM_map]
    rfl
  rw [Schema.ofDefinitions, bind_eq_ok, SchemaDraft.enterable_append, ← SchemaDraft.entered_append]
  simp only [hgiven, SchemaDraft.build_eq_ok_iff, hown, SchemaDraft.enterAll_eq_ok_iff]
  constructor
  · rintro ⟨_, ⟨hfirst, rfl⟩, _, types, ⟨hothers, rfl⟩, htypes, hfinishes⟩
    exact ⟨_, types, ⟨⟨hfirst, hothers⟩, rfl⟩, htypes, hfinishes⟩
  · rintro ⟨_, types, ⟨⟨hfirst, hothers⟩, rfl⟩, htypes, hfinishes⟩
    exact ⟨_, ⟨hfirst, rfl⟩, _, types, ⟨hothers, rfl⟩, htypes, hfinishes⟩

end QueryShape
