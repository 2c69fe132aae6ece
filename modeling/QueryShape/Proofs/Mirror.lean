import QueryShape.Proofs.Abridgement
import QueryShape.Proofs.CollectFields
import QueryShape.Proofs.Executable.SelectionSets

/-!
# Compiled selections mirror the collected fields

Compiling leaves out a spread that was spread before on the way, and collecting passes over a
fragment that was visited before anywhere. Neither loses a field: what is left out was listed
before. So the items that compiled selections list for an object type and the fields that are
collected from the selections as written agree, each in the order of first occurrence.

## What this module delivers

- `itemsFor`: the items that selections list for an object type.
- `Mirrors`: an item is the compiled form of a collected field.
- `Covered`, `Tracks`: a fragment whose items are listed; the visited fragments are covered,
  but for those that are still being gone through.
- `InStep`, `KeepsStep`: what holds in between, and a stretch of selections that keeps it, with
  one lemma for each kind of selection.
- `Compiles.collects`: collecting goes along with compiled selections.
- `Follows.collects`: the same for the joined selections of several fields.
-/

set_option autoImplicit false

namespace QueryShape

/-! ## Items -/

/-- The items that selections list for an object type. -/
def itemsFor (table : FragmentTable) (type : ObjectId) (selections : List Selection) :
    List Item :=
  (Selection.occurrencesIn (table.fragmentOccurrences .standard type) .standard type
    selections).map Occurrence.item

/-- The items that a nested selection set lists for an object type. -/
def Item.nestedFor (table : FragmentTable) (type : ObjectId) : Item → List Item
  | .field _ none => []
  | .field _ (some set) => itemsFor table type set.selections
  | .spread _ => []

section Items

variable {table : FragmentTable} {type : ObjectId}

theorem itemsFor_nil : itemsFor table type [] = [] := rfl

theorem itemsFor_spread (h : table.Ordered) {head : SpreadSelection} {fragment : Fragment}
    (hget : table.get? head.fragment = some fragment) (rest : List Selection) :
    itemsFor table type (.spread head :: rest) =
      (if type ∈ head.possible then itemsFor table type fragment.selections.selections else []) ++
        itemsFor table type rest := by
  have hopened : opened (table.fragmentOccurrences .standard type) .standard head.fragment =
      table.occurrences .standard type fragment.selections :=
    FragmentTable.fragmentOccurrences_eq h hget
  rw [itemsFor, Selection.occurrencesIn, Selection.occurrences, List.map_append, hopened]
  split
  · rw [Occurrence.map_item_under]
    rfl
  · rfl

theorem itemsFor_inline (head : InlineSelection) (parent : String) (possible : PossibleTypes)
    (selections rest : List Selection) :
    itemsFor table type (.inline head ⟨parent, possible, selections⟩ :: rest) =
      (if type ∈ possible then itemsFor table type selections else []) ++
        itemsFor table type rest := by
  rw [itemsFor, Selection.occurrencesIn, Selection.occurrences, List.map_append]
  split
  · rw [Occurrence.map_item_under]
    rfl
  · rfl

end Items

/-! ## Mirrors -/

/-- An item is the compiled form of a collected field: it has the same response key, and its
nested selections are compiled from those of the field, on the type of the field. -/
inductive Mirrors (schema : Schema) (table : FragmentTable) : Item → CollectedField → Prop
  | leaf {head : FieldSelection} {field : Source.Field} {type : NamedType} :
      head.responseKey = field.givenKey.getD field.name →
      schema.type? head.type.typeName = some type → type.isComposite = false →
      Mirrors schema table (.field head none) ⟨field, []⟩
  | composite {head : FieldSelection} {field : Source.Field} {type : NamedType}
      {file : Option FileName} {possible : PossibleTypes} {selections : List Source.Selection}
      {nested : List Selection} :
      head.responseKey = field.givenKey.getD field.name →
      schema.type? head.type.typeName = some type → type.isComposite = true →
      schema.possibleTypes? type.name = some possible →
      Compiles schema table ⟨file, type, possible⟩ .empty selections nested →
      Mirrors schema table (.field head (some ⟨type.name, possible, nested⟩)) ⟨field, selections⟩

theorem FieldCompiles.responseKey {schema : Schema} {scope : Scope} {field : Source.Field}
    {head : FieldSelection} {type : NamedType} (h : FieldCompiles schema scope field head type) :
    head.responseKey = field.givenKey.getD field.name ∧
      schema.type? head.type.typeName = some type := by
  obtain ⟨definition, directives, -, htype, -, rfl⟩ := h
  exact ⟨rfl, htype⟩

/-! ## Type conditions -/

theorem FragmentCompiles.applies_iff {schema : Schema} {table : FragmentTable}
    {source : FragmentSource} {fragment : Fragment} {type : ObjectId}
    (h : FragmentCompiles schema table source fragment) :
    schema.Applies type source.fragment.typeCondition ↔ type ∈ fragment.selections.possible := by
  obtain ⟨_, possible, _, _, -, -, hpossible, -, -, rfl⟩ := h
  constructor
  · rintro ⟨possible', hpossible', htype⟩
    obtain rfl : possible = possible' := Option.some.inj (hpossible.symm.trans hpossible')
    exact htype
  · intro htype
    exact ⟨possible, hpossible, htype⟩

theorem Scope.NarrowsTo.applies_iff {schema : Schema} {scope inner : Scope}
    {fragment : Source.InlineFragment} {type : ObjectId}
    (h : scope.NarrowsTo schema fragment inner) (htype : type ∈ scope.possible) :
    type ∈ inner.possible ↔
      ∀ condition, fragment.typeCondition = some condition → schema.Applies type condition := by
  rw [Scope.NarrowsTo] at h
  cases hcondition : fragment.typeCondition with
  | none =>
      rw [hcondition] at h
      rw [h]
      exact ⟨fun _ _ hsome => absurd hsome (by simp), fun _ => htype⟩
  | some name =>
      rw [hcondition] at h
      obtain ⟨_, possible, -, -, hpossible, rfl⟩ := h
      rw [PossibleTypes.mem_inter]
      constructor
      · rintro ⟨hin, -⟩ condition hsome
        cases hsome
        exact ⟨possible, hpossible, hin⟩
      · intro happlies
        obtain ⟨possible', hpossible', hin⟩ := happlies name rfl
        obtain rfl : possible = possible' := Option.some.inj (hpossible.symm.trans hpossible')
        exact ⟨hin, htype⟩

/-! ## Covered fragments -/

/-- Everything that a fragment lists for an object type is listed. -/
def Covered (table : FragmentTable) (type : ObjectId) (listed : List Item) (name : String) : Prop :=
  ∀ id fragment, table.idOf? name = some id → table.get? id = some fragment →
    type ∈ fragment.selections.possible →
    ∀ item ∈ itemsFor table type fragment.selections.selections, item ∈ listed

/-- The visited fragments are covered, but for the open ones that are being gone through. -/
def Tracks (table : FragmentTable) (type : ObjectId) (listed : List Item) (opened : List String)
    (visited : List String) : Prop :=
  ∀ name ∈ visited, name ∈ opened ∨ Covered table type listed name

section Covered

variable {table : FragmentTable} {type : ObjectId} {listed listed' : List Item} {name : String}
  {opened opened' visited : List String}

theorem Covered.mono (hsub : ∀ item ∈ listed, item ∈ listed')
    (h : Covered table type listed name) : Covered table type listed' name :=
  fun id fragment hid hget htype item hitem => hsub item (h id fragment hid hget htype item hitem)

theorem Tracks.mono (hsub : ∀ item ∈ listed, item ∈ listed')
    (hopened : ∀ name ∈ opened, name ∈ opened') (h : Tracks table type listed opened visited) :
    Tracks table type listed' opened' visited :=
  fun name hname => (h name hname).imp (hopened name) (Covered.mono hsub)

/-- A fragment is covered once its items are listed, as no other has its name. -/
theorem covered_of_listed {id : FragmentId} {fragment : Fragment}
    (hid : table.idOf? name = some id) (hget : table.get? id = some fragment)
    (hlisted : type ∈ fragment.selections.possible →
      ∀ item ∈ itemsFor table type fragment.selections.selections, item ∈ listed) :
    Covered table type listed name := by
  intro id' fragment' hid' hget' htype
  obtain rfl : id = id' := Option.some.inj (hid.symm.trans hid')
  obtain rfl : fragment = fragment' := Option.some.inj (hget.symm.trans hget')
  exact hlisted htype

end Covered

/-! ## Going along -/

/-- Listed items and collected fields are in step: they agree, and the visited fragments are
tracked. -/
structure InStep (schema : Schema) (table : FragmentTable) (type : ObjectId) (listed : List Item)
    (fields : List CollectedField) (opened visited : List String) : Prop where
  echoes : Echoes (Mirrors schema table) listed fields
  tracks : Tracks table type listed opened visited

section Along

variable {schema : Schema} {texts : List SourceText} {definitions : Table FragmentSource}
  {table : FragmentTable} {type : ObjectId} {listed : List Item} {fields : List CollectedField}
  {opened visited : List String}

theorem InStep.field (h : InStep schema table type listed fields opened visited) {item : Item}
    {collected : CollectedField} (hmirrors : Mirrors schema table item collected) :
    InStep schema table type (listed ++ [item]) (fields ++ [collected]) opened visited where
  echoes := h.echoes.concat hmirrors
  tracks := h.tracks.mono (fun _ hitem => List.mem_append_left _ hitem) fun _ hname => hname

/-- Items that are listed already may be listed again. -/
theorem InStep.append_of_subset (h : InStep schema table type listed fields opened visited)
    {more : List Item} (hmore : ∀ item ∈ more, item ∈ listed) :
    InStep schema table type (listed ++ more) fields opened visited where
  echoes := (Echoes.append_of_subset_iff hmore).mpr h.echoes
  tracks := h.tracks.mono (fun _ hitem => List.mem_append_left _ hitem) fun _ hname => hname

/-- Items that were listed again may be left out. -/
theorem InStep.of_append {more : List Item}
    (h : InStep schema table type (listed ++ more) fields opened visited)
    (hmore : ∀ item ∈ more, item ∈ listed) :
    InStep schema table type listed fields opened visited where
  echoes := (Echoes.append_of_subset_iff hmore).mp h.echoes
  tracks := h.tracks.mono (fun item hitem => (List.mem_append.mp hitem).elim id (hmore item))
    fun _ hname => hname

/-- A covered fragment may be visited. -/
theorem InStep.visit (h : InStep schema table type listed fields opened visited) {name : String}
    (hcovered : Covered table type listed name) :
    InStep schema table type listed fields opened (name :: visited) where
  echoes := h.echoes
  tracks other hother := by
    rcases List.mem_cons.mp hother with rfl | hbefore
    · exact Or.inr hcovered
    · exact h.tracks other hbefore

/-- A fragment is visited and open while it is gone through. -/
theorem InStep.open (h : InStep schema table type listed fields opened visited) (name : String) :
    InStep schema table type listed fields (name :: opened) (name :: visited) where
  echoes := h.echoes
  tracks other hother := by
    rcases List.mem_cons.mp hother with rfl | hbefore
    · exact Or.inl List.mem_cons_self
    · exact (h.tracks other hbefore).imp_left (List.mem_cons_of_mem _)

/-- It is closed once it is covered. -/
theorem InStep.close {name : String}
    (h : InStep schema table type listed fields (name :: opened) visited)
    (hcovered : Covered table type listed name) :
    InStep schema table type listed fields opened visited where
  echoes := h.echoes
  tracks other hother := by
    rcases h.tracks other hother with hopened | hdone
    · rcases List.mem_cons.mp hopened with rfl | hbefore
      · exact Or.inr hcovered
      · exact Or.inl hbefore
    · exact Or.inr hdone

/-- Collecting from selections keeps in step with some further items. -/
def KeepsStep (schema : Schema) (texts : List SourceText) (table : FragmentTable)
    (type : ObjectId) (selections : List Source.Selection) (items listed : List Item)
    (fields : List CollectedField) (opened visited : List String) : Prop :=
  ∃ more after, Collects schema texts type visited selections more after ∧
    InStep schema table type (listed ++ items) (fields ++ more) opened after

theorem InStep.nil (h : InStep schema table type listed fields opened visited) :
    KeepsStep schema texts table type [] [] listed fields opened visited := by
  refine ⟨[], visited, .nil visited, ?_⟩
  rw [List.append_nil, List.append_nil]
  exact h

/-- One list of selections after another. -/
theorem KeepsStep.append {first second : List Source.Selection} {items items' : List Item}
    (h : KeepsStep schema texts table type first items listed fields opened visited)
    (h' : ∀ more after, Collects schema texts type visited first more after →
      InStep schema table type (listed ++ items) (fields ++ more) opened after →
      KeepsStep schema texts table type second items' (listed ++ items) (fields ++ more) opened
        after) :
    KeepsStep schema texts table type (first ++ second) (items ++ items') listed fields opened
      visited := by
  obtain ⟨more, middle, hcollects, hstep⟩ := h
  obtain ⟨more', after, hcollects', hstep'⟩ := h' more middle hcollects hstep
  refine ⟨more ++ more', after, hcollects.append hcollects', ?_⟩
  rw [← List.append_assoc, ← List.append_assoc]
  exact hstep'

/-- Items that are listed already need not be listed for the fields that come up again. -/
theorem KeepsStep.passOver {selections : List Source.Selection} {items : List Item}
    (h : KeepsStep schema texts table type selections items listed fields opened visited)
    (hitems : ∀ item ∈ items, item ∈ listed) :
    KeepsStep schema texts table type selections [] listed fields opened visited := by
  obtain ⟨more, after, hcollects, hstep⟩ := h
  refine ⟨more, after, hcollects, ?_⟩
  rw [List.append_nil]
  exact hstep.of_append hitems

/-! ## One selection -/

theorem InStep.oneField (h : InStep schema table type listed fields opened visited) {item : Item}
    {field : Source.Field} {selections : List Source.Selection}
    (hmirrors : Mirrors schema table item ⟨field, selections⟩) :
    KeepsStep schema texts table type [.field field selections] [item] listed fields opened
      visited :=
  ⟨[⟨field, selections⟩], visited, .field (.nil visited), h.field hmirrors⟩

/-- A fragment that was visited before is passed over. -/
theorem InStep.visitedSpread (h : InStep schema table type listed fields opened visited)
    {spread : Source.Spread} (hvisited : spread.name ∈ visited) :
    KeepsStep schema texts table type [.spread spread] [] listed fields opened visited := by
  refine ⟨[], visited, .visited hvisited (.nil visited), ?_⟩
  rw [List.append_nil, List.append_nil]
  exact h

/-- A spread, if going through its fragment keeps in step. -/
theorem InStep.oneSpread (h : InStep schema table type listed fields opened visited)
    (hdefinitions : ∀ name, definitions.get? name = fragmentSource? texts name)
    {spread : Source.Spread} {id : FragmentId} {fragment : Fragment} {source : FragmentSource}
    (hid : table.idOf? spread.name = some id) (hget : table.get? id = some fragment)
    (hsource : definitions.get? spread.name = some source)
    (happlies : schema.Applies type source.fragment.typeCondition ↔
      type ∈ fragment.selections.possible)
    (hclosed : spread.name ∉ opened)
    (hinner : type ∈ fragment.selections.possible →
      InStep schema table type listed fields (spread.name :: opened) (spread.name :: visited) →
      KeepsStep schema texts table type source.fragment.selections
        (itemsFor table type fragment.selections.selections) listed fields
        (spread.name :: opened) (spread.name :: visited)) :
    KeepsStep schema texts table type [.spread spread]
      (if type ∈ fragment.selections.possible then
        itemsFor table type fragment.selections.selections else [])
      listed fields opened visited := by
  by_cases hvisited : spread.name ∈ visited
  · -- The fragment was gone through before, so its items are listed.
    have hcovered : Covered table type listed spread.name :=
      (h.tracks spread.name hvisited).resolve_left hclosed
    refine ⟨[], visited, .visited hvisited (.nil visited), ?_⟩
    rw [List.append_nil]
    apply h.append_of_subset
    intro item hitem
    split at hitem
    · next htype => exact hcovered id fragment hid hget htype item hitem
    · exact absurd hitem List.not_mem_nil
  · rw [hdefinitions] at hsource
    by_cases htype : type ∈ fragment.selections.possible
    · obtain ⟨more, after, hcollects, hstep⟩ := hinner htype (h.open spread.name)
      have hcovered : Covered table type
          (listed ++ itemsFor table type fragment.selections.selections) spread.name :=
        covered_of_listed hid hget fun _ item hitem => List.mem_append_right _ hitem
      rw [if_pos htype]
      refine ⟨more ++ [], after, ?_, ?_⟩
      · exact .spread hvisited hsource (happlies.mpr htype) hcollects (.nil after)
      · rw [List.append_nil]
        exact hstep.close hcovered
    · -- It does not apply: it is visited all the same, with nothing to cover.
      have hnone : ∀ other, fragmentSource? texts spread.name = some other →
          ¬ schema.Applies type other.fragment.typeCondition := by
        intro other hother
        obtain rfl := Option.some.inj (hsource.symm.trans hother)
        exact fun happlies' => htype (happlies.mp happlies')
      rw [if_neg htype]
      refine ⟨[], spread.name :: visited, .passSpread hvisited hnone (.nil _), ?_⟩
      rw [List.append_nil, List.append_nil]
      exact h.visit (covered_of_listed hid hget fun hin => absurd hin htype)

/-- An inline fragment, if going through it keeps in step. -/
theorem InStep.oneInline (h : InStep schema table type listed fields opened visited)
    {scope inner : Scope} {fragment : Source.InlineFragment}
    {selections : List Source.Selection} {items : List Item}
    (hnarrows : scope.NarrowsTo schema fragment inner) (htype : type ∈ scope.possible)
    (hinner : type ∈ inner.possible →
      KeepsStep schema texts table type selections items listed fields opened visited) :
    KeepsStep schema texts table type [.inline fragment selections]
      (if type ∈ inner.possible then items else []) listed fields opened visited := by
  have happlies := hnarrows.applies_iff htype
  by_cases hin : type ∈ inner.possible
  · obtain ⟨more, after, hcollects, hstep⟩ := hinner hin
    rw [if_pos hin]
    refine ⟨more ++ [], after, .inline (happlies.mp hin) hcollects (.nil after), ?_⟩
    rw [List.append_nil]
    exact hstep
  · -- Within the scope, only a type condition keeps the fragment from applying.
    have hcondition : ∃ condition, fragment.typeCondition = some condition ∧
        ¬ schema.Applies type condition := by
      rw [happlies] at hin
      simpa only [not_forall, exists_prop] using hin
    obtain ⟨condition, hcondition, hnot⟩ := hcondition
    rw [if_neg hin]
    refine ⟨[], visited, .passInline hcondition hnot (.nil visited), ?_⟩
    rw [List.append_nil, List.append_nil]
    exact h

/-! ## Selections -/

/-- Compiled selections and collecting stay in step. The induction is on a bound for the
numbers of fragments: a fragment spreads earlier fragments only, so the open ones are never
met again. -/
theorem Compiles.collects (hsound : table.Sound schema definitions)
    (hdefinitions : ∀ name, definitions.get? name = fragmentSource? texts name) (bound : Nat) :
    ∀ {scope : Scope} {seen : NameSet} {source : List Source.Selection} {compiled : List Selection},
      Compiles schema (table.before bound) scope seen source compiled → type ∈ scope.possible →
      ∀ {listed : List Item} {fields : List CollectedField} {opened visited : List String},
        (∀ name ∈ seen.names, name ∈ visited) →
        (∀ name ∈ opened, ∀ id, table.idOf? name = some id → bound ≤ id) →
        InStep schema table type listed fields opened visited →
        KeepsStep schema texts table type source (itemsFor table type compiled) listed fields
          opened visited := by
  -- Outside on the fragments that may still be spread, inside on the selections.
  induction bound using Nat.strongRecOn with
  | ind bound ihbound =>
      intro scope seen source compiled h
      have hgrows := hsound.before_growsTo bound
      induction h with
      | nil scope seen =>
          intro _ listed fields opened visited _ _ hstep
          exact hstep.nil
      | @leaf scope seen field head type' rest compiled hfield hcomposite _ ih =>
          intro htype listed fields opened visited hseen hopened hstep
          obtain ⟨hkey, hnamed⟩ := hfield.responseKey
          refine (hstep.oneField (.leaf hkey hnamed hcomposite)).append
            fun more after hcollects hstep' => ih htype ?_ hopened hstep'
          exact fun name hname => hcollects.mem_of_visited (hseen name hname)
      | @composite scope seen field head type' possible selections rest nested compiled hfield
          hcomposite _ hpossible hnested _ _ ih =>
          intro htype listed fields opened visited hseen hopened hstep
          obtain ⟨hkey, hnamed⟩ := hfield.responseKey
          refine (hstep.oneField (.composite hkey hnamed hcomposite hpossible
            (hnested.mono hgrows))).append fun more after hcollects hstep' =>
              ih htype ?_ hopened hstep'
          exact fun name hname => hcollects.mem_of_visited (hseen name hname)
      | @repeated scope seen spread rest compiled hcontains _ ih =>
          intro htype listed fields opened visited hseen hopened hstep
          -- Compiling leaves the spread out, and collecting passes over it.
          have hvisited : spread.name ∈ visited :=
            hseen spread.name (List.contains_iff_mem.mp hcontains)
          exact (hstep.visitedSpread hvisited).append fun more after hcollects hstep' =>
            ih htype (hcollects.mem_of_seen hseen) hopened hstep'
      | @spread scope seen spread id fragment directives rest compiled _ hid hget _ _ ih =>
          intro htype listed fields opened visited hseen hopened hstep
          obtain ⟨hlt, hid', hget', source, hsource, hcompiles⟩ := hsound.of_before hid hget
          -- Open fragments have larger numbers, so this one is not open.
          have hclosed : spread.name ∉ opened := fun hname =>
            absurd hlt (Nat.not_lt.mpr (hopened spread.name hname id hid'))
          have hone := hstep.oneSpread hdefinitions hid' hget' hsource hcompiles.applies_iff
            hclosed fun hin hopen => by
              obtain ⟨type', possible', _, selections, _, _, _, _, hselections, rfl⟩ := hcompiles
              refine ihbound id hlt hselections hin
                (fun name hname => absurd hname List.not_mem_nil)
                (fun name hname other hother => ?_) hopen
              rcases List.mem_cons.mp hname with rfl | hbefore
              · exact Nat.le_of_eq (Option.some.inj (hid'.symm.trans hother))
              · exact Nat.le_trans (Nat.le_of_lt hlt) (hopened name hbefore other hother)
          have hpossible : type ∈ fragment.selections.possible ∩ scope.possible ↔
              type ∈ fragment.selections.possible :=
            PossibleTypes.mem_inter.trans (and_iff_left htype)
          rw [itemsFor_spread hsound.ordered hget']
          simp only [hpossible]
          exact hone.append fun more after hcollects hstep' =>
            ih htype (hcollects.mem_of_seen hseen) hopened hstep'
      | @inline scope inner seen fragment directives selections rest nested compiled hnarrows _ _ _
          ihnested ih =>
          intro htype listed fields opened visited hseen hopened hstep
          rw [itemsFor_inline]
          refine (hstep.oneInline hnarrows htype fun hin =>
            ihnested hin hseen hopened hstep).append fun more after hcollects hstep' =>
              ih htype ?_ hopened hstep'
          exact fun name hname => hcollects.mem_of_visited (hseen name hname)

/-! ## Joined selections -/

theorem inStep_nil : InStep schema table type [] [] [] [] :=
  ⟨.nil, fun _ hname => absurd hname List.not_mem_nil⟩

/-- Going on with the selections of a field that an item mirrors. -/
theorem Mirrors.collects (hsound : table.Sound schema definitions)
    (hdefinitions : ∀ name, definitions.get? name = fragmentSource? texts name) {item : Item}
    {collected : CollectedField} (hmirrors : Mirrors schema table item collected)
    (hpossible : ∀ head set, item = .field head (some set) → type ∈ set.possible)
    (hstep : InStep schema table type listed fields [] visited) :
    KeepsStep schema texts table type collected.selections (item.nestedFor table type) listed
      fields [] visited := by
  cases hmirrors with
  | leaf _ _ _ => exact hstep.nil
  | composite _ _ _ _ hcompiles =>
      exact Compiles.collects hsound hdefinitions table.size (table.before_size.symm ▸ hcompiles)
        (hpossible _ _ rfl) (fun _ hname => absurd hname List.not_mem_nil)
        (fun _ hname => absurd hname List.not_mem_nil) hstep

/-- Going on with the joined selections of all fields that some items mirror. A field that
comes up again adds nothing. -/
theorem Follows.collects (hsound : table.Sound schema definitions)
    (hdefinitions : ∀ name, definitions.get? name = fragmentSource? texts name)
    {items : List Item} {collected : List CollectedField}
    (h : Follows (Mirrors schema table) items collected)
    (hpossible : ∀ head set, .field head (some set) ∈ items → type ∈ set.possible) :
    KeepsStep schema texts table type (collected.flatMap CollectedField.selections)
      (items.flatMap (Item.nestedFor table type)) [] [] [] [] := by
  induction h with
  | nil => exact inStep_nil.nil
  | @advance items collected item last _ hmirrors ih =>
      have hbefore := ih fun head set hmem => hpossible head set (List.mem_append_left _ hmem)
      rw [List.flatMap_append, List.flatMap_append, List.flatMap_singleton, List.flatMap_singleton]
      refine hbefore.append fun more after _ hstep =>
        hmirrors.collects hsound hdefinitions (fun head set heq => ?_) hstep
      exact hpossible head set (heq ▸ List.mem_append_right _ (List.mem_singleton_self _))
  | @turnBack items collected item last _ hmem hmirrors ih =>
      -- What the item nests is listed since the item came up first.
      have hknown : ∀ other ∈ item.nestedFor table type,
          other ∈ items.flatMap (Item.nestedFor table type) := fun other hother =>
        List.mem_flatMap.mpr ⟨item, hmem, hother⟩
      rw [List.flatMap_append, List.flatMap_singleton,
        ← List.append_nil (items.flatMap (Item.nestedFor table type))]
      refine (ih hpossible).append fun more after _ hstep =>
        (hmirrors.collects hsound hdefinitions (fun head set heq => ?_) hstep).passOver hknown
      exact hpossible head set (heq ▸ hmem)

end Along

end QueryShape
