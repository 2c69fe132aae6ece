import QueryShape.Proofs.Executable.Success

/-!
# What a compilation records

While definitions are compiled, the types that they mention are recorded: the types of fields and
variables and the type conditions. A repeated spread is passed over and a fragment is compiled only
once, at the place where it is needed first. But every fragment in the table has been compiled, so
its types are recorded by then, and nothing is lost.

## What this module delivers

- `Source.Selection.Mentions`, `Source.Fragment.Mentions`, `Source.Operation.Mentions`,
  `Source.Definition.Mentions`: the types that definitions mention.
- `Compilation.Recorded`: states in which nothing but needed types is recorded, and all types that
  the fragments in the table mention.
- `Records`: what a successful part adds to what is recorded.
- `records_compileSelections`, `records_compileFragment`, `records_fragmentIdWithin`,
  `records_compileOperation`, `records_compileTexts`: one lemma for each part.
-/

set_option autoImplicit false

namespace QueryShape

open CompileM

/-! ## Types that definitions mention -/

mutual

/-- A selection on a type mentions the type of each of its fields and each type condition, at any
depth. What it spreads is left to the fragments. -/
def Source.Selection.Mentions (schema : Schema) (parent : NamedType) (name : String) :
    Source.Selection → Prop
  | .field head selections =>
      ∃ definition, schema.field? parent head.name = .ok (some definition) ∧
        (name = definition.type.typeName ∨
          ∃ type, schema.type? definition.type.typeName = some type ∧
            Source.Selection.MentionedIn schema type name selections)
  | .spread _ => False
  | .inline head selections =>
      match head.typeCondition with
      | none => Source.Selection.MentionedIn schema parent name selections
      | some condition =>
          name = condition ∨ ∃ type, schema.type? condition = some type ∧
            Source.Selection.MentionedIn schema type name selections

/-- A name that is mentioned in some selections on a type. -/
def Source.Selection.MentionedIn (schema : Schema) (parent : NamedType) (name : String) :
    List Source.Selection → Prop
  | [] => False
  | selection :: rest =>
      selection.Mentions schema parent name ∨
        Source.Selection.MentionedIn schema parent name rest

end

namespace Source

/-- A fragment mentions its type condition and what its selections mention on that type. -/
def Fragment.Mentions (schema : Schema) (fragment : Fragment) (name : String) : Prop :=
  name = fragment.typeCondition ∨ ∃ type, schema.type? fragment.typeCondition = some type ∧
    Selection.MentionedIn schema type name fragment.selections

/-- An operation mentions the types of its variables and what its selections mention on the root
type. The root type itself is mentioned only if they do. -/
def Operation.Mentions (schema : Schema) (operation : Operation) (name : String) : Prop :=
  (∃ declared ∈ operation.declared, name = declared.type.typeName) ∨
    ∃ root type, schema.root? operation.kind = some root ∧ schema.type? root = some type ∧
      Selection.MentionedIn schema type name operation.selections

/-- What a definition mentions. One without a name does not compile. -/
def Definition.Mentions (schema : Schema) (definition : Definition) (name : String) : Prop :=
  match definition with
  | .anonymous _ _ => False
  | .operation source => source.Mentions schema name
  | .fragment source => source.Mentions schema name

section Mentions

variable {schema : Schema} {parent type : NamedType} {name : String} {selections : List Selection}

theorem Selection.mentions_type_of_field {head : Field} {definition : QueryShape.FieldDefinition}
    (hdefinition : schema.field? parent head.name = .ok (some definition)) :
    (Selection.field head selections).Mentions schema parent definition.type.typeName := by
  rw [Selection.Mentions]
  exact ⟨definition, hdefinition, Or.inl rfl⟩

/-- The schema gives one definition of a field, and one type for it. -/
theorem Selection.mentions_field {head : Field} {definition : QueryShape.FieldDefinition}
    (hdefinition : schema.field? parent head.name = .ok (some definition))
    (htype : schema.type? definition.type.typeName = some type) :
    (Selection.field head selections).Mentions schema parent name ↔
      name = definition.type.typeName ∨ MentionedIn schema type name selections := by
  simp only [Selection.Mentions, hdefinition, htype, Except.ok.injEq, Option.some.injEq,
    exists_eq_left']

theorem Selection.mentions_inline_none {head : InlineFragment} (h : head.typeCondition = none) :
    (Selection.inline head selections).Mentions schema parent name ↔
      MentionedIn schema parent name selections := by
  simp only [Selection.Mentions, h]

theorem Selection.mentions_inline {head : InlineFragment} {condition : String}
    (h : head.typeCondition = some condition) (htype : schema.type? condition = some type) :
    (Selection.inline head selections).Mentions schema parent name ↔
      name = condition ∨ MentionedIn schema type name selections := by
  simp only [Selection.Mentions, h, htype, Option.some.injEq, exists_eq_left']

theorem Fragment.mentions_iff {fragment : Fragment}
    (htype : schema.type? fragment.typeCondition = some type) :
    fragment.Mentions schema name ↔
      name = fragment.typeCondition ∨ Selection.MentionedIn schema type name fragment.selections := by
  simp only [Fragment.Mentions, htype, Option.some.injEq, exists_eq_left']

end Mentions

end Source

/-! ## States -/

variable {schema : Schema} {definitions : Table FragmentSource} {needed : String → Prop}
  {before middle after : Compilation} {resolve : Resolver}

/-- Nothing but needed types is recorded, with all that they bring along, and everything that the
fragments in the table mention. -/
structure Compilation.Recorded (schema : Schema) (definitions : Table FragmentSource)
    (needed : String → Prop) (state : Compilation) : Prop where
  nodup : state.referenced.names.Nodup
  closed : state.referenced.Closed schema
  needed : ∀ name ∈ state.referenced.names, needed name
  fragments : ∀ name id source, state.fragments.idOf? name = some id →
    definitions.get? name = some source → ∀ type, source.fragment.Mentions schema type →
      type ∈ state.referenced.names

/-- What a part of a compilation records: what it mentions is recorded afterwards, with what was
recorded before. -/
structure Records (schema : Schema) (definitions : Table FragmentSource) (needed : String → Prop)
    (mentions : String → Prop) (before after : Compilation) : Prop where
  recorded : after.Recorded schema definitions needed
  keeps : before.referenced.names ⊆ after.referenced.names
  mentioned : ∀ name, mentions name → name ∈ after.referenced.names

/-- A resolver that has recorded what a fragment mentions when it has found its number. -/
def Resolver.Records (schema : Schema) (definitions : Table FragmentSource)
    (needed : String → Prop) (resolve : Resolver) : Prop :=
  ∀ (name : String) (location : Location) (before after : Compilation) (id : FragmentId),
    (resolve name location).Succeeds before id after →
    before.Recorded schema definitions needed →
    QueryShape.Records schema definitions needed
      (fun type => ∃ source, definitions.get? name = some source ∧
        source.fragment.Mentions schema type) before after

/-- Nothing is mentioned, and nothing is recorded. -/
theorem Compilation.Recorded.records_nothing (h : before.Recorded schema definitions needed) :
    Records schema definitions needed (fun _ => False) before before :=
  ⟨h, fun _ hname => hname, fun _ hfalse => hfalse.elim⟩

namespace Records

variable {mentions mentions' : String → Prop}

theorem of_imp (h : Records schema definitions needed mentions before after)
    (himp : ∀ name, mentions' name → mentions name) :
    Records schema definitions needed mentions' before after :=
  ⟨h.recorded, h.keeps, fun name hname => h.mentioned name (himp name hname)⟩

/-- One part after the other. -/
theorem trans (h : Records schema definitions needed mentions before middle)
    (h' : Records schema definitions needed mentions' middle after) :
    Records schema definitions needed (fun name => mentions name ∨ mentions' name) before
      after where
  recorded := h'.recorded
  keeps := fun _ hname => h'.keeps (h.keeps hname)
  mentioned name hname := hname.elim (fun hfirst => h'.keeps (h.mentioned name hfirst))
    (h'.mentioned name)

end Records

/-! ## Selections -/

/-- With a type everything is needed that it brings along. -/
def Schema.BringsAlong (schema : Schema) (needed : String → Prop) : Prop :=
  ∀ outer, needed outer → ∀ inner ∈ schema.broughtBy outer, needed inner

theorem Schema.BringsAlong.of_leadsTo (h : schema.BringsAlong needed) {name other : String}
    (hname : needed name) (hleads : LeadsTo schema.broughtBy name other) : needed other := by
  induction hleads with
  | refl => exact hname
  | tail _ hstep ih => exact h _ ih _ hstep

/-- Recording a type records it with all that it leads to. -/
theorem records_refer (hbrings : schema.BringsAlong needed) {name : String} {result : Unit}
    (hname : needed name)
    (h : (refer schema name).Succeeds before result after)
    (hbefore : before.Recorded schema definitions needed) :
    Records schema definitions needed (· = name) before after := by
  obtain ⟨referenced, hadded, rfl⟩ := succeeds_refer_iff.mp h
  have hgains := NameSet.addType_gains hadded
  have hkeeps : before.referenced.names ⊆ referenced.names :=
    fun _ hother => hgains.visits.mem_of_known hother
  refine ⟨⟨hgains.visits.nodup hbefore.nodup, (hbefore.closed.addType hadded).1, ?_, ?_⟩, hkeeps,
    ?_⟩
  · intro other hother
    rcases hgains.visits.reached other hother with hknown | ⟨root, hroot, hleads⟩
    · exact hbefore.needed other hknown
    · obtain rfl := List.mem_singleton.mp hroot
      exact hbrings.of_leadsTo hname hleads
  · intro other id source hid hsource type hmentions
    exact hkeeps (hbefore.fragments other id source hid hsource type hmentions)
  · rintro _ rfl
    exact hgains.visits.mem_of_mem _ (List.mem_singleton_self _)

/-- A type condition is recorded. -/
theorem records_checkTypeCondition (hbrings : schema.BringsAlong needed) {name : String}
    {location : Location} {type : NamedType} (hname : needed name)
    (h : (checkTypeCondition schema name location).Succeeds before type after)
    (hbefore : before.Recorded schema definitions needed) :
    Records schema definitions needed (· = name) before after := by
  obtain ⟨-, -, hrefer⟩ := checkTypeCondition_cases h
  exact records_refer hbrings hname hrefer hbefore

/-- The type of a field is recorded. -/
theorem records_compileField (hbrings : schema.BringsAlong needed) {scope : Scope}
    {field : Source.Field} {head : FieldSelection} {type : NamedType}
    (hneeded : ∀ definition, schema.field? scope.parent field.name = .ok (some definition) →
      needed definition.type.typeName)
    (h : (compileField schema scope field).Succeeds before (head, type) after)
    (hbefore : before.Recorded schema definitions needed) :
    ∃ definition, schema.field? scope.parent field.name = .ok (some definition) ∧
      schema.type? definition.type.typeName = some type ∧
      Records schema definitions needed (· = definition.type.typeName) before after := by
  obtain ⟨⟨definition, _, hfield, htype, -, rfl⟩, hrefer⟩ := compileField_cases h
  exact ⟨definition, hfield, htype,
    records_refer hbrings (hneeded definition hfield) hrefer hbefore⟩

/-- The type condition of an inline fragment is recorded. -/
theorem records_narrowScope (hbrings : schema.BringsAlong needed) {scope inner : Scope}
    {fragment : Source.InlineFragment}
    (hneeded : ∀ name, fragment.typeCondition = some name → needed name)
    (h : (narrowScope schema scope fragment).Succeeds before inner after)
    (hbefore : before.Recorded schema definitions needed) :
    Records schema definitions needed (fun name => fragment.typeCondition = some name) before
      after := by
  rw [narrowScope] at h
  cases hcondition : fragment.typeCondition with
  | none =>
      simp only [hcondition, succeeds_pure] at h
      obtain ⟨-, rfl⟩ := h
      exact hbefore.records_nothing.of_imp fun _ hname => nomatch hname
  | some name =>
      simp only [hcondition, succeeds_bind, succeeds_possibleTypesOf, succeeds_pure] at h
      obtain ⟨type, _, htype, _, _, ⟨-, rfl⟩, -, rfl⟩ := h
      exact (records_checkTypeCondition hbrings (hneeded name hcondition) htype hbefore).of_imp
        fun _ hname => (Option.some.inj hname).symm

/-- A spread has its fragment recorded. -/
theorem records_compileSpread
    (hresolve : resolve.Records schema definitions needed) {scope : Scope} {spread : Source.Spread}
    {head : SpreadSelection}
    (h : (compileSpread schema resolve scope spread).Succeeds before head after)
    (hbefore : before.Recorded schema definitions needed) :
    Records schema definitions needed (fun _ => False) before after := by
  simp only [compileSpread, succeeds_bind, succeeds_get, succeeds_ensure, succeeds_directives,
    succeeds_pure] at h
  obtain ⟨id, _, hid, _, _, ⟨rfl, rfl⟩, _, _, ⟨-, rfl⟩, _, _, ⟨-, rfl⟩, -, rfl⟩ := h
  exact (hresolve _ _ _ _ _ hid hbefore).of_imp fun _ hfalse => hfalse.elim

mutual

/-- Whatever a selection mentions is recorded, also where a repeated spread is left out. -/
theorem records_compileSelection (hbrings : schema.BringsAlong needed)
    (hresolve : resolve.Records schema definitions needed) (selection : Source.Selection)
    {scope : Scope} {seen : NameSet} {compiled : Option Selection} {before after : Compilation}
    (hneeded : ∀ name, selection.Mentions schema scope.parent name → needed name)
    (h : (compileSelection schema resolve scope seen selection).Succeeds before compiled after)
    (hbefore : before.Recorded schema definitions needed) :
    Records schema definitions needed (fun name => selection.Mentions schema scope.parent name)
      before after := by
  cases selection with
  | field field selections =>
      obtain ⟨head, type, middle, hfield, hcases⟩ := compileSelection_field_cases h
      obtain ⟨definition, hdefinition, htype, hfirst⟩ := records_compileField hbrings
        (fun _ hdefinition => hneeded _ (Source.Selection.mentions_type_of_field hdefinition))
        hfield hbefore
      simp only [Source.Selection.mentions_field hdefinition htype] at hneeded ⊢
      rcases hcases with ⟨-, rfl, -, rfl⟩ | ⟨possible, nested, -, -, -, hnested, -⟩
      · exact hfirst.of_imp fun name hname => hname.resolve_right fun hfalse => hfalse
      · have hsecond := records_compileSelections hbrings hresolve selections
          (fun name hname => hneeded name (Or.inr hname)) hnested hfirst.recorded
        exact hfirst.trans hsecond
  | spread spread =>
      simp only [compileSelection] at h
      split at h
      · rw [succeeds_pure] at h
        obtain ⟨-, rfl⟩ := h
        exact hbefore.records_nothing.of_imp fun _ hfalse => hfalse
      · simp only [succeeds_bind, succeeds_pure] at h
        obtain ⟨_, _, hspread, -, rfl⟩ := h
        exact (records_compileSpread hresolve hspread hbefore).of_imp fun _ hfalse => hfalse
  | inline fragment selections =>
      simp only [compileSelection, succeeds_bind, succeeds_directives, succeeds_pure] at h
      obtain ⟨inner, _, hinner, _, middle, ⟨-, rfl⟩, nested, _, hnested, -, rfl⟩ := h
      obtain ⟨hnarrows, -⟩ := narrowScope_spec hinner
      rw [Scope.NarrowsTo] at hnarrows
      cases hcondition : fragment.typeCondition with
      | none =>
          simp only [hcondition] at hnarrows
          simp only [Source.Selection.mentions_inline_none hcondition] at hneeded ⊢
          subst hnarrows
          have hfirst := records_narrowScope hbrings
            (fun name hname => absurd (hcondition.symm.trans hname) (Option.some_ne_none name).symm)
            hinner hbefore
          have hsecond := records_compileSelections hbrings hresolve selections hneeded hnested
            hfirst.recorded
          exact (hfirst.trans hsecond).of_imp fun _ => Or.inr
      | some condition =>
          simp only [hcondition] at hnarrows
          obtain ⟨type, possible, htype, -, -, rfl⟩ := hnarrows
          simp only [Source.Selection.mentions_inline hcondition htype] at hneeded ⊢
          have hfirst := records_narrowScope hbrings
            (fun name hname => hneeded name
              (Or.inl (Option.some.inj (hname.symm.trans hcondition)))) hinner hbefore
          have hsecond := records_compileSelections hbrings hresolve selections
            (fun name hname => hneeded name (Or.inr hname)) hnested hfirst.recorded
          refine (hfirst.trans hsecond).of_imp ?_
          rintro name (rfl | hname)
          · exact Or.inl hcondition
          · exact Or.inr hname

/-- Whatever selections mention is recorded. -/
theorem records_compileSelections (hbrings : schema.BringsAlong needed)
    (hresolve : resolve.Records schema definitions needed) (selections : List Source.Selection)
    {scope : Scope} {seen : NameSet} {compiled : List Selection} {before after : Compilation}
    (hneeded : ∀ name, Source.Selection.MentionedIn schema scope.parent name selections →
      needed name)
    (h : (compileSelections schema resolve scope seen selections).Succeeds before compiled after)
    (hbefore : before.Recorded schema definitions needed) :
    Records schema definitions needed
      (fun name => Source.Selection.MentionedIn schema scope.parent name selections)
      before after := by
  cases selections with
  | nil =>
      simp only [compileSelections, succeeds_pure] at h
      obtain ⟨-, rfl⟩ := h
      exact hbefore.records_nothing.of_imp fun _ hfalse => hfalse
  | cons selection rest =>
      simp only [compileSelections, succeeds_bind, succeeds_pure] at h
      obtain ⟨first, middle, hfirst, others, _, hrest, -, rfl⟩ := h
      have hone := records_compileSelection hbrings hresolve selection
        (fun name hname => hneeded name (Or.inl hname)) hfirst hbefore
      have hothers := records_compileSelections hbrings hresolve rest
        (fun name hname => hneeded name (Or.inr hname)) hrest hone.recorded
      exact (hone.trans hothers).of_imp fun _ hname => hname

end

/-! ## Definitions -/

/-- Whatever a fragment mentions is recorded, and the fragment keeps its name. -/
theorem records_compileFragment (hbrings : schema.BringsAlong needed)
    (hresolve : resolve.Records schema definitions needed) {source : FragmentSource}
    {fragment : Fragment}
    (hneeded : ∀ name, source.fragment.Mentions schema name → needed name)
    (h : (compileFragment schema resolve source).Succeeds before fragment after)
    (hbefore : before.Recorded schema definitions needed) :
    fragment.name = source.fragment.name ∧
      Records schema definitions needed (source.fragment.Mentions schema) before after := by
  simp only [compileFragment, succeeds_bind, succeeds_possibleTypesOf, succeeds_directives,
    succeeds_pure] at h
  obtain ⟨type, _, hcondition, possible, _, ⟨-, rfl⟩, _, _, ⟨-, rfl⟩, selections, _, hselections,
    rfl, rfl⟩ := h
  obtain ⟨htype, -, -⟩ := succeeds_checkTypeCondition hcondition
  have hfirst := records_checkTypeCondition hbrings (hneeded _ (Or.inl rfl)) hcondition hbefore
  have hsecond := records_compileSelections hbrings hresolve source.fragment.selections
    (fun name hname => hneeded name ((Source.Fragment.mentions_iff htype).mpr (Or.inr hname)))
    hselections hfirst.recorded
  exact ⟨rfl, (hfirst.trans hsecond).of_imp fun _ => (Source.Fragment.mentions_iff htype).mp⟩

/-- A resolver that finds the numbers of fragments records what these mention. A fragment that has
a number already has been recorded before. -/
theorem records_fragmentIdWithin (hbrings : schema.BringsAlong needed)
    (hdefinitions : ∀ name source, definitions.get? name = some source →
      source.fragment.name = name)
    (hneeded : ∀ name source, definitions.get? name = some source →
      ∀ type, source.fragment.Mentions schema type → needed type)
    (depth : Nat) (path : List String) :
    Resolver.Records schema definitions needed
      (fragmentIdWithin schema definitions depth path) := by
  induction depth using Nat.strongRecOn generalizing path with
  | ind depth ih =>
      intro name location before after id h hbefore
      rcases fragmentIdWithin_cases h with ⟨hid, rfl⟩ |
        ⟨source, below, fragment, middle, -, rfl, -, hsource, hfragment, rfl, -⟩
      · refine ⟨hbefore, fun _ hname => hname, ?_⟩
        rintro type ⟨source, hsource, hmentions⟩
        exact hbefore.fragments name id source hid hsource type hmentions
      · obtain ⟨hname, hmiddle⟩ := records_compileFragment hbrings
          (ih below (Nat.lt_succ_self below) (name :: path)) (hneeded name source hsource)
          hfragment hbefore
        rw [hdefinitions name source hsource] at hname
        have hmentioned : ∀ other, definitions.get? name = some other →
            ∀ type, other.fragment.Mentions schema type →
              type ∈ middle.referenced.names := by
          intro other hother type hmentions
          obtain rfl := Option.some.inj (hother.symm.trans hsource)
          exact hmiddle.mentioned type hmentions
        refine ⟨⟨hmiddle.recorded.nodup, hmiddle.recorded.closed, hmiddle.recorded.needed, ?_⟩,
          hmiddle.keeps, ?_⟩
        · -- The new fragment is the only one with a new name.
          intro other number source' hnumber hsource'
          rcases FragmentTable.idOf?_of_push hnumber with ⟨old, hold⟩ | hnew
          · exact hmiddle.recorded.fragments other old source' hold hsource'
          · obtain rfl : name = other := hname.symm.trans hnew
            exact hmentioned source' hsource'
        · rintro type ⟨other, hother, hmentions⟩
          exact hmentioned other hother type hmentions

/-- The types of variables are recorded. -/
theorem records_compileVariables (hbrings : schema.BringsAlong needed) {file : Option FileName}
    (declared : List Source.VariableDefinition) {compiled : List Variable} {before : Compilation}
    (hneeded : ∀ definition ∈ declared, needed definition.type.typeName)
    (h : (declared.mapM (compileVariable schema file)).Succeeds before compiled after)
    (hbefore : before.Recorded schema definitions needed) :
    Records schema definitions needed
      (fun name => ∃ definition ∈ declared, name = definition.type.typeName) before after := by
  induction declared generalizing before compiled with
  | nil =>
      rw [List.mapM_nil, succeeds_pure] at h
      obtain ⟨-, rfl⟩ := h
      exact hbefore.records_nothing.of_imp fun _ ⟨_, hmem, _⟩ => List.not_mem_nil hmem
  | cons definition declared ih =>
      obtain ⟨hfirst, hothers⟩ := List.forall_mem_cons.mp hneeded
      rw [List.mapM_cons] at h
      simp only [succeeds_bind, succeeds_pure] at h
      obtain ⟨_, middle, hvariable, _, _, hrest, -, rfl⟩ := h
      obtain ⟨-, hrefer⟩ := compileVariable_cases hvariable
      have hone := records_refer hbrings hfirst hrefer hbefore
      refine (hone.trans (ih hothers hrest hone.recorded)).of_imp ?_
      rintro name ⟨other, hother, rfl⟩
      rcases List.mem_cons.mp hother with rfl | hlater
      · exact Or.inl rfl
      · exact Or.inr ⟨other, hlater, rfl⟩

/-- Whatever an operation mentions is recorded. -/
theorem records_compileOperation (hbrings : schema.BringsAlong needed)
    (hresolve : resolve.Records schema definitions needed) {file : Option FileName}
    {source : Source.Operation} {operation : Operation}
    (hneeded : ∀ name, source.Mentions schema name → needed name)
    (h : (compileOperation schema resolve file source).Succeeds before operation after)
    (hbefore : before.Recorded schema definitions needed) :
    Records schema definitions needed (source.Mentions schema) before after := by
  obtain ⟨_, root, _, _, possible, type, _, middle, -, hroot, hdeclared, -, -, htype, hselections,
    -⟩ := compileOperation_cases h
  have hvariables := records_compileVariables hbrings source.declared
    (fun definition hmem => hneeded _ (Or.inl ⟨definition, hmem, rfl⟩)) hdeclared hbefore
  have hselected := records_compileSelections hbrings hresolve source.selections
    (fun name hmentioned => hneeded name (Or.inr ⟨root, type, hroot, htype, hmentioned⟩))
    hselections hvariables.recorded
  refine (hvariables.trans hselected).of_imp fun name hmentions => hmentions.imp id ?_
  rintro ⟨other, otherType, hother, hotherType, hmentioned⟩
  obtain rfl := Option.some.inj (hother.symm.trans hroot)
  obtain rfl := Option.some.inj (hotherType.symm.trans htype)
  exact hmentioned

/-- Whatever the operations among some definitions mention is recorded. The fragments are left to
the resolver. -/
theorem records_compileOperations (hbrings : schema.BringsAlong needed)
    (hresolve : resolve.Records schema definitions needed)
    (entries : List (Option FileName × Source.Definition)) {known result : List Operation}
    {before : Compilation}
    (hneeded : ∀ definition ∈ entries.map Prod.snd, ∀ name, definition.Mentions schema name →
      needed name)
    (h : (entries.foldlM (fun operations (file, definition) => do
        match ← compileDefinition schema resolve file definition with
        | none => pure operations
        | some operation => addOperation operations operation) known).Succeeds before result after)
    (hbefore : before.Recorded schema definitions needed) :
    Records schema definitions needed
      (fun name => ∃ definition ∈ entries.map Prod.snd,
        definition.fragment? = none ∧ definition.Mentions schema name) before after := by
  induction entries generalizing known before with
  | nil =>
      rw [List.foldlM_nil, succeeds_pure] at h
      obtain ⟨-, rfl⟩ := h
      exact hbefore.records_nothing.of_imp fun _ ⟨_, hmem, _⟩ => List.not_mem_nil hmem
  | cons entry entries ih =>
      obtain ⟨file, definition⟩ := entry
      obtain ⟨hfirst, hothers⟩ := List.forall_mem_cons.mp hneeded
      rw [List.foldlM_cons] at h
      simp only [succeeds_bind] at h
      obtain ⟨next, middle, ⟨operation?, middle', hdefinition, hadd⟩, hrest⟩ := h
      have hone : Records schema definitions needed
          (fun name => definition.fragment? = none ∧ definition.Mentions schema name)
          before middle := by
        rcases compileDefinition_cases hdefinition with
          ⟨fragment, rfl, rfl, rfl⟩ | ⟨source, operation, rfl, rfl, hoperation⟩
        · rw [succeeds_pure] at hadd
          obtain ⟨-, rfl⟩ := hadd
          have hsome : (Source.Definition.fragment fragment).fragment? ≠ none :=
            Option.some_ne_none fragment
          exact hbefore.records_nothing.of_imp fun _ hmentions => hsome hmentions.1
        · obtain ⟨-, -, rfl⟩ := succeeds_addOperation hadd
          exact (records_compileOperation hbrings hresolve hfirst hoperation hbefore).of_imp
            fun _ hmentions => hmentions.2
      refine (hone.trans (ih hothers hrest hone.recorded)).of_imp ?_
      rintro name ⟨other, hother, hmentions⟩
      rcases List.mem_cons.mp hother with rfl | hlater
      · exact Or.inl hmentions
      · exact Or.inr ⟨other, hlater, hmentions⟩

/-! ## Documents -/

/-- Asking for some names one after the other records what their fragments mention. -/
theorem records_resolveAll (hresolve : resolve.Records schema definitions needed)
    (sources : List FragmentSource) {before : Compilation} {result : PUnit}
    (hdefined : ∀ source ∈ sources, definitions.get? source.fragment.name = some source)
    (h : (sources.forM fun source => do
        let _ ← resolve source.fragment.name source.location).Succeeds before result after)
    (hbefore : before.Recorded schema definitions needed) :
    Records schema definitions needed
      (fun name => ∃ source ∈ sources, source.fragment.Mentions schema name) before after := by
  induction sources generalizing before with
  | nil =>
      rw [List.forM_eq_forM, List.forM_nil, succeeds_pure] at h
      obtain ⟨-, rfl⟩ := h
      exact hbefore.records_nothing.of_imp fun _ ⟨_, hmem, _⟩ => List.not_mem_nil hmem
  | cons source sources ih =>
      obtain ⟨hfirst, hothers⟩ := List.forall_mem_cons.mp hdefined
      rw [List.forM_eq_forM, List.forM_cons] at h
      simp only [succeeds_bind, succeeds_pure] at h
      obtain ⟨_, _, ⟨id, middle, hid, -, rfl⟩, hrest⟩ := h
      have hone := hresolve _ _ _ _ _ hid hbefore
      refine (hone.trans (ih hothers hrest hone.recorded)).of_imp ?_
      rintro name ⟨other, hother, hmentions⟩
      rcases List.mem_cons.mp hother with rfl | hlater
      · exact Or.inl ⟨other, hfirst, hmentions⟩
      · exact Or.inr ⟨other, hlater, hmentions⟩

theorem Compilation.Recorded.empty (schema : Schema) (definitions : Table FragmentSource)
    (needed : String → Prop) :
    Compilation.Recorded schema definitions needed ⟨.empty, .empty⟩ where
  nodup := List.nodup_nil
  closed := NameSet.closed_empty schema
  needed _ hmem := absurd hmem List.not_mem_nil
  fragments _ _ _ h := nomatch h

/-- Documents that compile have all recorded that their definitions mention, and nothing that is
not needed. -/
theorem records_compileTexts (hbrings : schema.BringsAlong needed) {texts : List SourceText}
    {operations : List Operation}
    (hneeded : ∀ definition ∈ Source.definitions texts, ∀ name, definition.Mentions schema name →
      needed name)
    (h : (compileTexts schema texts).Succeeds ⟨.empty, .empty⟩ operations after) :
    ∃ definitions, Records schema definitions needed
      (fun name => ∃ definition ∈ Source.definitions texts, definition.Mentions schema name)
      ⟨.empty, .empty⟩ after := by
  rw [compileTexts] at h
  cases hsources : fragmentSources texts with
  | error error =>
      rw [hsources] at h
      exact absurd h not_succeeds_malformed
  | ok definitions =>
      obtain ⟨hdistinct, heq⟩ := fragmentSources_eq_ok_iff.mp hsources
      have hdefines := defines_of_fragmentSources hsources
      have hresolve : Resolver.Records schema definitions needed (fragmentId schema definitions) :=
        records_fragmentIdWithin hbrings (fun _ _ hsource => (hdefines.mem hsource).2)
          (fun _ _ hsource => hneeded _ (hdefines.mem hsource).1) definitions.size []
      have hvalues : definitions.values = fragmentDefinitions texts := by
        rw [heq, Table.values, List.map_map]
        exact List.map_id _
      simp only [hsources, succeeds_bind, succeeds_pure] at h
      obtain ⟨found, middle, hoperations, _, _, hrest, rfl, rfl⟩ := h
      have hfirst := records_compileOperations hbrings hresolve (definitionsOf texts)
        (Source.map_snd_definitionsOf texts ▸ hneeded) hoperations
        (.empty schema definitions needed)
      have hsecond := records_resolveAll hresolve definitions.values (fun source hmem => by
        rw [fragmentSources_get? hsources]
        exact fragmentSource?_of_mem hdistinct (hvalues ▸ hmem)) hrest hfirst.recorded
      refine ⟨definitions, (hfirst.trans hsecond).of_imp ?_⟩
      rintro name ⟨definition, hmem, hmentions⟩
      cases hfragment : definition.fragment? with
      | none =>
          refine Or.inl ⟨definition, ?_, hfragment, hmentions⟩
          rw [Source.map_snd_definitionsOf]
          exact hmem
      | some fragment =>
          obtain rfl := Source.Definition.fragment?_eq_some.mp hfragment
          obtain ⟨source, hsource, rfl⟩ := mem_fragmentDefinitions.mpr hmem
          exact Or.inr ⟨source, hvalues ▸ hsource, hmentions⟩

end QueryShape
