import QueryShape.Proofs.Executable.Decided
import QueryShape.Proofs.Executable.Document

/-!
# When documents compile

Documents compile exactly if their definitions compile together. The heart of it is the resolver of
names. It fails on a name that lies on the path of names whose fragments are being compiled; each of
these leads to the name, so the name leads to itself and does not resolve. It fails also when its
depth is used up; but the names on the path are distinct and defined, and there are not that many.

## What this module delivers

- `OnTheWay`: the names on the path, and how much depth is left.
- `FragmentDecided`, `fragmentIdWithin_decides`: finding the number of a fragment.
- `compileOperation_decided`, `compileOperations_decided`: operations.
- `fragmentSources_eq_ok_iff`: the table of fragment definitions.
- `Schema.compile_succeeds_iff`: documents.
-/

set_option autoImplicit false

namespace QueryShape

open CompileM

variable {schema : Schema} {definitions : Table FragmentSource} {all : List Source.Definition}
  {path : List String} {resolve : Resolver}

/-! ## Finding fragments -/

/-- A table that binds each name to the fragment that is defined under it. -/
def Table.Defines (definitions : Table FragmentSource) (all : List Source.Definition) : Prop :=
  ∀ name fragment, (definitions.get? name).map FragmentSource.fragment = some fragment ↔
    .fragment fragment ∈ all ∧ fragment.name = name

theorem Table.Defines.mem (h : definitions.Defines all) {name : String} {source : FragmentSource}
    (hsource : definitions.get? name = some source) :
    .fragment source.fragment ∈ all ∧ source.fragment.name = name :=
  (h name source.fragment).mp (by rw [hsource]; rfl)

theorem Table.Defines.exists_source (h : definitions.Defines all) {fragment : Source.Fragment}
    (hmem : .fragment fragment ∈ all) :
    ∃ source, definitions.get? fragment.name = some source ∧ source.fragment = fragment :=
  Option.map_eq_some_iff.mp ((h fragment.name fragment).mpr ⟨hmem, rfl⟩)

/-- A path of names that are being compiled on the way to a name. Together with the depth that is
left it covers the table. -/
structure OnTheWay (definitions : Table FragmentSource) (all : List Source.Definition) (depth : Nat)
    (path : List String) (name : String) : Prop where
  nodup : path.Nodup
  defined : path ⊆ definitions.keys
  depth : definitions.size ≤ depth + path.length
  leads : ∀ other ∈ path, Relation.TransGen (Source.Spreads all) other name

namespace OnTheWay

variable {depth : Nat} {name : String}

theorem start (name : String) : OnTheWay definitions all definitions.size [] name where
  nodup := List.nodup_nil
  defined := List.nil_subset _
  depth := Nat.le_refl _
  leads _ hmem := absurd hmem List.not_mem_nil

/-- The way goes on to what the fragment of the name spreads. -/
theorem next (h : OnTheWay definitions all (depth + 1) path name)
    (hdefines : definitions.Defines all) (hnew : name ∉ path) {source : FragmentSource}
    (hsource : definitions.get? name = some source) {inner : String}
    (hinner : inner ∈ Source.Selection.spreadsIn source.fragment.selections) :
    OnTheWay definitions all depth (name :: path) inner := by
  obtain ⟨hmem, hname⟩ := hdefines.mem hsource
  have hstep : Source.Spreads all name inner := ⟨source.fragment, hmem, hname, hinner⟩
  refine ⟨List.nodup_cons.mpr ⟨hnew, h.nodup⟩, ?_, ?_, ?_⟩
  · exact List.cons_subset.mpr ⟨Table.mem_keys_of_get? hsource, h.defined⟩
  · rw [List.length_cons, Nat.add_comm path.length, ← Nat.add_assoc]
    exact h.depth
  · exact List.forall_mem_cons.mpr ⟨.single hstep, fun other hother => (h.leads other hother).tail hstep⟩

/-- A defined name that is not on the path leaves some depth. -/
theorem depth_pos (h : OnTheWay definitions all depth path name) (hnew : name ∉ path)
    {source : FragmentSource} (hsource : definitions.get? name = some source) : 0 < depth := by
  have hlength : (name :: path).length ≤ definitions.keys.length :=
    (List.subperm_of_subset (List.nodup_cons.mpr ⟨hnew, h.nodup⟩)
      (List.cons_subset.mpr ⟨Table.mem_keys_of_get? hsource, h.defined⟩)).length_le
  have hsize : definitions.keys.length = definitions.size := List.length_map _
  have hdepth := h.depth
  rw [List.length_cons] at hlength
  omega

end OnTheWay

theorem Compilation.Proper.cons {state : Compilation} {name : String}
    (h : state.Proper schema definitions all path) (hnone : state.fragments.idOf? name = none) :
    state.Proper schema definitions all (name :: path) where
  sound := h.sound
  closed := h.closed
  resolvable := h.resolvable
  outside := List.forall_mem_cons.mpr ⟨hnone, h.outside⟩

theorem fragmentIdWithin_of_idOf? {depth : Nat} {name : String} {location : Location}
    {before : Compilation} {id : FragmentId} (h : before.fragments.idOf? name = some id) :
    (fragmentIdWithin schema definitions depth path name location).Succeeds before id before := by
  unfold fragmentIdWithin
  simp only [succeeds_bind, succeeds_get]
  refine ⟨before, before, ⟨rfl, rfl⟩, ?_⟩
  simp only [h, succeeds_pure, and_self]

theorem fragmentIdWithin_of_compileFragment {depth : Nat} {name : String} {location : Location}
    {before after : Compilation} {source : FragmentSource} {fragment : Fragment}
    (hnone : before.fragments.idOf? name = none) (hnew : name ∉ path)
    (hsource : definitions.get? name = some source)
    (h : (compileFragment schema (fragmentIdWithin schema definitions depth (name :: path))
      source).Succeeds before fragment after) :
    (fragmentIdWithin schema definitions (depth + 1) path name location).Succeeds before
      after.fragments.size { after with fragments := after.fragments.push fragment } := by
  unfold fragmentIdWithin
  simp only [succeeds_bind, succeeds_get]
  refine ⟨before, before, ⟨rfl, rfl⟩, ?_⟩
  have hpath : path.contains name = false := by simpa using hnew
  simp only [hnone, hpath, Bool.false_eq_true, if_false, hsource, succeeds_bind, succeeds_get,
    succeeds_set, succeeds_pure]
  exact ⟨fragment, after, h, after, after, ⟨rfl, rfl⟩, (), _, rfl, rfl, rfl⟩

/-- A name that gets a number by adding a fragment is that of the fragment. -/
theorem FragmentTable.idOf?_of_push {table : FragmentTable} {fragment : Fragment} {name : String}
    {id : FragmentId} (h : (table.push fragment).idOf? name = some id) :
    (∃ old, table.idOf? name = some old) ∨ fragment.name = name := by
  rw [FragmentTable.idOf?_push] at h
  split at h
  · next hname => exact Or.inr hname.symm
  · exact Or.inl ⟨id, h⟩

/-- Finding fragments is correct, whatever the path: the table binds fragments to their names. -/
theorem Table.Defines.correct (h : definitions.Defines all) (depth : Nat) (path : List String) :
    Resolver.Correct schema definitions path (fragmentIdWithin schema definitions depth path) :=
  fragmentIdWithin_correct (fun _ _ hsource => (h.mem hsource).2) depth path

/-- If the fragment of a name has to be compiled, whether this succeeds is decided. -/
def FragmentDecided (schema : Schema) (definitions : Table FragmentSource)
    (all : List Source.Definition) (depth : Nat) (path : List String) (name : String) : Prop :=
  ∀ below source, depth = below + 1 → name ∉ path → definitions.get? name = some source →
    DecidedBy (Compilation.Proper schema definitions all (name :: path))
      (compileFragment schema (fragmentIdWithin schema definitions below (name :: path)) source)
      (source.fragment.Fits schema ∧
        ∀ inner ∈ Source.Selection.spreadsIn source.fragment.selections,
          Source.Resolvable schema all inner)

section Finding

variable {depth : Nat} {name : String} {location : Location} {before after : Compilation}
  {id : FragmentId}

/-- A name that resolves is found: it does not lead to itself, so it is not on the path. -/
theorem exists_fragmentIdWithin (hdefines : definitions.Defines all)
    (hdistinct : Source.DistinctFragments all) (hway : OnTheWay definitions all depth path name)
    (hfragment : FragmentDecided schema definitions all depth path name)
    (hbefore : before.Proper schema definitions all path)
    (hresolvable : Source.Resolvable schema all name) :
    ∃ id after,
      (fragmentIdWithin schema definitions depth path name location).Succeeds before id after := by
  cases hid : before.fragments.idOf? name with
  | some id => exact ⟨id, before, fragmentIdWithin_of_idOf? hid⟩
  | none =>
      -- The name has no number yet, so its fragment is compiled, which takes some depth.
      have hnew : name ∉ path :=
        fun hpath => hresolvable.not_leadsTo_self hdistinct (hway.leads name hpath)
      obtain ⟨hmem, hname, hfits, hspreads⟩ := hresolvable
      obtain ⟨source, hsource, rfl⟩ := hdefines.exists_source hmem
      rw [hname] at hsource
      obtain ⟨below, rfl⟩ := Nat.exists_eq_succ_of_ne_zero
        (Nat.pos_iff_ne_zero.mp (hway.depth_pos hnew hsource))
      obtain ⟨fragment, after, hcompiled, -⟩ :=
        (hfragment below source rfl hnew hsource).succeeds before () (hbefore.cons hid)
          ⟨hfits, hspreads⟩
      exact ⟨_, _, fragmentIdWithin_of_compileFragment hid hnew hsource hcompiled⟩

/-- A name that is found resolves. -/
theorem resolvable_of_fragmentIdWithin (hdefines : definitions.Defines all)
    (hfragment : FragmentDecided schema definitions all depth path name)
    (hbefore : before.Proper schema definitions all path)
    (h : (fragmentIdWithin schema definitions depth path name location).Succeeds before id after) :
    Source.Resolvable schema all name := by
  rcases fragmentIdWithin_cases h with ⟨hid, -⟩ |
    ⟨source, below, fragment, middle, hnone, hdepth, hnew, hsource, hcompiled, -, -⟩
  · exact hbefore.resolvable name id hid
  · obtain ⟨hmem, hname⟩ := hdefines.mem hsource
    obtain ⟨hfits, hspreads⟩ := (hfragment below source hdepth hnew hsource).fits before
      fragment middle (hbefore.cons hnone) hcompiled
    exact .intro hmem hname hfits hspreads

/-- Finding a name leads to a proper state. At most the name itself gets a number. -/
theorem Compilation.Proper.fragmentIdWithin (hdefines : definitions.Defines all)
    (hfragment : FragmentDecided schema definitions all depth path name)
    (hbefore : before.Proper schema definitions all path)
    (h : (fragmentIdWithin schema definitions depth path name location).Succeeds before id after) :
    after.Proper schema definitions all path := by
  obtain ⟨hadvances, -⟩ :=
    hdefines.correct depth path name location before after id h hbefore.sound
  have hresolvable := resolvable_of_fragmentIdWithin hdefines hfragment hbefore h
  rcases fragmentIdWithin_cases h with ⟨-, rfl⟩ |
    ⟨source, below, fragment, middle, hnone, hdepth, hnew, hsource, hcompiled, rfl, rfl⟩
  · exact hbefore
  · have hmiddle := (hfragment below source hdepth hnew hsource).keeps before fragment middle
      (hbefore.cons hnone) hcompiled
    have hadded : fragment.name = name := by
      obtain ⟨-, _, _, _, _, -, -, -, -, -, rfl⟩ :=
        compileFragment_spec (hdefines.correct below (name :: path)) hcompiled hbefore.sound
      exact (hdefines.mem hsource).2
    refine ⟨hadvances.sound, hmiddle.closed, ?_, ?_⟩
    · intro other number hnumber
      rcases FragmentTable.idOf?_of_push hnumber with ⟨old, hold⟩ | hlast
      · exact hmiddle.resolvable other old hold
      · rw [← hlast, hadded]
        exact hresolvable
    · exact fun other hother => hadvances.closed other hother (hbefore.outside other hother)

end Finding

/-- Finding the number of a fragment succeeds exactly if the name resolves. -/
theorem fragmentIdWithin_decides (hdefines : definitions.Defines all)
    (hdistinct : Source.DistinctFragments all) (depth : Nat) {path : List String} {name : String}
    (hway : OnTheWay definitions all depth path name) :
    Resolver.Decides schema definitions all path
      (fragmentIdWithin schema definitions depth path) name := by
  -- The way gets longer with each fragment, and the depth smaller.
  induction depth using Nat.strongRecOn generalizing path name with
  | ind depth ih =>
      have hfragment : FragmentDecided schema definitions all depth path name := by
        intro below source hdepth hnew hsource
        apply compileFragment_decided (hdefines.correct below (name :: path))
        intro inner hinner
        subst hdepth
        exact ih below (Nat.lt_succ_self below) (hway.next hdefines hnew hsource hinner)
      intro location
      constructor
      · intro before _ hbefore hresolvable
        obtain ⟨id, after, h⟩ :=
          exists_fragmentIdWithin hdefines hdistinct hway hfragment hbefore hresolvable
        exact ⟨id, after, h, rfl⟩
      · intro before id after hbefore h
        exact resolvable_of_fragmentIdWithin hdefines hfragment hbefore h
      · intro before id after hbefore h
        exact hbefore.fragmentIdWithin hdefines hfragment h

/-! ## Steps for each entry of a list -/

namespace CompileM

variable {α β : Type} {proper : Compilation → Prop}

theorem decidedBy_mapM {step : α → CompileM β} {holds : α → Prop}
    (hstep : ∀ entry, DecidedBy proper (step entry) (holds entry)) (entries : List α) :
    DecidedBy proper (entries.mapM step) (∀ entry ∈ entries, holds entry) := by
  induction entries with
  | nil =>
      rw [List.mapM_nil]
      exact (decidedBy_pure _).congr fun _ => by simp
  | cons entry entries ih =>
      rw [List.mapM_cons]
      refine ((hstep entry).andThen fun _ _ => ih.andPure _).congr fun _ => ?_
      rw [List.forall_mem_cons]

theorem decidedBy_forM {step : α → CompileM PUnit} {holds : α → Prop} (entries : List α)
    (hstep : ∀ entry ∈ entries, DecidedBy proper (step entry) (holds entry)) :
    DecidedBy proper (entries.forM step) (∀ entry ∈ entries, holds entry) := by
  induction entries with
  | nil =>
      rw [List.forM_eq_forM, List.forM_nil]
      exact (decidedBy_pure _).congr fun _ => by simp
  | cons entry entries ih =>
      obtain ⟨hentry, hentries⟩ := List.forall_mem_cons.mp hstep
      rw [List.forM_eq_forM, List.forM_cons]
      refine (hentry.andThen fun _ _ => ih hentries).congr fun _ => ?_
      rw [List.forall_mem_cons]

end CompileM

/-! ## Operations -/

theorem decidedBy_compileVariable {file : Option FileName} (definition : Source.VariableDefinition) :
    DecidedBy (Compilation.Proper schema definitions all path)
      (compileVariable schema file definition) (schema.DefinesAll definition.type.typeName) := by
  rw [compileVariable]
  cases htype : schema.type? definition.type.typeName with
  | none =>
      refine decided_of_failure (fun _ _ _ => not_succeeds_undefined) ?_
      intro _ hdefines
      have hsome := hdefines definition.type.typeName .refl
      rw [htype] at hsome
      exact absurd hsome Bool.false_ne_true
  | some type =>
      simp only [ensure_defaultValue, pure_bind]
      exact decidedBy_refer.andPure _

/-- An operation succeeds with its name if it fits and the names that it spreads resolve. -/
theorem compileOperation_decided (hcorrect : resolve.Correct schema definitions path)
    {file : Option FileName} {source : Source.Operation}
    (hresolve : ∀ name ∈ Source.Selection.spreadsIn source.selections,
      resolve.Decides schema definitions all path name) :
    Decided (Compilation.Proper schema definitions all path)
      (compileOperation schema resolve file source) (fun operation => some operation.name)
      fun name => source.Fits schema ∧
        (∀ name ∈ Source.Selection.spreadsIn source.selections,
          Source.Resolvable schema all name) ∧ name = source.name := by
  rw [compileOperation]
  cases hname : source.name with
  | none =>
      refine decided_of_failure (fun _ _ _ => not_succeeds_malformed) ?_
      rintro _ ⟨⟨_, _, hnamed, -⟩, -⟩
      rw [hname] at hnamed
      exact absurd hnamed Bool.false_ne_true
  | some name =>
      cases hroot : schema.root? source.kind with
      | none =>
          refine decided_of_failure (fun _ _ _ => not_succeeds_undefined) ?_
          rintro _ ⟨⟨_, _, -, hrooted, -⟩, -⟩
          rw [hroot] at hrooted
          exact absurd hrooted (by simp)
      | some root =>
          have hselections : ∀ type possible,
              DecidedBy (Compilation.Proper schema definitions all path)
                (compileSelections schema resolve ⟨file, type, possible⟩ .empty source.selections)
                (NeedsAll schema all type .empty source.selections) :=
            fun type possible => compileSelections_decided hcorrect _ hresolve
              fun _ hmem => absurd hmem List.not_mem_nil
          refine Decided.congr ((decidedBy_mapM decidedBy_compileVariable source.declared).bind
            fun declared _ => decidedBy_directives.bind fun directives _ =>
              decidedBy_possibleTypesOf.bind fun possible _ => decided_typeNamed.bind
                (fun type view => NeedsAll schema all type .empty source.selections ∧
                  view = some name) fun type _ =>
                (hselections type possible).bind fun selections _ =>
                  decided_pure _ fun operation : Operation => some operation.name) ?_
          intro view
          constructor
          · rintro ⟨hdeclared, hdirectives, hpossible, type, htype, ⟨hfits, hspreads⟩, hview⟩
            exact ⟨⟨root, type, by rw [hname]; rfl, hroot, hdeclared, hdirectives, hpossible, htype,
              hfits⟩, hspreads, hview⟩
          · rintro ⟨⟨_, type, -, hrooted, hdeclared, hdirectives, hpossible, htype, hfits⟩, hspreads,
              hview⟩
            rw [hroot] at hrooted
            obtain rfl := Option.some.inj hrooted
            exact ⟨hdeclared, hdirectives, hpossible, type, htype, ⟨hfits, hspreads⟩, hview⟩

/-- The names of operations, as definitions have them. -/
def operationNames (operations : List Operation) : List (Option String) :=
  operations.map fun operation => some operation.name

/-- An operation can be added if its name is new. -/
theorem decided_addOperation {operations : List Operation} {operation : Operation} :
    Decided (Compilation.Proper schema definitions all path) (addOperation operations operation)
      operationNames fun names => some operation.name ∉ operationNames operations ∧
        names = operationNames operations ++ [some operation.name] := by
  have hnew : some operation.name ∉ operationNames operations ↔
      operations.find? (fun present => present.name == operation.name) = none := by
    simp [operationNames, List.find?_eq_none]
  rw [addOperation]
  cases hfound : operations.find? (fun present => present.name == operation.name) with
  | none =>
      refine (decided_pure _ operationNames).congr fun names => ?_
      rw [hnew, hfound, operationNames, List.map_append]
      simp [operationNames]
  | some present =>
      refine decided_of_failure (fun _ _ _ => not_succeeds_malformed) ?_
      rintro _ ⟨hnotin, -⟩
      rw [hnew, hfound] at hnotin
      exact absurd hnotin (by simp)

/-- What is asked of a definition when operations are compiled. Fragments wait. -/
def Source.Definition.Operates (schema : Schema) (all : List Source.Definition)
    (definition : Source.Definition) : Prop :=
  definition.fragment? = none → definition.Fits schema ∧
    ∀ name ∈ definition.spreads, Source.Resolvable schema all name

/-- The name under which a definition adds an operation, if it does. -/
def Source.Definition.addedNames (definition : Source.Definition) : List (Option String) :=
  (definition.operation?.map Source.Operation.name).toList

theorem Source.flatMap_addedNames (all : List Source.Definition) :
    all.flatMap Source.Definition.addedNames =
      (all.filterMap Source.Definition.operation?).map Source.Operation.name := by
  rw [List.map_filterMap, List.filterMap_eq_flatMap_toList]
  rfl

/-- A definition succeeds if what is asked of it holds and its name, if it adds one, is new. -/
theorem compileDefinition_decided (hcorrect : resolve.Correct schema definitions path)
    (hresolve : ∀ name, resolve.Decides schema definitions all path name)
    {file : Option FileName} {definition : Source.Definition} {known : List Operation}
    (hknown : (operationNames known).Nodup) :
    Decided (Compilation.Proper schema definitions all path)
      (do
        match ← compileDefinition schema resolve file definition with
        | none => pure known
        | some operation => addOperation known operation) operationNames
      fun names => definition.Operates schema all ∧
        names = operationNames known ++ definition.addedNames ∧ names.Nodup := by
  cases definition with
  | anonymous position selections =>
      -- It is refused whatever it selects.
      refine decided_of_failure ?_ ?_
      · intro before result after h
        obtain ⟨_, _, hfails, -⟩ := succeeds_bind.mp h
        exact not_succeeds_malformed hfails
      · rintro _ ⟨hoperates, -⟩
        exact (hoperates rfl).1
  | fragment fragment =>
      -- Nothing is done and nothing asked: fragments are found by their names.
      refine Decided.congr (decided_pure known operationNames) fun names => ?_
      constructor
      · rintro rfl
        exact ⟨nofun, (List.append_nil _).symm, hknown⟩
      · rintro ⟨-, rfl, -⟩
        exact List.append_nil _
  | operation source =>
      rw [compileDefinition, bind_map_left]
      refine ((compileOperation_decided hcorrect fun name _ => hresolve name).bind (fun name names =>
          name ∉ operationNames known ∧ names = operationNames known ++ [name])
        fun operation _ => decided_addOperation).congr fun names => ?_
      have hnodup : (operationNames known ++ [source.name]).Nodup ↔
          source.name ∉ operationNames known := by
        rw [← List.concat_eq_append, List.nodup_concat]
        exact and_iff_left hknown
      constructor
      · rintro ⟨_, ⟨hfits, hspreads, rfl⟩, hnew, rfl⟩
        exact ⟨fun _ => ⟨hfits, hspreads⟩, rfl, hnodup.mpr hnew⟩
      · rintro ⟨hoperates, rfl, hdistinct⟩
        obtain ⟨hfits, hspreads⟩ := hoperates rfl
        exact ⟨source.name, ⟨hfits, hspreads, rfl⟩, hnodup.mp hdistinct, rfl⟩

/-- The operations of definitions succeed if what is asked of each holds and their names are
distinct from each other and from those of the operations before. -/
theorem compileOperations_decided (hcorrect : resolve.Correct schema definitions path)
    (hresolve : ∀ name, resolve.Decides schema definitions all path name)
    (entries : List (Option FileName × Source.Definition)) {known : List Operation}
    (hknown : (operationNames known).Nodup) :
    DecidedBy (Compilation.Proper schema definitions all path)
      (entries.foldlM (fun operations (file, definition) => do
        match ← compileDefinition schema resolve file definition with
        | none => pure operations
        | some operation => addOperation operations operation) known)
      ((∀ definition ∈ entries.map Prod.snd, definition.Operates schema all) ∧
        (operationNames known ++
          (entries.map Prod.snd).flatMap Source.Definition.addedNames).Nodup) := by
  induction entries generalizing known with
  | nil =>
      rw [List.foldlM_nil]
      exact (decidedBy_pure _).congr fun _ => by simpa using hknown
  | cons entry entries ih =>
      obtain ⟨file, definition⟩ := entry
      rw [List.foldlM_cons]
      refine ((compileDefinition_decided hcorrect hresolve hknown).bind (fun names _ =>
          (∀ definition ∈ entries.map Prod.snd, definition.Operates schema all) ∧
            (names ++ (entries.map Prod.snd).flatMap Source.Definition.addedNames).Nodup)
        fun operations hfits => ih hfits.2.2).congr fun _ => ?_
      rw [List.map_cons, List.forall_mem_cons, List.flatMap_cons, ← List.append_assoc]
      constructor
      · rintro ⟨_, ⟨hoperates, rfl, -⟩, hothers, hdistinct⟩
        exact ⟨⟨hoperates, hothers⟩, hdistinct⟩
      · rintro ⟨⟨hoperates, hothers⟩, hdistinct⟩
        exact ⟨_, ⟨hoperates, rfl, (List.nodup_append.mp hdistinct).1⟩, hothers, hdistinct⟩

/-! ## Documents -/

/-- A fragment definition is entered at the end of the table if its name is new. -/
theorem addFragmentSource_eq_ok_iff {source : FragmentSource} {before after : Table FragmentSource} :
    addFragmentSource before source = .ok after ↔ source.fragment.name ∉ before.keys ∧
      after = ⟨before.entries ++ [(source.fragment.name, source)]⟩ := by
  rw [addFragmentSource, ← Table.get?_eq_none_iff]
  cases hpresent : before.get? source.fragment.name with
  | some present => simp
  | none =>
      have hnew := Table.get?_eq_none_iff.mp hpresent
      rw [Table.insert, Table.insertEntry_of_not_mem hnew]
      simp only [Except.ok.injEq, true_and]
      exact eq_comm

/-- Fragment definitions are entered in order if their names are distinct from each other and from
those before. -/
theorem foldlM_addFragmentSource_eq_ok_iff (sources : List FragmentSource)
    {before after : Table FragmentSource} (hbefore : before.keys.Nodup) :
    sources.foldlM addFragmentSource before = .ok after ↔
      (before.keys ++ sources.map fun source => source.fragment.name).Nodup ∧
        after =
          ⟨before.entries ++ sources.map fun source => (source.fragment.name, source)⟩ := by
  induction sources generalizing before with
  | nil =>
      rw [List.foldlM_nil, List.map_nil, List.map_nil, List.append_nil, List.append_nil]
      constructor
      · intro h
        cases h
        exact ⟨hbefore, rfl⟩
      · rintro ⟨-, rfl⟩
        rfl
  | cons source sources ih =>
      rw [List.foldlM_cons, bind_eq_ok]
      simp only [addFragmentSource_eq_ok_iff]
      have hkeys : Table.keys ⟨before.entries ++ [(source.fragment.name, source)]⟩ =
          before.keys ++ [source.fragment.name] := by
        rw [Table.keys, List.map_append]
        rfl
      have hnodup : (before.keys ++ [source.fragment.name]).Nodup ↔
          source.fragment.name ∉ before.keys := by
        rw [← List.concat_eq_append, List.nodup_concat]
        exact and_iff_left hbefore
      constructor
      · rintro ⟨_, ⟨hnew, rfl⟩, hrest⟩
        rw [ih (hkeys ▸ hnodup.mpr hnew), hkeys] at hrest
        simpa using hrest
      · rintro ⟨hdistinct, hafter⟩
        rw [List.map_cons, List.append_cons] at hdistinct
        have hfirst := (List.nodup_append.mp hdistinct).1
        refine ⟨_, ⟨hnodup.mp hfirst, rfl⟩, ?_⟩
        rw [ih (hkeys ▸ hfirst), hkeys]
        refine ⟨hdistinct, ?_⟩
        rw [hafter]
        simp

theorem Source.map_snd_definitionsOf (texts : List SourceText) :
    (definitionsOf texts).map Prod.snd = Source.definitions texts := by
  rw [definitionsOf, List.map_flatMap, Source.definitions]
  simp only [List.map_map]
  exact List.flatMap_congr fun text _ => List.map_id _

theorem map_fragment_fragmentDefinitions (texts : List SourceText) :
    (fragmentDefinitions texts).map FragmentSource.fragment =
      (Source.definitions texts).filterMap Source.Definition.fragment? := by
  rw [fragmentDefinitions, List.map_flatMap, Source.definitions, List.filterMap_flatMap]
  refine List.flatMap_congr fun text _ => ?_
  rw [List.map_map]
  have hsame : text.document.fragments =
      text.document.definitions.filterMap Source.Definition.fragment? := by
    refine List.filterMap_congr fun definition _ => ?_
    cases definition with
    | anonymous position selections => rfl
    | operation source => rfl
    | fragment source => rfl
  rw [← hsame]
  exact List.map_id _

theorem map_name_fragmentDefinitions (texts : List SourceText) :
    (fragmentDefinitions texts).map (fun source => source.fragment.name) =
      ((Source.definitions texts).filterMap Source.Definition.fragment?).map
        Source.Fragment.name := by
  rw [← map_fragment_fragmentDefinitions, List.map_map]
  rfl

/-- The fragment definitions of documents can be entered if their names are distinct, and then the
table holds them in order. -/
theorem fragmentSources_eq_ok_iff {texts : List SourceText} :
    fragmentSources texts = .ok definitions ↔
      Source.DistinctFragments (Source.definitions texts) ∧ definitions =
        ⟨(fragmentDefinitions texts).map fun source => (source.fragment.name, source)⟩ := by
  rw [Source.DistinctFragments, ← map_name_fragmentDefinitions]
  exact foldlM_addFragmentSource_eq_ok_iff (fragmentDefinitions texts) List.nodup_nil

theorem mem_fragmentDefinitions {texts : List SourceText} {fragment : Source.Fragment} :
    (∃ source ∈ fragmentDefinitions texts, source.fragment = fragment) ↔
      .fragment fragment ∈ Source.definitions texts := by
  rw [← Source.mem_filterMap_fragment?, ← map_fragment_fragmentDefinitions, List.mem_map]

/-- Where names are distinct, every fragment definition is that of its name. -/
theorem fragmentSource?_of_mem {texts : List SourceText}
    (hdistinct : Source.DistinctFragments (Source.definitions texts)) {source : FragmentSource}
    (hmem : source ∈ fragmentDefinitions texts) :
    fragmentSource? texts source.fragment.name = some source := by
  cases hfound : fragmentSource? texts source.fragment.name with
  | none => exact absurd (List.find?_eq_none.mp hfound source hmem) (by simp)
  | some found =>
      -- The search may stop at another definition, but no other has the name.
      rw [Source.DistinctFragments, ← map_name_fragmentDefinitions] at hdistinct
      rw [List.inj_on_of_nodup_map hdistinct (List.mem_of_find?_eq_some hfound) hmem
        (name_of_fragmentSource? hfound)]

/-- The table of fragment definitions binds the names of the fragments that are defined. -/
theorem defines_of_fragmentSources {texts : List SourceText}
    (h : fragmentSources texts = .ok definitions) :
    definitions.Defines (Source.definitions texts) := by
  obtain ⟨hdistinct, -⟩ := fragmentSources_eq_ok_iff.mp h
  intro name fragment
  rw [fragmentSources_get? h, Option.map_eq_some_iff]
  constructor
  · rintro ⟨source, hsource, rfl⟩
    exact ⟨mem_fragmentDefinitions.mp ⟨source, List.mem_of_find?_eq_some hsource, rfl⟩,
      name_of_fragmentSource? hsource⟩
  · rintro ⟨hmem, rfl⟩
    obtain ⟨source, hsource, rfl⟩ := mem_fragmentDefinitions.mpr hmem
    exact ⟨source, fragmentSource?_of_mem hdistinct hsource, rfl⟩

/-- The state in which a compilation starts. -/
theorem Compilation.proper_empty (schema : Schema) (definitions : Table FragmentSource)
    (all : List Source.Definition) :
    Compilation.Proper schema definitions all [] ⟨.empty, .empty⟩ where
  sound := .empty schema definitions
  closed := NameSet.closed_empty schema
  resolvable _ _ h := nomatch h
  outside _ hmem := absurd hmem List.not_mem_nil

/-- Definitions compile together if what is asked of the operations holds and the names of all
fragments resolve. -/
theorem Source.compilable_iff (hdistinct : Source.DistinctFragments all) :
    Source.Compilable schema all ↔
      ((∀ definition ∈ all, definition.Operates schema all) ∧
        (all.flatMap Source.Definition.addedNames).Nodup) ∧
      ∀ fragment, .fragment fragment ∈ all → Source.Resolvable schema all fragment.name := by
  rw [Source.flatMap_addedNames]
  constructor
  · intro h
    refine ⟨⟨?_, h.operations⟩, fun fragment hmem => h.resolvable_name hmem⟩
    intro definition hmem _
    exact ⟨h.fits definition hmem, h.resolvable definition hmem⟩
  · rintro ⟨⟨hoperates, hnames⟩, hfragments⟩
    have hall : ∀ definition ∈ all, definition.Fits schema ∧
        ∀ name ∈ definition.spreads, Source.Resolvable schema all name := by
      intro definition hmem
      cases hfragment : definition.fragment? with
      | none => exact hoperates definition hmem hfragment
      | some fragment =>
          obtain rfl := Source.Definition.fragment?_eq_some.mp hfragment
          exact (hfragments fragment hmem).of_mem hdistinct hmem
    exact ⟨fun definition hmem => (hall definition hmem).1,
      fun definition hmem => (hall definition hmem).2, hnames, hdistinct⟩

/-- The operations and then the fragments of documents are compiled in a proper state. -/
theorem compileTexts_decided {texts : List SourceText}
    (hsources : fragmentSources texts = .ok definitions) :
    DecidedBy (Compilation.Proper schema definitions (Source.definitions texts) [])
      (compileTexts schema texts) (Source.Compilable schema (Source.definitions texts)) := by
  have hdefines := defines_of_fragmentSources hsources
  obtain ⟨hdistinct, hentries⟩ := fragmentSources_eq_ok_iff.mp hsources
  have hcorrect : Resolver.Correct schema definitions [] (fragmentId schema definitions) :=
    hdefines.correct definitions.size []
  have hresolve : ∀ name, Resolver.Decides schema definitions (Source.definitions texts) []
      (fragmentId schema definitions) name :=
    fun name => fragmentIdWithin_decides hdefines hdistinct definitions.size (.start name)
  have hvalues : definitions.values = fragmentDefinitions texts := by
    rw [hentries, Table.values, List.map_map]
    exact List.map_id _
  have hnone : (operationNames []).Nodup := List.nodup_nil
  rw [compileTexts]
  simp only [hsources]
  refine ((compileOperations_decided hcorrect hresolve (definitionsOf texts) hnone).andThen
    fun operations _ => (decidedBy_forM definitions.values fun source _ =>
      (hresolve source.fragment.name source.location).andPure fun _ => ()).andPure
        fun _ => operations).congr fun _ => ?_
  rw [Source.compilable_iff hdistinct, Source.map_snd_definitionsOf, hvalues]
  refine and_congr_right fun _ => ?_
  -- The table holds the fragments that are defined.
  constructor
  · intro hresolvable fragment hmem
    obtain ⟨source, hsource, rfl⟩ := mem_fragmentDefinitions.mpr hmem
    exact hresolvable source hsource
  · intro hresolvable source hsource
    exact hresolvable source.fragment (mem_fragmentDefinitions.mp ⟨source, hsource, rfl⟩)

theorem compileTexts_succeeds_iff {texts : List SourceText} :
    (∃ operations after, (compileTexts schema texts).Succeeds ⟨.empty, .empty⟩ operations after) ↔
      Source.Compilable schema (Source.definitions texts) := by
  cases hsources : fragmentSources texts with
  | error error =>
      rw [compileTexts, hsources]
      constructor
      · rintro ⟨_, _, h⟩
        exact absurd h not_succeeds_malformed
      · intro h
        have hok := fragmentSources_eq_ok_iff.mpr ⟨h.fragments, rfl⟩
        rw [hsources] at hok
        exact absurd hok (by simp)
  | ok definitions =>
      have hdecided : DecidedBy _ (compileTexts schema texts) _ := compileTexts_decided hsources
      have hproper := Compilation.proper_empty schema definitions (Source.definitions texts)
      constructor
      · rintro ⟨operations, after, h⟩
        exact hdecided.fits _ operations after hproper h
      · intro h
        obtain ⟨operations, after, hrun, -⟩ := hdecided.succeeds _ () hproper h
        exact ⟨operations, after, hrun⟩

/-- Documents compile exactly if their definitions compile together. -/
theorem Schema.compile_succeeds_iff {texts : List SourceText} :
    (∃ document, schema.compile texts = .ok document) ↔
      Source.Compilable schema (Source.definitions texts) := by
  rw [← compileTexts_succeeds_iff]
  simp only [Schema.compile, bind_eq_ok, Prod.exists]
  constructor
  · rintro ⟨_, operations, after, hrun, -⟩
    exact ⟨operations, after, hrun⟩
  · rintro ⟨operations, after, hrun⟩
    exact ⟨_, operations, after, hrun, rfl⟩

end QueryShape
