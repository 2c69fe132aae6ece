import QueryShape.Proofs.Executable.SelectionSets
import QueryShape.Proofs.Ways

/-!
# Paths through a selection set

A path names each selection that it passes by its place in the list that it stands in. Other than
a way it says which occurrence it leads to: a field or a spread that occurs twice is at the end of
two paths. An object type has the paths on which every inline fragment and every spread applies to
it, a spread at the end included. Spread fragments are entered only where spreads are merged.

## What this module delivers

- `FragmentTable.Path`: a path for an object type, and the selection at its end.
- `FragmentTable.paths`: the paths of an object type.
- `FragmentTable.SamePaths`: two object types that have the same paths.
- `FragmentTable.PathFrom`, `FragmentTable.path_concat`: what one more selection adds to the paths.
- `FragmentTable.path_append`: a path to a spread goes on through the fragment.
- `FragmentTable.SpreadsWithin`, `FragmentTable.AllSpreadsWithin`: spreads that apply to what their
  fragment and their surroundings have in common.
- `FragmentTable.SamePaths.pathFrom_spread`: a fragment that is spread again adds nothing that parts
  object types.
-/

set_option autoImplicit false

namespace QueryShape

namespace FragmentTable

/-! ## Definitions -/

/-- A path leads from selections to a field or a spread. Everything that it passes, and the spread
at its end, applies to an object type. -/
inductive Path (table : FragmentTable) (options : TypeCaseOptions) (type : ObjectId) :
    List Selection → List Nat → Selection → Prop
  | field {selections : List Selection} {place : Nat} {head : FieldSelection}
      {nested : Option SelectionSet} :
      selections[place]? = some (.field head nested) →
      table.Path options type selections [place] (.field head nested)
  | spread {selections : List Selection} {place : Nat} {head : SpreadSelection} :
      selections[place]? = some (.spread head) → type ∈ head.possible →
      table.Path options type selections [place] (.spread head)
  | fragment {selections : List Selection} {place : Nat} {head : SpreadSelection}
      {fragment : Fragment} {places : List Nat} {last : Selection} :
      selections[place]? = some (.spread head) → type ∈ head.possible →
      options.mergeSpreads = true → table.get? head.fragment = some fragment →
      table.Path options type fragment.selections.selections places last →
      table.Path options type selections (place :: places) last
  | inline {selections : List Selection} {place : Nat} {head : InlineSelection}
      {nested : SelectionSet} {places : List Nat} {last : Selection} :
      selections[place]? = some (.inline head nested) → type ∈ nested.possible →
      table.Path options type nested.selections places last →
      table.Path options type selections (place :: places) last

/-- The paths of an object type. -/
def paths (table : FragmentTable) (options : TypeCaseOptions) (type : ObjectId)
    (selections : List Selection) : Set (List Nat) :=
  {places | ∃ last, table.Path options type selections places last}

/-- Two object types have the same paths, to the same selections. -/
def SamePaths (table : FragmentTable) (options : TypeCaseOptions) (selections : List Selection)
    (type other : ObjectId) : Prop :=
  ∀ places last, table.Path options type selections places last ↔
    table.Path options other selections places last

/-- An object type has no paths. -/
def Pathless (table : FragmentTable) (options : TypeCaseOptions) (selections : List Selection)
    (type : ObjectId) : Prop :=
  ∀ places last, ¬ table.Path options type selections places last

/-- An object type has a path to a spread of a fragment. -/
def PathToSpread (table : FragmentTable) (options : TypeCaseOptions) (selections : List Selection)
    (type : ObjectId) (id : FragmentId) : Prop :=
  ∃ head places, head.fragment = id ∧ table.Path options type selections places (.spread head)

/-- The paths that begin at a selection, without the place of the selection itself. -/
def PathFrom (table : FragmentTable) (options : TypeCaseOptions) (type : ObjectId) :
    Selection → List Nat → Selection → Prop
  | .field head nested, places, last => places = [] ∧ last = .field head nested
  | .spread head, places, last => type ∈ head.possible ∧
      (places = [] ∧ last = .spread head ∨ options.mergeSpreads = true ∧
        ∃ fragment, table.get? head.fragment = some fragment ∧
          table.Path options type fragment.selections.selections places last)
  | .inline _ nested, places, last => type ∈ nested.possible ∧
      table.Path options type nested.selections places last

/-- Every spread in a selection set applies to the object types of its fragment that are also types
of the selection set that it stands in. -/
def SpreadsWithin (table : FragmentTable) (set : SelectionSet) : Prop :=
  ∀ inner, set.Contains inner → ∀ head, .spread head ∈ inner.selections →
    ∃ fragment, table.get? head.fragment = some fragment ∧
      head.possible = fragment.selections.possible ∩ inner.possible

/-- The spreads in all fragments do so. -/
def AllSpreadsWithin (table : FragmentTable) : Prop :=
  ∀ id fragment, table.get? id = some fragment → table.SpreadsWithin fragment.selections

variable {table : FragmentTable} {options : TypeCaseOptions} {type other : ObjectId}
  {selections before : List Selection} {places rest : List Nat} {place : Nat}
  {selection last last' : Selection}

/-! ## Steps of a path -/

theorem Path.exists_cons (h : table.Path options type selections places last) :
    ∃ place rest, places = place :: rest := by
  cases h with
  | field => exact ⟨_, _, rfl⟩
  | spread => exact ⟨_, _, rfl⟩
  | fragment => exact ⟨_, _, rfl⟩
  | inline => exact ⟨_, _, rfl⟩

@[simp] theorem not_path_nil : ¬ table.Path options type selections [] last := by
  intro h
  obtain ⟨_, _, heq⟩ := h.exists_cons
  exact List.cons_ne_nil _ _ heq.symm

/-- A path begins at one of the selections and goes on from there. -/
theorem path_cons : table.Path options type selections (place :: rest) last ↔
    ∃ selection, selections[place]? = some selection ∧
      table.PathFrom options type selection rest last := by
  constructor
  · intro h
    cases h with
    | field hplace => exact ⟨_, hplace, rfl, rfl⟩
    | spread hplace htype => exact ⟨_, hplace, htype, Or.inl ⟨rfl, rfl⟩⟩
    | fragment hplace htype hmerge hget hpath =>
        exact ⟨_, hplace, htype, Or.inr ⟨hmerge, _, hget, hpath⟩⟩
    | inline hplace htype hpath => exact ⟨_, hplace, htype, hpath⟩
  · rintro ⟨selection, hplace, hfrom⟩
    cases selection with
    | field head nested =>
        obtain ⟨rfl, rfl⟩ := hfrom
        exact .field hplace
    | spread head =>
        obtain ⟨htype, ⟨rfl, rfl⟩ | ⟨hmerge, fragment, hget, hpath⟩⟩ := hfrom
        · exact .spread hplace htype
        · exact .fragment hplace htype hmerge hget hpath
    | inline head nested =>
        obtain ⟨htype, hpath⟩ := hfrom
        exact .inline hplace htype hpath

theorem path_cons_iff (hplace : selections[place]? = some selection) :
    table.Path options type selections (place :: rest) last ↔
      table.PathFrom options type selection rest last := by
  rw [path_cons]
  constructor
  · rintro ⟨found, hfound, hfrom⟩
    rwa [Option.some.inj (hplace.symm.trans hfound)]
  · intro hfrom
    exact ⟨selection, hplace, hfrom⟩

theorem not_path_of_nil : ¬ table.Path options type [] places last := by
  intro h
  obtain ⟨place, rest, rfl⟩ := h.exists_cons
  obtain ⟨selection, hplace, -⟩ := path_cons.mp h
  exact absurd hplace (by simp)

/-- What a path leads to does not depend on the object type. -/
theorem Path.unique (h : table.Path options type selections places last)
    (h' : table.Path options other selections places last') : last = last' := by
  induction h generalizing last' with
  | field hplace => exact ((path_cons_iff hplace).mp h').2.symm
  | spread hplace =>
      obtain ⟨-, ⟨-, heq⟩ | ⟨-, _, -, hpath⟩⟩ := (path_cons_iff hplace).mp h'
      · exact heq.symm
      · exact absurd hpath not_path_nil
  | fragment hplace _ _ hget hpath ih =>
      obtain ⟨-, ⟨rfl, -⟩ | ⟨-, _, hget', hpath'⟩⟩ := (path_cons_iff hplace).mp h'
      · exact absurd hpath not_path_nil
      · obtain rfl := Option.some.inj (hget.symm.trans hget')
        exact ih hpath'
  | inline hplace _ _ ih => exact ih ((path_cons_iff hplace).mp h').2

/-- A path to a spread goes on through the fragment, if spreads are merged. -/
theorem path_append {head : SpreadSelection} {fragment : Fragment}
    (hmerge : options.mergeSpreads = true) (hget : table.get? head.fragment = some fragment)
    (h : table.Path options type selections places (.spread head)) (hrest : rest ≠ []) :
    table.Path options type selections (places ++ rest) last ↔
      table.Path options type fragment.selections.selections rest last := by
  generalize hend : Selection.spread head = target at h
  -- Everything before the spread applies, so that nothing but the rest of the path is left to say.
  induction h with
  | field => exact nomatch hend
  | spread hplace htype =>
      cases hend
      rw [List.singleton_append, path_cons_iff hplace]
      simp [PathFrom, htype, hrest, hmerge, hget]
  | fragment hplace htype _ hget' _ ih =>
      rw [List.cons_append, path_cons_iff hplace, ← ih hend]
      simp [PathFrom, htype, hrest, hmerge, hget']
  | inline hplace htype _ ih =>
      rw [List.cons_append, path_cons_iff hplace, ← ih hend]
      exact and_iff_right htype

/-! ## One more selection -/

/-- The paths through some selections and one more. -/
theorem path_concat : table.Path options type (before ++ [selection]) places last ↔
    table.Path options type before places last ∨
      ∃ rest, places = before.length :: rest ∧
        table.PathFrom options type selection rest last := by
  cases places with
  | nil => simp
  | cons place rest =>
      rw [path_cons, path_cons]
      constructor
      · rintro ⟨found, hplace, hfrom⟩
        rcases Nat.lt_trichotomy place before.length with hlt | rfl | hgt
        · rw [List.getElem?_append_left hlt] at hplace
          exact Or.inl ⟨found, hplace, hfrom⟩
        · rw [List.getElem?_concat_length] at hplace
          obtain rfl := Option.some.inj hplace
          exact Or.inr ⟨rest, rfl, hfrom⟩
        · rw [List.getElem?_eq_none (by simpa [Nat.succ_le_iff] using hgt)] at hplace
          exact nomatch hplace
      · rintro (⟨found, hplace, hfrom⟩ | ⟨_, heq, hfrom⟩)
        · have hlt := (List.getElem?_eq_some_iff.mp hplace).1
          exact ⟨found, (List.getElem?_append_left hlt).trans hplace, hfrom⟩
        · obtain ⟨rfl, rfl⟩ := List.cons.inj heq
          exact ⟨selection, List.getElem?_concat_length, hfrom⟩

theorem Path.lt_length (h : table.Path options type selections (place :: rest) last) :
    place < selections.length := by
  obtain ⟨selection, hplace, -⟩ := path_cons.mp h
  exact (List.getElem?_eq_some_iff.mp hplace).1

/-- No path through earlier selections begins at a later one. -/
theorem path_concat_last :
    table.Path options type (before ++ [selection]) (before.length :: rest) last ↔
      table.PathFrom options type selection rest last :=
  path_cons_iff List.getElem?_concat_length

theorem pathless_concat : table.Pathless options (before ++ [selection]) type ↔
    table.Pathless options before type ∧
      ∀ rest last, ¬ table.PathFrom options type selection rest last := by
  constructor
  · intro h
    refine ⟨fun places last hpath => h places last (path_concat.mpr (Or.inl hpath)), ?_⟩
    exact fun rest last hfrom => h _ last (path_concat_last.mpr hfrom)
  · rintro ⟨hbefore, hlast⟩ places last hpath
    rcases path_concat.mp hpath with hpath | ⟨rest, -, hfrom⟩
    · exact hbefore places last hpath
    · exact hlast rest last hfrom

theorem PathToSpread.concat {id : FragmentId} (h : table.PathToSpread options before type id)
    (selection : Selection) : table.PathToSpread options (before ++ [selection]) type id := by
  obtain ⟨head, places, hfragment, hpath⟩ := h
  exact ⟨head, places, hfragment, path_concat.mpr (Or.inl hpath)⟩

/-! ## Object types with the same paths -/

theorem SamePaths.symm (h : table.SamePaths options selections type other) :
    table.SamePaths options selections other type :=
  fun places last => (h places last).symm

/-- A path determines what it leads to, so that the sets of paths say it all. -/
theorem samePaths_iff : table.SamePaths options selections type other ↔
    table.paths options type selections = table.paths options other selections := by
  constructor
  · intro h
    ext places
    exact exists_congr (h places)
  · intro h places
    have hends : ∀ {left right : ObjectId} {last : Selection},
        table.paths options left selections = table.paths options right selections →
        table.Path options left selections places last →
        table.Path options right selections places last := by
      intro left right last heq hpath
      have hmem : places ∈ table.paths options right selections := heq ▸ ⟨last, hpath⟩
      obtain ⟨last', hpath'⟩ := hmem
      rwa [hpath.unique hpath']
    exact fun last => ⟨hends h, hends h.symm⟩

/-- Paths that are the same through some selections and one more are the same without it. -/
theorem SamePaths.of_concat (h : table.SamePaths options (before ++ [selection]) type other) :
    table.SamePaths options before type other := by
  have hends : ∀ {left right : ObjectId} {places : List Nat} {last : Selection},
      table.SamePaths options (before ++ [selection]) left right →
      table.Path options left before places last → table.Path options right before places last := by
    intro left right places last hsame hpath
    rcases path_concat.mp ((hsame places last).mp (path_concat.mpr (Or.inl hpath))) with
      hbefore | ⟨rest, rfl, -⟩
    · exact hbefore
    · exact absurd hpath.lt_length (Nat.lt_irrefl _)
  exact fun places last => ⟨hends h, hends h.symm⟩

/-- One more selection keeps the paths the same if those that begin at it are the same. -/
theorem samePaths_concat : table.SamePaths options (before ++ [selection]) type other ↔
    table.SamePaths options before type other ∧
      ∀ rest last, table.PathFrom options type selection rest last ↔
        table.PathFrom options other selection rest last := by
  constructor
  · intro h
    refine ⟨h.of_concat, fun rest last => ?_⟩
    rw [← path_concat_last, ← path_concat_last]
    exact h _ last
  · rintro ⟨hbefore, hlast⟩ places last
    simp only [path_concat, hbefore places last, hlast]

/-- A spread that applies to an object type is itself at the end of a path. -/
theorem forall_not_pathFrom_spread {head : SpreadSelection} :
    (∀ rest last, ¬ table.PathFrom options type (.spread head) rest last) ↔
      type ∉ head.possible := by
  constructor
  · intro h htype
    exact h [] _ ⟨htype, Or.inl ⟨rfl, rfl⟩⟩
  · intro hout rest last hfrom
    exact hout hfrom.1

/-- Two object types have the same paths from a spread, if it applies to both or to none, and if
then they have the same paths through the fragment. -/
theorem pathFrom_spread_congr {head : SpreadSelection} {fragment : Fragment}
    (hmerge : options.mergeSpreads = true) (hget : table.get? head.fragment = some fragment) :
    (∀ rest last, table.PathFrom options type (.spread head) rest last ↔
      table.PathFrom options other (.spread head) rest last) ↔
    (type ∈ head.possible ↔ other ∈ head.possible) ∧ ∀ rest last,
      (type ∈ head.possible ∧
          table.Path options type fragment.selections.selections rest last) ↔
        (other ∈ head.possible ∧
          table.Path options other fragment.selections.selections rest last) := by
  simp only [PathFrom, hmerge, hget, Option.some.injEq, exists_eq_left', true_and]
  constructor
  · intro h
    -- The empty list of places stands for the spread itself, any other for a path through it.
    refine ⟨by simpa using h [] (.spread head), fun rest last => ?_⟩
    by_cases hrest : rest = []
    · rw [hrest]
      simp
    · simpa [hrest] using h rest last
  · rintro ⟨htypes, hinner⟩ rest last
    rw [and_or_left, and_or_left]
    exact or_congr (and_congr_left fun _ => htypes) (hinner rest last)

/-! ## What spreads apply to -/

section SpreadsWithin

variable {set nested : SelectionSet}

theorem SpreadsWithin.inline (h : table.SpreadsWithin set) {head : InlineSelection}
    (hmem : .inline head nested ∈ set.selections) : table.SpreadsWithin nested :=
  fun inner hcontains => h inner (.inline hmem hcontains)

theorem SpreadsWithin.possible_eq (h : table.SpreadsWithin set) {head : SpreadSelection}
    {fragment : Fragment} (hmem : .spread head ∈ set.selections)
    (hget : table.get? head.fragment = some fragment) :
    head.possible = fragment.selections.possible ∩ set.possible := by
  obtain ⟨found, hfound, hpossible⟩ := h set (.self set) head hmem
  rwa [Option.some.inj (hget.symm.trans hfound)]

/-- A spread at the end of a path is one of a fragment that applies to the object type. -/
theorem Path.mem_fragment {head : SpreadSelection}
    (htable : table.AllSpreadsWithin) (hset : table.SpreadsWithin set)
    (hsub : ∀ selection ∈ selections, selection ∈ set.selections)
    (h : table.Path options type selections places (.spread head)) :
    ∃ fragment, table.get? head.fragment = some fragment ∧ type ∈ fragment.selections.possible := by
  generalize hend : Selection.spread head = target at h
  induction h generalizing set with
  | field => exact nomatch hend
  | spread hplace htype =>
      cases hend
      obtain ⟨fragment, hget, hpossible⟩ :=
        hset set (.self set) head (hsub _ (List.mem_of_getElem? hplace))
      rw [hpossible] at htype
      exact ⟨fragment, hget, (PossibleTypes.mem_inter.mp htype).1⟩
  | fragment _ _ _ hget _ ih => exact ih (htable _ _ hget) (fun _ hmem => hmem) hend
  | inline hplace _ _ ih =>
      exact ih (hset.inline (hsub _ (List.mem_of_getElem? hplace))) (fun _ hmem => hmem) hend

/-- Where the fragment of a spread was spread before, the paths so far decide about the paths from
the spread: an object type with the same paths has those as well. -/
theorem SamePaths.pathFrom_spread {head : SpreadSelection} (htable : table.AllSpreadsWithin)
    (hset : table.SpreadsWithin set)
    (hsub : ∀ selection ∈ before ++ [.spread head], selection ∈ set.selections)
    (h : table.SamePaths options before type other)
    (hknown : table.PathToSpread options before type head.fragment) (hother : other ∈ set.possible)
    (hfrom : table.PathFrom options type (.spread head) rest last) :
    table.PathFrom options other (.spread head) rest last := by
  obtain ⟨earlier, places, hsame, hpath⟩ := hknown
  have hpath' := (h places _).mp hpath
  obtain ⟨fragment, hget, hmem⟩ := hpath'.mem_fragment htable hset fun selection hmem =>
    hsub selection (List.mem_append_left _ hmem)
  -- The fragment and the selection set both have the other type, so the spread applies to it.
  have happlies : other ∈ head.possible := by
    rw [hset.possible_eq (hsub _ (by simp)) (hsame ▸ hget)]
    exact PossibleTypes.mem_inter.mpr ⟨hmem, hother⟩
  obtain ⟨-, hend | ⟨hmerge, body, hbody, hinner⟩⟩ := hfrom
  · exact ⟨happlies, Or.inl hend⟩
  · -- Behind the earlier spread the path runs through the same fragment.
    obtain rfl := Option.some.inj (hget.symm.trans (hsame ▸ hbody))
    have hrest : rest ≠ [] := by
      rintro rfl
      exact not_path_nil hinner
    rw [← path_append hmerge hget hpath hrest, h, path_append hmerge hget hpath' hrest] at hinner
    exact ⟨happlies, Or.inr ⟨hmerge, fragment, hbody, hinner⟩⟩

end SpreadsWithin

end FragmentTable

end QueryShape
