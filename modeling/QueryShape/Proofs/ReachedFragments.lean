import QueryShape.Proofs.BoundedRecursion
import QueryShape.Proofs.FragmentOrder
import QueryShape.Proofs.Preorder

/-!
# Fragments that are reached

Following spreads from some fragments visits everything that they lead to, once each and in
depth-first order. That needs nothing of the table: numbers that it lacks lead nowhere, and fragments
that lead back to each other are passed over the second time. Nor does it need the depth that bounds
it: each step down adds a fragment of the table, so the visits end by themselves.

In a compiled document the numbers that an operation reaches stand for the names that its definition
reaches as written, although compiling left out repeated spreads. So a fragment is unused exactly if
no operation spreads its name, by itself or by fragments.

## What this module delivers

- `FragmentTable.Visits`, `FragmentTable.visits_iff`: visiting as a recursion without a depth, which
  has one solution.
- `Source.Unused`: names that no operation reaches as written.
- `CompiledFrom.mem_closure_iff`: the numbers that an operation reaches, by name.
- `CompiledFrom.mem_reached_iff`: the numbers that some operation reaches.
- `Schema.fragments_reached`: the closure of any roots, and the fragments that are unused.
-/

set_option autoImplicit false

namespace QueryShape

/-- No operation of the documents spreads a name, by itself or by fragments that it reaches. -/
def Source.Unused (texts : List SourceText) (name : String) : Prop :=
  ∀ source ∈ operationSources texts, ¬ Source.Needs texts source.2.selections name

/-! ## Lists -/

section Lists

variable {α β : Type}

/-- Whether some entry has a property can be asked on either side of entries that correspond. -/
theorem exists_mem_iff_of_forall₂ {corresponds : α → β → Prop} {holds : α → Prop}
    {holds' : β → Prop} {entries : List α} {entries' : List β}
    (h : List.Forall₂ corresponds entries entries')
    (hsame : ∀ entry entry', corresponds entry entry' → (holds entry ↔ holds' entry')) :
    (∃ entry ∈ entries, holds entry) ↔ ∃ entry' ∈ entries', holds' entry' := by
  induction h with
  | nil => simp
  | cons hentry _ ih => simp only [List.exists_mem_cons_iff, hsame _ _ hentry, ih]

/-- Leaving out listed places is filtering, if an entry fails the test exactly if its place is
listed. -/
theorem map_fst_filter_zipIdx {entries : List α} {listed : List Nat} {test : α → Bool}
    (h : ∀ place entry, entries[place]? = some entry → (place ∈ listed ↔ test entry = false)) :
    (entries.zipIdx.filter fun pair => !listed.contains pair.2).map Prod.fst =
      entries.filter test := by
  have hpairs : entries.zipIdx.filter (fun pair => !listed.contains pair.2) =
      entries.zipIdx.filter (test ∘ Prod.fst) := by
    apply List.filter_congr
    rintro ⟨entry, place⟩ hpair
    have hplace := h place entry (List.mk_mem_zipIdx_iff_getElem?.mp hpair)
    cases htest : test entry with
    | true => simp [htest, hplace]
    | false => simp [htest, hplace]
  rw [hpairs, ← List.filter_map, List.zipIdx_map_fst]

end Lists

/-! ## Visits without a depth -/

namespace FragmentTable

variable {table : FragmentTable}

/-- One step of visiting a fragment. What the fragment spreads is visited by another function. -/
def visitStep (table : FragmentTable) (inner : List FragmentId → FragmentId → List FragmentId)
    (known : List FragmentId) (id : FragmentId) : List FragmentId :=
  if known.contains id then known
  else
    match table.get? id with
    | none => known ++ [id]
    | some fragment => fragment.spreads.foldl inner (known ++ [id])

/-- Visiting that visits in the same way what a fragment spreads, however far this leads. -/
def Visits (table : FragmentTable)
    (visit : List FragmentId → FragmentId → List FragmentId) : Prop :=
  ∀ known id, visit known id = visitStep table visit known id

/-- A fragment of the table that becomes known leaves fewer. -/
theorem unknown_concat_lt {known : List FragmentId} {id : FragmentId} {fragment : Fragment}
    (hnew : id ∉ known) (hget : table.get? id = some fragment) :
    table.unknown (known ++ [id]) < table.unknown known :=
  missing_concat_lt (List.mem_range.mpr (lt_size_of_get?_eq_some hget)) hnew

/-- What a fragment spreads matters only if the table has the fragment and it is not known. -/
theorem visitStep_congr {inner inner' : List FragmentId → FragmentId → List FragmentId}
    {known : List FragmentId} {id : FragmentId}
    (h : ∀ fragment, id ∉ known → table.get? id = some fragment →
      fragment.spreads.foldl inner (known ++ [id]) =
        fragment.spreads.foldl inner' (known ++ [id])) :
    visitStep table inner known id = visitStep table inner' known id := by
  unfold visitStep
  cases hknown : known.contains id with
  | true => rfl
  | false =>
      cases hget : table.get? id with
      | none => rfl
      | some fragment => exact h fragment (by simpa using hknown) hget

/-- Within a depth that covers the fragments that are not known, visiting is one step. -/
theorem visit_eq_visitStep {depth : Nat} {known : List FragmentId} (id : FragmentId)
    (hdepth : table.unknown known ≤ depth) :
    table.visit depth known id = visitStep table (table.visit (depth - 1)) known id := by
  unfold visitStep
  conv_lhs => unfold visit
  cases hknown : known.contains id with
  | true => rfl
  | false =>
      cases hget : table.get? id with
      | none => rfl
      | some fragment =>
          have hless := unknown_concat_lt (by simpa using hknown) hget
          obtain ⟨below, rfl⟩ :=
            Nat.exists_eq_succ_of_ne_zero (Nat.ne_zero_of_lt (Nat.lt_of_lt_of_le hless hdepth))
          rfl

/-- Fragments may be visited by any function that agrees where the depth covers what is left, since
visits never forget a fragment. -/
theorem foldl_visit_congr {bound depth : Nat} (hbound : bound ≤ depth)
    {visit : List FragmentId → FragmentId → List FragmentId}
    (hvisit : ∀ known id, table.unknown known ≤ bound →
      visit known id = table.visit depth known id)
    (ids : List FragmentId) {known : List FragmentId} (hknown : table.unknown known ≤ bound) :
    ids.foldl visit known = ids.foldl (table.visit depth) known := by
  induction ids generalizing known with
  | nil => rfl
  | cons id ids ih =>
      rw [List.foldl_cons, List.foldl_cons, hvisit known id hknown]
      have hgrows := (visit_depthFirst depth known id (hknown.trans hbound)).isPrefix
      exact ih ((missing_le_of_isPrefix hgrows).trans hknown)

/-- The fragments that are not known are what is left. -/
theorem boundedRecursion_visit : BoundedRecursion (visitStep table) table.visit table.unknown where
  unfolds hdepth := by
    funext id
    exact visit_eq_visitStep id hdepth
  descends {depth known visit} hdepth hvisit := by
    funext id
    apply visitStep_congr
    intro fragment hnew hget
    have hless := unknown_concat_lt hnew hget
    refine foldl_visit_congr (Nat.le_sub_one_of_lt (Nat.lt_of_lt_of_le hless hdepth))
      (fun other inner hother => ?_) _ (Nat.le_refl _)
    rw [hvisit other (Nat.lt_of_le_of_lt hother hless)]

theorem unknown_le_size (known : List FragmentId) : table.unknown known ≤ table.size :=
  (missing_le_length _ _).trans_eq List.length_range

/-- The recursion without a depth has one solution: to visit with the number of fragments as the
depth. -/
theorem visits_iff {visit : List FragmentId → FragmentId → List FragmentId} :
    table.Visits visit ↔ visit = table.visit table.size := by
  refine Iff.trans ?_ (boundedRecursion_visit.solves_iff unknown_le_size)
  simp only [Visits, funext_iff]

end FragmentTable

/-! ## Compiled documents -/

section Compiled

variable {schema : Schema} {texts : List SourceText} {definitions : Table FragmentSource}
  {document : CompiledDocument} {id : FragmentId} {fragment : Fragment}

/-- An operation reaches a fragment of the table exactly if its definition needs the name of the
fragment. -/
theorem CompiledFrom.mem_closure_iff (h : CompiledFrom schema texts definitions document)
    {file : Option FileName} {source : Source.Operation} {operation : Operation}
    (hcompiles : OperationCompiles schema document.fragments file source operation)
    (hget : document.fragments.get? id = some fragment) :
    id ∈ operation.closure document.fragments ↔
      Source.Needs texts source.selections fragment.name := by
  obtain ⟨reached, hclosure, hnames, hlt, -⟩ := h.exists_closure hcompiles
  rw [← hclosure.mem_iff, ← hnames, ← FragmentTable.nameOf_eq hget]
  constructor
  · intro hmem
    exact List.mem_map_of_mem hmem
  · intro hmem
    -- Some number of this name is reached, and there is one number of a name.
    obtain ⟨other, hother, heq⟩ := List.mem_map.mp hmem
    have hid : id < document.fragments.size := FragmentTable.lt_size_of_get?_eq_some hget
    obtain rfl := h.sound.nameOf_inj (hlt other hother) hid heq
    exact hother

/-- Some operation reaches a fragment exactly if some operation, as written, needs its name. -/
theorem CompiledFrom.mem_reached_iff (h : CompiledFrom schema texts definitions document)
    (hget : document.fragments.get? id = some fragment) :
    id ∈ document.operations.flatMap
        (fun operation => document.fragments.reachable operation.spreads) ↔
      ¬ Source.Unused texts fragment.name := by
  simp only [Source.Unused, not_forall, not_not, exists_prop, List.mem_flatMap]
  symm
  apply exists_mem_iff_of_forall₂ h.operations
  intro source operation hcompiles
  exact (h.mem_closure_iff hcompiles hget).symm

end Compiled

open Classical in
/-- In any table the visits end: without a bound on their depth they are a recursion that has one
solution, and by it the roots are visited in depth-first order. What is reached is everything that the
roots lead to, each once and in the preorder of a listing that follows every spread each time. The
unused fragments of a compiled document are those fragments of its table, in order, that no operation
of the documents needs as written. -/
theorem Schema.fragments_reached :
    (∀ (table : FragmentTable) (roots : List FragmentId),
      (∀ visit, table.Visits visit ↔ visit = table.visit table.size) ∧
        DepthFirst table.spreadsOf [] roots (table.reachable roots) ∧
        (table.reachable roots).Nodup ∧
        (∀ id, id ∈ table.reachable roots ↔ ∃ root ∈ roots, LeadsTo table.spreadsOf root id) ∧
        ∃ listed, Unfolds table.spreadsOf [] roots listed ∧
          table.reachable roots = listed.eraseDups) ∧
    ∀ (schema : Schema) (texts : List SourceText) (document : CompiledDocument),
      schema.compile texts = .ok document →
        document.unusedFragments = document.fragments.fragments.filter
          fun fragment => Source.Unused texts fragment.name := by
  constructor
  · intro table roots
    have hvisits := table.reachable_depthFirst roots
    exact ⟨fun _ => FragmentTable.visits_iff, hvisits, hvisits.nodup List.nodup_nil,
      fun id => hvisits.mem_iff, hvisits.eq_eraseDups_of_nil⟩
  · intro schema texts document hcompile
    obtain ⟨definitions, hfrom⟩ := Schema.compile_spec hcompile
    apply map_fst_filter_zipIdx
    intro id fragment hget
    rw [decide_eq_false_iff_not]
    exact hfrom.mem_reached_iff hget

/-! ## A sample -/

namespace Sample

/-- A fragment that spreads some numbers. -/
def spreading (ids : List FragmentId) : Fragment :=
  { (default : Fragment) with
    selections := ⟨"Node", default, ids.map fun id => .spread { (default : SpreadSelection) with
      fragment := id }⟩ }

/-- The fragments 0 and 1 spread each other, and there is no fragment 7. -/
def leadingBack : FragmentTable :=
  .ofFragments [spreading [1, 7], spreading [0, 2], spreading []]

/-- `query Q { node { ...F } }` with the fragments `F`, which spreads `G`, and `H`, which spreads
`G`. -/
def partlyUsed : List SourceText :=
  query [node [] [spread [] "F"]]
    [("H", [spread [] "G"]), ("F", [spread [] "G"]), ("G", [id none])]

end Sample

theorem Schema.fragments_reached_sample :
    (Sample.leadingBack.Visits (Sample.leadingBack.visit Sample.leadingBack.size) ∧
      Sample.leadingBack.reachable [1, 5] = [1, 0, 7, 2, 5] ∧
      (∃ root ∈ [1, 5], LeadsTo Sample.leadingBack.spreadsOf root 7) ∧
      ¬ ∃ root ∈ [1, 5], LeadsTo Sample.leadingBack.spreadsOf root 3) ∧
    ∃ document, Sample.schema.compile Sample.partlyUsed = .ok document ∧
      document.unusedFragments.map Fragment.name = ["H"] ∧
      Source.Unused Sample.partlyUsed "H" ∧ ¬ Source.Unused Sample.partlyUsed "G" := by
  constructor
  · have hreached : Sample.leadingBack.reachable [1, 5] = [1, 0, 7, 2, 5] := by decide
    obtain ⟨hvisits, -, -, hmem, -⟩ := Schema.fragments_reached.1 Sample.leadingBack [1, 5]
    rw [hreached] at hmem
    exact ⟨(hvisits _).mpr rfl, hreached, (hmem 7).mp (by decide),
      fun hleads => absurd ((hmem 3).mpr hleads) (by decide)⟩
  · have hcheck : ∃ document ∈ (Sample.schema.compile Sample.partlyUsed).toOption,
        document.fragments.fragments.map Fragment.name = ["G", "F", "H"] ∧
          document.unusedFragments.map Fragment.name = ["H"] := by
      decide +kernel
    simp only [Sample.mem_toOption] at hcheck
    obtain ⟨document, hcompile, hall, hunused⟩ := hcheck
    -- A fragment of the table is listed exactly if its name is unused.
    have hlisted : ∀ name, name ∈ document.fragments.fragments.map Fragment.name →
        (name ∈ document.unusedFragments.map Fragment.name ↔
          Source.Unused Sample.partlyUsed name) := by
      rw [Schema.fragments_reached.2 _ _ document hcompile]
      intro name hname
      simp only [List.mem_map, List.mem_filter, decide_eq_true_iff] at hname ⊢
      constructor
      · rintro ⟨fragment, ⟨-, hunused⟩, rfl⟩
        exact hunused
      · intro hunused
        obtain ⟨fragment, hfragment, rfl⟩ := hname
        exact ⟨fragment, ⟨hfragment, hunused⟩, rfl⟩
    rw [hall, hunused] at hlisted
    refine ⟨document, hcompile, hunused, (hlisted "H" (by decide)).mp (by decide), ?_⟩
    intro hused
    exact absurd ((hlisted "G" (by decide)).mpr hused) (by decide)

end QueryShape
