import Mathlib.Data.Finset.Card
import Mathlib.Logic.Relation
import QueryShape.Executable.Basic

/-!
# Depth-first order

Places are visited in depth-first order: a place that is not known yet becomes known, then
everything that it leads to is visited, and then the places behind it. The order is a relation
here and needs no bound on the depth, so it says the same of numbers in a table, of names in
documents, and of places that lead back to each other.

## What this module delivers

- `DepthFirst`: visiting places, from those known before to those known after.
- `DepthFirst.unique`, `depthFirst_append`: there is one outcome, and lists are visited one after
  the other.
- `DepthFirst.mem_iff`, `DepthFirst.nodup`: what is visited is what can be reached, each place once.
- `DepthFirst.congr`, `DepthFirst.map`: the same order for places that lead to the same, and under
  other names.
- `FragmentTable.reachable_depthFirst`: what a table of fragments lists as reachable is visited in
  depth-first order, whatever the table.
-/

set_option autoImplicit false

namespace QueryShape

variable {α β : Type} {next : α → List α} {known middle out places : List α}

/-- Visiting places in depth-first order: what is known before, the places, what is known after. -/
inductive DepthFirst (next : α → List α) : List α → List α → List α → Prop
  | done (known : List α) : DepthFirst next known [] known
  | pass {known out rest : List α} {place : α} :
      place ∈ known → DepthFirst next known rest out → DepthFirst next known (place :: rest) out
  | visit {known middle out rest : List α} {place : α} :
      place ∉ known → DepthFirst next (known ++ [place]) (next place) middle →
      DepthFirst next middle rest out → DepthFirst next known (place :: rest) out

/-! ## One outcome -/

/-- What is known stays known, at its place. -/
theorem DepthFirst.isPrefix (h : DepthFirst next known places out) : known <+: out := by
  induction h with
  | done known => exact List.prefix_refl known
  | pass _ _ ih => exact ih
  | visit _ _ _ ihinner ih => exact ((List.prefix_append _ _).trans ihinner).trans ih

theorem DepthFirst.mem_of_known (h : DepthFirst next known places out) {place : α}
    (hplace : place ∈ known) : place ∈ out :=
  h.isPrefix.subset hplace

/-- All places that are visited are known afterwards. -/
theorem DepthFirst.mem_of_mem (h : DepthFirst next known places out) :
    ∀ place ∈ places, place ∈ out := by
  induction h with
  | done => exact fun _ hmem => absurd hmem List.not_mem_nil
  | pass hknown hrest ih =>
      exact List.forall_mem_cons.mpr ⟨hrest.mem_of_known hknown, ih⟩
  | visit _ hinner hrest _ ih =>
      refine List.forall_mem_cons.mpr ⟨?_, ih⟩
      exact hrest.mem_of_known (hinner.mem_of_known (List.mem_append_right _ List.mem_cons_self))

/-- Visiting has at most one outcome. -/
theorem DepthFirst.unique {out' : List α} (h : DepthFirst next known places out)
    (h' : DepthFirst next known places out') : out' = out := by
  induction h generalizing out' with
  | done =>
      cases h'
      rfl
  | pass hknown _ ih =>
      cases h' with
      | pass _ hrest => exact ih hrest
      | visit hnew => exact absurd hknown hnew
  | visit hnew _ _ ihinner ih =>
      cases h' with
      | pass hknown => exact absurd hknown hnew
      | visit _ hinner hrest =>
          obtain rfl := ihinner hinner
          exact ih hrest

@[simp] theorem depthFirst_nil : DepthFirst next known [] out ↔ out = known := by
  constructor
  · intro h
    cases h
    rfl
  · rintro rfl
    exact .done _

/-- Places that are known already are passed over. -/
theorem depthFirst_cons_of_mem {place : α} (hknown : place ∈ known) :
    DepthFirst next known (place :: places) out ↔ DepthFirst next known places out := by
  constructor
  · intro h
    cases h with
    | pass _ hrest => exact hrest
    | visit hnew => exact absurd hknown hnew
  · exact .pass hknown

/-- The first place is visited before the others. -/
theorem depthFirst_cons {place : α} :
    DepthFirst next known (place :: places) out ↔
      ∃ middle, DepthFirst next known [place] middle ∧ DepthFirst next middle places out := by
  constructor
  · intro h
    cases h with
    | pass hknown hrest => exact ⟨known, .pass hknown (.done known), hrest⟩
    | visit hnew hinner hrest => exact ⟨_, .visit hnew hinner (.done _), hrest⟩
  · rintro ⟨middle, hfirst, hrest⟩
    cases hfirst with
    | pass hknown hnone =>
        rw [depthFirst_nil] at hnone
        exact .pass hknown (hnone ▸ hrest)
    | visit hnew hinner hnone =>
        rw [depthFirst_nil] at hnone
        exact .visit hnew hinner (hnone ▸ hrest)

/-- Visiting one list of places after another. -/
theorem depthFirst_append {first second : List α} :
    DepthFirst next known (first ++ second) out ↔
      ∃ middle, DepthFirst next known first middle ∧ DepthFirst next middle second out := by
  induction first generalizing known with
  | nil => simp
  | cons place first ih =>
      rw [List.cons_append, depthFirst_cons]
      simp only [ih, @depthFirst_cons _ _ known _ first]
      constructor
      · rintro ⟨before, hplace, middle, hfirst, hsecond⟩
        exact ⟨middle, ⟨before, hplace, hfirst⟩, hsecond⟩
      · rintro ⟨middle, ⟨before, hplace, hfirst⟩, hsecond⟩
        exact ⟨before, hplace, middle, hfirst, hsecond⟩

/-- Two lists may be exchanged for others, one after the other. The places that the first list makes
known are known when the second list is visited. -/
theorem depthFirst_append_congr {first first' second second' : List α}
    (hfirst : ∀ middle, DepthFirst next known first middle ↔ DepthFirst next known first' middle)
    (hsecond : ∀ middle, DepthFirst next known first' middle →
      (DepthFirst next middle second out ↔ DepthFirst next middle second' out)) :
    DepthFirst next known (first ++ second) out ↔
      DepthFirst next known (first' ++ second') out := by
  rw [depthFirst_append, depthFirst_append]
  refine exists_congr fun middle => ?_
  rw [hfirst middle]
  exact and_congr_right (hsecond middle)

/-! ## What is visited -/

theorem DepthFirst.nodup (h : DepthFirst next known places out) (hknown : known.Nodup) :
    out.Nodup := by
  induction h with
  | done => exact hknown
  | pass _ _ ih => exact ih hknown
  | visit hnew _ _ ihinner ih =>
      refine ih (ihinner (List.nodup_append.mpr ⟨hknown, List.nodup_singleton _, ?_⟩))
      intro other hother inner hinner heq
      obtain rfl := List.mem_singleton.mp hinner
      exact hnew (heq ▸ hother)

/-- A place that becomes known brings along what it leads to. -/
theorem DepthFirst.closed (h : DepthFirst next known places out) :
    ∀ place ∈ out, place ∈ known ∨ ∀ inner ∈ next place, inner ∈ out := by
  induction h with
  | done => exact fun _ => Or.inl
  | pass _ _ ih => exact ih
  | visit _ hinner hrest ihinner ih =>
      -- A place is known from the start, or it is this one, or it was met below it or behind it.
      intro place hplace
      rcases ih place hplace with hmiddle | hclosed
      · rcases ihinner place hmiddle with hbefore | hclosed
        · rcases List.mem_append.mp hbefore with hknown | hself
          · exact Or.inl hknown
          · obtain rfl := List.mem_singleton.mp hself
            exact Or.inr fun inner hmem => hrest.mem_of_known (hinner.mem_of_mem inner hmem)
        · exact Or.inr fun inner hmem => hrest.mem_of_known (hclosed inner hmem)
      · exact Or.inr hclosed

/-- Whether one place leads to another, over any number of steps. -/
def LeadsTo (next : α → List α) : α → α → Prop :=
  Relation.ReflTransGen fun place inner => inner ∈ next place

/-- Only what can be reached becomes known. -/
theorem DepthFirst.reached (h : DepthFirst next known places out) :
    ∀ place ∈ out, place ∈ known ∨ ∃ root ∈ places, LeadsTo next root place := by
  induction h with
  | done => exact fun _ => Or.inl
  | pass _ _ ih =>
      intro place hplace
      rcases ih place hplace with hknown | ⟨root, hroot, hleads⟩
      · exact Or.inl hknown
      · exact Or.inr ⟨root, List.mem_cons_of_mem _ hroot, hleads⟩
  | visit _ _ _ ihinner ih =>
      intro place hplace
      rcases ih place hplace with hmiddle | ⟨root, hroot, hleads⟩
      · rcases ihinner place hmiddle with hbefore | ⟨root, hroot, hleads⟩
        · rcases List.mem_append.mp hbefore with hknown | hself
          · exact Or.inl hknown
          · obtain rfl := List.mem_singleton.mp hself
            exact Or.inr ⟨place, List.mem_cons_self, .refl⟩
        · exact Or.inr ⟨_, List.mem_cons_self, .head hroot hleads⟩
      · exact Or.inr ⟨root, List.mem_cons_of_mem _ hroot, hleads⟩

/-- From nothing, exactly what can be reached from the places becomes known. -/
theorem DepthFirst.mem_iff (h : DepthFirst next [] places out) {place : α} :
    place ∈ out ↔ ∃ root ∈ places, LeadsTo next root place := by
  constructor
  · intro hplace
    exact (h.reached place hplace).resolve_left List.not_mem_nil
  · rintro ⟨root, hroot, hleads⟩
    induction hleads with
    | refl => exact h.mem_of_mem root hroot
    | tail _ hstep ih => exact (h.closed _ ih).resolve_left List.not_mem_nil _ hstep

/-! ## The same order elsewhere -/

/-- The order depends only on what the visited places lead to. -/
theorem DepthFirst.congr {next' : α → List α} (h : DepthFirst next known places out)
    (hsame : ∀ place ∈ out, next' place = next place) : DepthFirst next' known places out := by
  induction h with
  | done known => exact .done known
  | pass hknown _ ih => exact .pass hknown (ih hsame)
  | @visit known middle out rest place hnew hinner hrest ihinner ih =>
      have hmiddle : ∀ inner ∈ middle, next' inner = next inner :=
        fun inner hmem => hsame inner (hrest.mem_of_known hmem)
      have hplace : place ∈ middle :=
        hinner.mem_of_known (List.mem_append_right _ List.mem_cons_self)
      refine .visit hnew ?_ (ih hsame)
      rw [hmiddle place hplace]
      exact ihinner hmiddle

/-- Entering places into a list, each at the end unless it is there, as in
`SelectionSet.spreads`. -/
def firstOf [BEq α] (known places : List α) : List α :=
  places.foldl (fun known place => if known.contains place then known else known ++ [place]) known

theorem mem_firstOf [BEq α] [LawfulBEq α] {entered places : List α} {place : α} :
    place ∈ firstOf entered places ↔ place ∈ entered ∨ place ∈ places := by
  induction places generalizing entered with
  | nil => simp [firstOf]
  | cons first places ih =>
      rw [firstOf, List.foldl_cons, ← firstOf, ih, List.mem_cons, ← or_assoc]
      refine or_congr_left ?_
      split
      · next hcontains =>
          -- The first place is there already.
          rw [List.contains_iff_mem] at hcontains
          exact (or_iff_left_of_imp fun heq => heq ▸ hcontains).symm
      · rw [List.mem_append, List.mem_singleton]

/-- Leaving out all but the first occurrence of each place changes nothing, also under other
names. -/
theorem depthFirst_map_firstOf [BEq α] [LawfulBEq α] {next : β → List β} {known out : List β}
    (f : α → β) (entered places : List α) :
    DepthFirst next known ((firstOf entered places).map f) out ↔
      DepthFirst next known ((entered ++ places).map f) out := by
  induction places generalizing entered with
  | nil => rw [firstOf, List.foldl_nil, List.append_nil]
  | cons place places ih =>
      rw [firstOf, List.foldl_cons]
      by_cases hentered : place ∈ entered
      · -- The second time the place is known.
        rw [if_pos (List.contains_iff_mem.mpr hentered)]
        refine (ih entered).trans ?_
        simp only [List.map_append, List.map_cons, depthFirst_append]
        refine exists_congr fun middle => and_congr_right fun hfirst => ?_
        exact (depthFirst_cons_of_mem (hfirst.mem_of_mem _ (List.mem_map_of_mem hentered))).symm
      · rw [if_neg (fun h => hentered (List.contains_iff_mem.mp h))]
        refine (ih (entered ++ [place])).trans ?_
        rw [List.append_assoc, List.singleton_append]

/-- The order under other names. The names of the places that can be met are distinct, and what
the name of a place leads to is visited like the names of what the place leads to. -/
theorem DepthFirst.map {next' : β → List β} {f : α → β} {meets : α → Prop}
    (hmeets : ∀ place, meets place → ∀ inner ∈ next place, meets inner)
    (hdistinct : ∀ place other, meets place → meets other → f place = f other → place = other)
    (hnext : ∀ place, meets place → ∀ before after,
      DepthFirst next' before ((next place).map f) after →
        DepthFirst next' before (next' (f place)) after)
    (h : DepthFirst next known places out) (hknown : ∀ place ∈ known, meets place)
    (hplaces : ∀ place ∈ places, meets place) :
    (∀ place ∈ out, meets place) ∧ DepthFirst next' (known.map f) (places.map f) (out.map f) := by
  induction h with
  | done known => exact ⟨hknown, .done _⟩
  | pass hmem _ ih =>
      obtain ⟨hout, hrest⟩ := ih hknown (List.forall_mem_cons.mp hplaces).2
      exact ⟨hout, .pass (List.mem_map_of_mem hmem) hrest⟩
  | @visit known middle out rest place hnew _ _ ihinner ih =>
      -- Here the names have to be distinct, or the place could be known under the name of another.
      obtain ⟨hplace, hlater⟩ := List.forall_mem_cons.mp hplaces
      have hbefore : ∀ other ∈ known ++ [place], meets other :=
        List.forall_mem_append.mpr ⟨hknown, List.forall_mem_singleton.mpr hplace⟩
      obtain ⟨hmiddle, hinner⟩ := ihinner hbefore (hmeets place hplace)
      obtain ⟨hout, hrest⟩ := ih hmiddle hlater
      refine ⟨hout, .visit ?_ (hnext place hplace _ _ ?_) hrest⟩
      · rw [List.mem_map]
        rintro ⟨other, hother, heq⟩
        exact hnew (hdistinct other place (hknown other hother) hplace heq ▸ hother)
      · rw [List.map_append] at hinner
        exact hinner

/-! ## How much is left -/

section Missing

variable [DecidableEq α] {all : List α}

/-- How many places of a list are not known. -/
def missing (all known : List α) : Nat :=
  (all.toFinset \ known.toFinset).card

theorem missing_le_length (all known : List α) : missing all known ≤ all.length :=
  (Finset.card_le_card Finset.sdiff_subset).trans (List.toFinset_card_le all)

theorem missing_le_of_isPrefix (h : known <+: out) : missing all out ≤ missing all known := by
  refine Finset.card_le_card (Finset.sdiff_subset_sdiff subset_rfl fun place hplace => ?_)
  rw [List.mem_toFinset] at hplace ⊢
  exact h.subset hplace

/-- A place of the list that becomes known leaves fewer. -/
theorem missing_concat_lt {place : α} (hmem : place ∈ all) (hnew : place ∉ known) :
    missing all (known ++ [place]) < missing all known := by
  refine Finset.card_lt_card (Finset.ssubset_iff_subset_ne.mpr ⟨?_, fun heq => ?_⟩)
  · refine Finset.sdiff_subset_sdiff subset_rfl fun other hother => ?_
    rw [List.mem_toFinset] at hother ⊢
    exact List.mem_append_left _ hother
  · have hplace : place ∈ all.toFinset \ known.toFinset := by simp [hmem, hnew]
    rw [← heq] at hplace
    simp at hplace

end Missing

/-! ## Tables of fragments -/

namespace FragmentTable

/-- The fragments that a fragment spreads itself; none if the table lacks it. -/
def spreadsOf (table : FragmentTable) (id : FragmentId) : List FragmentId :=
  ((table.get? id).map Fragment.spreads).getD []

/-- How many fragments of a table are not known. -/
def unknown (table : FragmentTable) (known : List FragmentId) : Nat :=
  missing (List.range table.size) known

variable {table : FragmentTable}

/-- Fragments are visited one after the other. With each the depth still covers what is left. -/
theorem foldl_visit_depthFirst {depth : Nat}
    (hvisit : ∀ known id, table.unknown known ≤ depth →
      DepthFirst table.spreadsOf known [id] (table.visit depth known id))
    (ids : List FragmentId) (known : List FragmentId) (hdepth : table.unknown known ≤ depth) :
    DepthFirst table.spreadsOf known ids (ids.foldl (table.visit depth) known) := by
  induction ids generalizing known with
  | nil => exact .done known
  | cons id ids ih =>
      have hfirst := hvisit known id hdepth
      rw [List.foldl_cons, depthFirst_cons]
      exact ⟨_, hfirst, ih _ ((missing_le_of_isPrefix hfirst.isPrefix).trans hdepth)⟩

/-- A fragment that is known already is passed over. -/
theorem visit_of_mem {depth : Nat} {known : List FragmentId} {id : FragmentId}
    (hknown : id ∈ known) : table.visit depth known id = known := by
  unfold visit
  rw [if_pos (List.contains_iff_mem.mpr hknown)]

/-- A number that the table lacks becomes known and leads nowhere. -/
theorem visit_of_get?_eq_none {depth : Nat} {known : List FragmentId} {id : FragmentId}
    (hnew : id ∉ known) (hget : table.get? id = none) :
    table.visit depth known id = known ++ [id] := by
  unfold visit
  rw [if_neg (fun h => hnew (List.contains_iff_mem.mp h)), hget]

/-- A fragment of the table becomes known, and then what it spreads is visited. -/
theorem visit_of_get?_eq_some {depth : Nat} {known : List FragmentId} {id : FragmentId}
    {fragment : Fragment} (hnew : id ∉ known) (hget : table.get? id = some fragment) :
    table.visit (depth + 1) known id =
      fragment.spreads.foldl (table.visit depth) (known ++ [id]) := by
  rw [visit, if_neg (fun h => hnew (List.contains_iff_mem.mp h))]
  simp only [hget]

/-- The depth is enough for a visit if it bounds the number of fragments that are not known. -/
theorem visit_depthFirst (depth : Nat) (known : List FragmentId) (id : FragmentId)
    (hdepth : table.unknown known ≤ depth) :
    DepthFirst table.spreadsOf known [id] (table.visit depth known id) := by
  induction depth using Nat.strongRecOn generalizing known id with
  | ind depth ih =>
      by_cases hknown : id ∈ known
      · rw [visit_of_mem hknown]
        exact .pass hknown (.done known)
      · cases hget : table.get? id with
        | none =>
            rw [visit_of_get?_eq_none hknown hget]
            refine .visit hknown ?_ (.done _)
            rw [spreadsOf, hget]
            exact .done _
        | some fragment =>
            have hid : id ∈ List.range table.size :=
              List.mem_range.mpr (List.getElem?_eq_some_iff.mp hget).1
            -- The fragment itself was not known, so the depth is not used up.
            have hless : table.unknown (known ++ [id]) < depth :=
              Nat.lt_of_lt_of_le (missing_concat_lt hid hknown) hdepth
            cases depth with
            | zero => exact absurd hless (Nat.not_lt_zero _)
            | succ depth =>
                rw [visit_of_get?_eq_some hknown hget]
                refine .visit hknown ?_ (.done _)
                rw [spreadsOf, hget]
                exact foldl_visit_depthFirst (ih depth (Nat.lt_succ_self depth)) fragment.spreads _
                  (Nat.le_of_lt_succ hless)

/-- What a table lists as reachable is what is visited in depth-first order. Nothing is asked of
the table: numbers may lead nowhere, and fragments back to each other. -/
theorem reachable_depthFirst (table : FragmentTable) (roots : List FragmentId) :
    DepthFirst table.spreadsOf [] roots (table.reachable roots) := by
  refine foldl_visit_depthFirst (visit_depthFirst table.size) roots [] ?_
  exact (missing_le_length _ _).trans_eq List.length_range

end FragmentTable

end QueryShape
