import QueryShape.Proofs.Abridgement
import QueryShape.Proofs.DepthFirst

/-!
# Depth-first order without a memory

Visiting in depth-first order keeps a list of what is known, and each place is followed once. The
order that results can be told without such a list. Follow every place each time that it is met, and
stop only where a path comes back to a place that it has left. This lists places in preorder, many of
them often, and their first occurrences stand in the order in which they would be visited.

A place that is passed over because it is known has been finished, or it lies on the path. What is
listed below a finished place is known already, so listing it again adds no first occurrence.

## What this module delivers

- `Unfolds`: listing places in preorder with all that they lead to.
- `Unfolds.unique`, `exists_unfolds`: there is exactly one such listing of finitely many places.
- `DepthFirst.eq_eraseDups`: visiting finds the first occurrences of the listing.
-/

set_option autoImplicit false

namespace QueryShape

variable {α : Type} {next : α → List α} {path known out places listed : List α}

/-- Listing places in preorder, each with what it leads to, where a path stops at its own places: the
path so far, the places, what is listed. -/
inductive Unfolds (next : α → List α) : List α → List α → List α → Prop
  | nil (path : List α) : Unfolds next path [] []
  | stop {path rest listed : List α} {place : α} :
      place ∈ path → Unfolds next path rest listed → Unfolds next path (place :: rest) listed
  | follow {path below rest listed : List α} {place : α} :
      place ∉ path → Unfolds next (path ++ [place]) (next place) below →
      Unfolds next path rest listed →
      Unfolds next path (place :: rest) (place :: (below ++ listed))

/-! ## One listing -/

theorem Unfolds.unique {listed' : List α} (h : Unfolds next path places listed)
    (h' : Unfolds next path places listed') : listed' = listed := by
  induction h generalizing listed' with
  | nil =>
      cases h'
      rfl
  | stop hback _ ih =>
      cases h' with
      | stop _ hrest => exact ih hrest
      | follow hnew => exact absurd hback hnew
  | follow hnew _ _ ihbelow ih =>
      cases h' with
      | stop hback => exact absurd hback hnew
      | follow _ hbelow hrest => rw [ihbelow hbelow, ih hrest]

/-- Places that lead to finitely many others have a listing: with each step of a path, fewer places
are left that it has not met. -/
theorem exists_unfolds [DecidableEq α] {all : List α}
    (hclosed : ∀ place ∈ all, ∀ inner ∈ next place, inner ∈ all) (path : List α)
    (hplaces : ∀ place ∈ places, place ∈ all) : ∃ listed, Unfolds next path places listed := by
  induction hleft : missing all path using Nat.strongRecOn generalizing path places with
  | ind left ih =>
      induction places with
      | nil => exact ⟨[], .nil path⟩
      | cons place rest ihrest =>
          obtain ⟨hplace, hrest⟩ := List.forall_mem_cons.mp hplaces
          obtain ⟨listed, hlisted⟩ := ihrest hrest
          by_cases hback : place ∈ path
          · exact ⟨listed, .stop hback hlisted⟩
          · have hless : missing all (path ++ [place]) < left :=
              hleft ▸ missing_concat_lt hplace hback
            obtain ⟨below, hbelow⟩ := ih _ hless (path ++ [place]) (hclosed place hplace) rfl
            exact ⟨_, .follow hback hbelow hlisted⟩

/-! ## First occurrences -/

/-- Only the places of a path may lead to places that are not known. -/
def ClosedApart (next : α → List α) (path known : List α) : Prop :=
  ∀ place ∈ known, place ∈ path ∨ ∀ inner ∈ next place, inner ∈ known

/-- Nothing new is listed for places that are known already. -/
theorem Unfolds.mem_of_known (h : Unfolds next path places listed)
    (hclosed : ClosedApart next path known) (hplaces : ∀ place ∈ places, place ∈ known) :
    ∀ place ∈ listed, place ∈ known := by
  induction h with
  | nil => exact fun _ hmem => absurd hmem List.not_mem_nil
  | stop _ _ ih => exact ih hclosed (List.forall_mem_cons.mp hplaces).2
  | follow hnew _ _ ihbelow ih =>
      obtain ⟨hplace, hrest⟩ := List.forall_mem_cons.mp hplaces
      have hbelow := (hclosed _ hplace).resolve_left hnew
      refine List.forall_mem_cons.mpr ⟨hplace, List.forall_mem_append.mpr ⟨?_, ?_⟩⟩
      · apply ihbelow _ hbelow
        intro other hother
        exact (hclosed other hother).imp_left (List.mem_append_left _)
      · exact ih hclosed hrest

section Entering

variable [DecidableEq α]

theorem firstOf_append (known places more : List α) :
    firstOf known (places ++ more) = firstOf (firstOf known places) more :=
  List.foldl_append

theorem firstOf_of_subset (h : ∀ place ∈ places, place ∈ known) : firstOf known places = known := by
  induction places with
  | nil => rfl
  | cons place places ih =>
      obtain ⟨hplace, hrest⟩ := List.forall_mem_cons.mp h
      rw [firstOf, List.foldl_cons, if_pos (List.contains_iff_mem.mpr hplace)]
      exact ih hrest

theorem firstOf_cons_of_not_mem {place : α} (hnew : place ∉ known) :
    firstOf known (place :: places) = firstOf (known ++ [place]) places := by
  rw [firstOf, List.foldl_cons, if_neg (fun h => hnew (List.contains_iff_mem.mp h))]
  rfl

/-- Entering places one after the other keeps first occurrences. -/
theorem eraseDups_append_eq_firstOf (known places : List α) :
    (known ++ places).eraseDups = firstOf known.eraseDups places := by
  induction places using List.reverseRecOn with
  | nil =>
      rw [List.append_nil]
      rfl
  | append_singleton places place ih =>
      rw [← List.append_assoc, eraseDups_concat, ih, firstOf_append]
      by_cases hmem : place ∈ known ++ places
      · have hfirst : place ∈ firstOf known.eraseDups places := by
          rw [← ih]
          exact List.mem_eraseDups.mpr hmem
        rw [if_pos hmem, firstOf_of_subset (List.forall_mem_singleton.mpr hfirst)]
      · have hfirst : place ∉ firstOf known.eraseDups places := by
          rw [← ih, List.mem_eraseDups]
          exact hmem
        rw [if_neg hmem, firstOf_cons_of_not_mem hfirst]
        rfl

/-- While a path is followed, visiting enters what is listed. -/
theorem DepthFirst.eq_firstOf (h : DepthFirst next known places out)
    (hlisted : Unfolds next path places listed) (hpath : ∀ place ∈ path, place ∈ known)
    (hclosed : ClosedApart next path known) : out = firstOf known listed := by
  induction h generalizing path listed with
  | done =>
      cases hlisted
      rfl
  | @pass known out rest place hknown _ ih =>
      cases hlisted with
      | stop _ hrest => exact ih hrest hpath hclosed
      | @follow _ below _ later _ hnew hbelow hrest =>
          -- The place is finished, so all that is listed for it is known.
          have hsingle : Unfolds next path [place] (place :: (below ++ [])) :=
            .follow hnew hbelow (.nil path)
          have hnone := firstOf_of_subset
            (hsingle.mem_of_known hclosed (List.forall_mem_singleton.mpr hknown))
          rw [List.append_nil] at hnone
          rw [← List.cons_append, firstOf_append, hnone]
          exact ih hrest hpath hclosed
  | @visit known middle out rest place hunknown hinner _ ihinner ih =>
      cases hlisted with
      | stop hback => exact absurd (hpath place hback) hunknown
      | @follow _ below _ later _ hnew hbelow hrest =>
          have hmiddle : middle = firstOf (known ++ [place]) below := by
            apply ihinner hbelow
            · intro other hother
              exact (List.mem_append.mp hother).elim
                (fun hmem => List.mem_append_left _ (hpath other hmem)) (List.mem_append_right _)
            · intro other hother
              rcases List.mem_append.mp hother with hmem | hself
              · rcases hclosed other hmem with hback | hall
                · exact Or.inl (List.mem_append_left _ hback)
                · exact Or.inr fun inner h => List.mem_append_left _ (hall inner h)
              · exact Or.inl (List.mem_append_right _ hself)
          have hkept : ∀ other ∈ known, other ∈ middle :=
            fun other hmem => hinner.mem_of_known (List.mem_append_left _ hmem)
          rw [firstOf_cons_of_not_mem hunknown, firstOf_append, ← hmiddle]
          apply ih hrest
          · exact fun other hother => hkept other (hpath other hother)
          · -- The place is finished now, and what was finished before still is.
            intro other hother
            rcases hinner.closed other hother with hmem | hall
            · rcases List.mem_append.mp hmem with hmem | hself
              · rcases hclosed other hmem with hback | hall
                · exact Or.inl hback
                · exact Or.inr fun inner h => hkept inner (hall inner h)
              · obtain rfl := List.mem_singleton.mp hself
                exact Or.inr hinner.mem_of_mem
            · exact Or.inr hall

/-- Places have a listing if visiting them has an outcome, and the outcome is the first occurrences
of what is known before and then of what is listed. -/
theorem DepthFirst.eq_eraseDups (h : DepthFirst next known places out) (hnodup : known.Nodup)
    (hknown : ∀ place ∈ known, ∀ inner ∈ next place, inner ∈ known) :
    ∃ listed, Unfolds next [] places listed ∧ out = (known ++ listed).eraseDups := by
  have hout : ∀ place ∈ out, ∀ inner ∈ next place, inner ∈ out := by
    intro place hplace
    rcases h.closed place hplace with hmem | hall
    · exact fun inner hinner => h.mem_of_known (hknown place hmem inner hinner)
    · exact hall
  obtain ⟨listed, hlisted⟩ := exists_unfolds hout [] h.mem_of_mem
  refine ⟨listed, hlisted, ?_⟩
  rw [eraseDups_append_eq_firstOf, eraseDups_of_nodup hnodup]
  exact h.eq_firstOf hlisted (fun _ hmem => absurd hmem List.not_mem_nil)
    fun place hplace => Or.inr (hknown place hplace)

theorem DepthFirst.eq_eraseDups_of_nil (h : DepthFirst next [] places out) :
    ∃ listed, Unfolds next [] places listed ∧ out = listed.eraseDups :=
  h.eq_eraseDups List.nodup_nil fun _ hmem => absurd hmem List.not_mem_nil

end Entering

end QueryShape
