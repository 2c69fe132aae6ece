import Mathlib.Data.List.Induction

/-!
# Lists without some repetitions

What a selection set selects is a list of fields in order, and several steps leave out
fields that were selected before: a repeated spread is skipped, a field collected twice
counts once. None of this changes the order of first occurrence. This module states that
for two lists, once where both hold entries of one kind and once where they hold entries
of different kinds that correspond.

## What this module delivers

- `eraseDups_concat`, `eraseDups_map`, `eraseDups_filter`, `eraseDups_flatMap`: first
  occurrences, and what does not depend on later ones.
- `Abridges view kept all`: `kept` is `all` without some entries whose view occurs before.
  `Abridges.eraseDups_map` says that nothing but repetitions is lost, `Abridges.sublist`
  that what is kept is unchanged.
- `Follows R`, `Echoes R`: the same between lists of two kinds; either list may repeat what
  it has said before. `Echoes.eraseDups_map` compares first occurrences.
-/

set_option autoImplicit false

namespace QueryShape

variable {α β γ δ : Type}

/-! ## First occurrences -/

-- First occurrences depend on what comes before, so all inductions take off the last entry.

theorem eraseDups_concat [BEq α] [LawfulBEq α] (entries : List α) (entry : α) :
    (entries ++ [entry]).eraseDups =
      if entry ∈ entries then entries.eraseDups else entries.eraseDups ++ [entry] := by
  rw [List.eraseDups_append, List.removeAll]
  by_cases h : entry ∈ entries
  · simp [h]
  · simp [h, List.eraseDups_cons]

theorem nodup_eraseDups [BEq α] [LawfulBEq α] (entries : List α) : entries.eraseDups.Nodup := by
  induction entries using List.reverseRecOn with
  | nil => exact List.nodup_nil
  | append_singleton entries entry ih =>
      rw [eraseDups_concat]
      split
      · exact ih
      · next hnew =>
          rw [List.nodup_append]
          refine ⟨ih, by simp, fun earlier hearlier last hlast heq => hnew ?_⟩
          rw [← List.mem_singleton.mp hlast, ← heq]
          exact List.mem_eraseDups.mp hearlier

theorem eraseDups_of_nodup [BEq α] [LawfulBEq α] {entries : List α} (h : entries.Nodup) :
    entries.eraseDups = entries := by
  induction entries using List.reverseRecOn with
  | nil => rfl
  | append_singleton entries entry ih =>
      obtain ⟨hentries, -, hdistinct⟩ := List.nodup_append.mp h
      have hnew : entry ∉ entries := fun hmem =>
        hdistinct entry hmem entry (List.mem_singleton_self entry) rfl
      rw [eraseDups_concat, if_neg hnew, ih hentries]

/-- Lists with the same first occurrences have the same entries. -/
theorem mem_of_eraseDups_eq [BEq α] [LawfulBEq α] {first second : List α}
    (h : first.eraseDups = second.eraseDups) {entry : α} : entry ∈ first ↔ entry ∈ second := by
  rw [← List.mem_eraseDups, h, List.mem_eraseDups]

/-- Repetitions at the end do not count. -/
theorem eraseDups_append_of_subset [BEq α] [LawfulBEq α] {entries more : List α}
    (h : ∀ entry ∈ more, entry ∈ entries) : (entries ++ more).eraseDups = entries.eraseDups := by
  induction more using List.reverseRecOn with
  | nil => rw [List.append_nil]
  | append_singleton more entry ih =>
      have hmem : entry ∈ entries ++ more :=
        List.mem_append_left _ (h entry (List.mem_append_right _ (List.mem_singleton_self _)))
      rw [← List.append_assoc, eraseDups_concat, if_pos hmem]
      exact ih fun other hother => h other (List.mem_append_left _ hother)

/-- What a function gives for first occurrences decides the first of what it gives. -/
theorem eraseDups_flatMap [BEq α] [LawfulBEq α] [BEq γ] [LawfulBEq γ] (f : α → List γ)
    (entries : List α) : (entries.eraseDups.flatMap f).eraseDups =
      (entries.flatMap f).eraseDups := by
  induction entries using List.reverseRecOn with
  | nil => rfl
  | append_singleton entries entry ih =>
      rw [eraseDups_concat, List.flatMap_append, List.flatMap_singleton]
      by_cases hmem : entry ∈ entries
      · -- A repeated entry gives what was given before.
        have hknown : ∀ value ∈ f entry, value ∈ entries.flatMap f := fun value hvalue =>
          List.mem_flatMap.mpr ⟨entry, hmem, hvalue⟩
        rw [if_pos hmem, ih, eraseDups_append_of_subset hknown]
      · -- What a new entry gives is compared with the same values on both sides.
        rw [if_neg hmem, List.flatMap_append, List.flatMap_singleton, List.eraseDups_append,
          List.eraseDups_append, ih]
        simp only [List.removeAll]
        have hsame : ∀ value, (entries.eraseDups.flatMap f).elem value =
            (entries.flatMap f).elem value := by
          intro value
          rw [Bool.eq_iff_iff, List.elem_iff, List.elem_iff]
          exact mem_of_eraseDups_eq ih
        simp only [hsame]

theorem eraseDups_map [BEq α] [LawfulBEq α] [BEq γ] [LawfulBEq γ] (f : α → γ)
    (entries : List α) : (entries.eraseDups.map f).eraseDups = (entries.map f).eraseDups := by
  rw [List.map_eq_flatMap, List.map_eq_flatMap]
  exact eraseDups_flatMap _ entries

theorem eraseDups_filter [BEq α] [LawfulBEq α] (p : α → Bool) (entries : List α) :
    (entries.filter p).eraseDups = entries.eraseDups.filter p := by
  induction entries using List.reverseRecOn with
  | nil => rfl
  | append_singleton entries entry ih =>
      rw [eraseDups_concat, List.filter_append]
      cases hp : p entry with
      | false =>
          have hnone : [entry].filter p = [] := by simp [hp]
          rw [hnone, List.append_nil, ih]
          split
          · rfl
          · rw [List.filter_append, hnone, List.append_nil]
      | true =>
          have hone : [entry].filter p = [entry] := by simp [hp]
          have hmem : entry ∈ entries.filter p ↔ entry ∈ entries := by
            rw [List.mem_filter]
            exact and_iff_left hp
          rw [hone, eraseDups_concat, ih]
          simp only [hmem]
          split
          · rfl
          · rw [List.filter_append, hone]

/-! ## Abridgements -/

/-- A list without some entries whose view is that of an entry before them. -/
inductive Abridges (view : α → β) : List α → List α → Prop
  | nil : Abridges view [] []
  | keep {kept all : List α} (entry : α) :
      Abridges view kept all → Abridges view (kept ++ [entry]) (all ++ [entry])
  | leaveOut {kept all : List α} (entry : α) :
      Abridges view kept all → view entry ∈ kept.map view → Abridges view kept (all ++ [entry])

namespace Abridges

variable {view : α → β} {kept kept' all all' : List α}

theorem refl (view : α → β) (all : List α) : Abridges view all all := by
  induction all using List.reverseRecOn with
  | nil => exact .nil
  | append_singleton all entry ih => exact .keep entry ih

theorem sublist (h : Abridges view kept all) : kept.Sublist all := by
  induction h with
  | nil => exact List.Sublist.refl []
  | keep entry _ ih => exact ih.append_right [entry]
  | leaveOut entry _ _ ih => exact ih.trans (List.sublist_append_left _ [entry])

/-- Every view of the full list is one of the abridged list. -/
theorem mem_map (h : Abridges view kept all) {entry : α} (hentry : entry ∈ all) :
    view entry ∈ kept.map view := by
  induction h with
  | nil => exact absurd hentry List.not_mem_nil
  | keep last _ ih =>
      rw [List.map_append, List.mem_append]
      rcases List.mem_append.mp hentry with hbefore | hlast
      · exact Or.inl (ih hbefore)
      · exact Or.inr (List.mem_map_of_mem hlast)
  | leaveOut last _ hrepeats ih =>
      rcases List.mem_append.mp hentry with hbefore | hlast
      · exact ih hbefore
      · rw [List.mem_singleton.mp hlast]
        exact hrepeats

/-- The first occurrences are those of the full list, seen through anything that depends
on the view. -/
theorem eraseDups_map [BEq γ] [LawfulBEq γ] (f : α → γ)
    (hf : ∀ entry other, view entry = view other → f entry = f other)
    (h : Abridges view kept all) : (kept.map f).eraseDups = (all.map f).eraseDups := by
  induction h with
  | nil => rfl
  | @keep kept all entry hrest ih =>
      have hmem : f entry ∈ kept.map f ↔ f entry ∈ all.map f := mem_of_eraseDups_eq ih
      simp only [List.map_append, List.map_cons, List.map_nil, eraseDups_concat, hmem, ih]
  | @leaveOut kept all entry hrest hrepeats ih =>
      obtain ⟨earlier, hearlier, hview⟩ := List.mem_map.mp hrepeats
      have hmem : f entry ∈ all.map f := by
        rw [← mem_of_eraseDups_eq ih, ← hf earlier entry hview]
        exact List.mem_map_of_mem hearlier
      simp only [List.map_append, List.map_cons, List.map_nil, eraseDups_concat, hmem, if_true, ih]

/-- Entries that occur before may be left out all at once. -/
theorem leaveOut_all (h : Abridges view kept all) {more : List α}
    (hmore : ∀ entry ∈ more, view entry ∈ kept.map view) : Abridges view kept (all ++ more) := by
  induction more using List.reverseRecOn with
  | nil => rwa [List.append_nil]
  | append_singleton more entry ih =>
      rw [← List.append_assoc]
      refine .leaveOut entry (ih fun other hother => ?_) ?_
      · exact hmore other (List.mem_append_left _ hother)
      · exact hmore entry (List.mem_append_right _ (List.mem_singleton_self entry))

theorem append (h : Abridges view kept all) (h' : Abridges view kept' all') :
    Abridges view (kept ++ kept') (all ++ all') := by
  induction h' with
  | nil => simpa using h
  | keep entry _ ih =>
      rw [← List.append_assoc, ← List.append_assoc]
      exact .keep entry ih
  | leaveOut entry _ hrepeats ih =>
      rw [← List.append_assoc]
      refine .leaveOut entry ih ?_
      rw [List.map_append]
      exact List.mem_append_right _ hrepeats

/-- Entries may be changed in what the view does not show. -/
theorem map (f : α → α) (hf : ∀ entry, view (f entry) = view entry)
    (h : Abridges view kept all) : Abridges view (kept.map f) (all.map f) := by
  have hviews : ∀ entries : List α, (entries.map f).map view = entries.map view := by
    intro entries
    rw [List.map_map]
    exact List.map_congr_left fun entry _ => hf entry
  induction h with
  | nil => exact .nil
  | keep entry _ ih =>
      rw [List.map_append, List.map_append]
      exact .keep (f entry) ih
  | leaveOut entry _ hrepeats ih =>
      rw [List.map_append]
      refine .leaveOut (f entry) ih ?_
      rw [hviews, hf]
      exact hrepeats

end Abridges

/-! ## Echoes -/

/-- A list follows some entries: each of its values corresponds to the next of them, or to one
before that. -/
inductive Follows (R : α → β → Prop) : List α → List β → Prop
  | nil : Follows R [] []
  | advance {entries : List α} {values : List β} (entry : α) (value : β) :
      Follows R entries values → R entry value →
      Follows R (entries ++ [entry]) (values ++ [value])
  | turnBack {entries : List α} {values : List β} (entry : α) (value : β) :
      Follows R entries values → entry ∈ entries → R entry value →
      Follows R entries (values ++ [value])

/-- A list follows the first occurrences of the entries. -/
def Echoes [BEq α] (R : α → β → Prop) (entries : List α) (values : List β) : Prop :=
  Follows R entries.eraseDups values

namespace Follows

variable {R : α → β → Prop} {entries : List α} {values : List β}

theorem exists_value (h : Follows R entries values) {entry : α} (hentry : entry ∈ entries) :
    ∃ value ∈ values, R entry value := by
  induction h with
  | nil => exact absurd hentry List.not_mem_nil
  | advance last value _ hR ih =>
      rcases List.mem_append.mp hentry with hbefore | hlast
      · obtain ⟨earlier, hearlier, hR'⟩ := ih hbefore
        exact ⟨earlier, List.mem_append_left _ hearlier, hR'⟩
      · rw [List.mem_singleton.mp hlast]
        exact ⟨value, List.mem_append_right _ (List.mem_singleton_self _), hR⟩
  | turnBack other value _ _ _ ih =>
      obtain ⟨earlier, hearlier, hR'⟩ := ih hentry
      exact ⟨earlier, List.mem_append_left _ hearlier, hR'⟩

/-- Seen through a pair of functions that agree where the relation holds, both lists have the
same first occurrences. -/
theorem eraseDups_map [BEq γ] [LawfulBEq γ] (h : Follows R entries values) (f : α → γ)
    (g : β → γ) (hR : ∀ entry value, R entry value → f entry = g value) :
    (entries.map f).eraseDups = (values.map g).eraseDups := by
  induction h with
  | nil => rfl
  | advance entry value _ hone ih =>
      rw [List.map_append, List.map_append, List.map_singleton, List.map_singleton,
        eraseDups_concat, eraseDups_concat, hR entry value hone, ih]
      simp only [mem_of_eraseDups_eq ih]
  | @turnBack entries values entry value _ hentry hone ih =>
      have hknown : g value ∈ values.map g := by
        rw [← mem_of_eraseDups_eq ih, ← hR entry value hone]
        exact List.mem_map_of_mem hentry
      rw [List.map_append, List.map_singleton, eraseDups_concat, if_pos hknown, ih]

/-- Corresponding entries and values may be left out. -/
theorem filter (h : Follows R entries values) (p : α → Bool) (q : β → Bool)
    (hR : ∀ entry value, R entry value → p entry = q value) :
    Follows R (entries.filter p) (values.filter q) := by
  induction h with
  | nil => exact .nil
  | advance entry value _ hone ih =>
      rw [List.filter_append, List.filter_append]
      cases hp : p entry with
      | false => simpa [hp, ← hR entry value hone] using ih
      | true => simpa [hp, ← hR entry value hone] using Follows.advance entry value ih hone
  | turnBack entry value _ hentry hone ih =>
      rw [List.filter_append]
      cases hp : p entry with
      | false => simpa [hp, ← hR entry value hone] using ih
      | true =>
          have hmem : entry ∈ List.filter p _ := List.mem_filter.mpr ⟨hentry, hp⟩
          simpa [hp, ← hR entry value hone] using Follows.turnBack entry value ih hmem hone

end Follows

namespace Echoes

variable [BEq α] [LawfulBEq α] {R : α → β → Prop} {entries entries' : List α} {values : List β}

omit [LawfulBEq α] in
theorem congr (h : Echoes R entries values) (heq : entries'.eraseDups = entries.eraseDups) :
    Echoes R entries' values := by
  rw [Echoes, heq]
  exact h

theorem concat (h : Echoes R entries values) {entry : α} {value : β} (hR : R entry value) :
    Echoes R (entries ++ [entry]) (values ++ [value]) := by
  rw [Echoes, eraseDups_concat]
  split
  · next hmem => exact .turnBack entry value h (List.mem_eraseDups.mpr hmem) hR
  · exact .advance entry value h hR

/-- Entries that occurred before change nothing. -/
theorem append_of_subset_iff {more : List α} (hmore : ∀ entry ∈ more, entry ∈ entries) :
    Echoes R (entries ++ more) values ↔ Echoes R entries values := by
  rw [Echoes, Echoes, eraseDups_append_of_subset hmore]

theorem eraseDups_map [BEq γ] [LawfulBEq γ] (h : Echoes R entries values) (f : α → γ)
    (g : β → γ) (hR : ∀ entry value, R entry value → f entry = g value) :
    (entries.map f).eraseDups = (values.map g).eraseDups := by
  rw [← QueryShape.eraseDups_map f entries]
  exact Follows.eraseDups_map h f g hR

theorem filter (h : Echoes R entries values) (p : α → Bool) (q : β → Bool)
    (hR : ∀ entry value, R entry value → p entry = q value) :
    Echoes R (entries.filter p) (values.filter q) := by
  rw [Echoes, eraseDups_filter]
  exact Follows.filter h p q hR

theorem exists_value (h : Echoes R entries values) {entry : α} (hentry : entry ∈ entries) :
    ∃ value ∈ values, R entry value :=
  Follows.exists_value h (List.mem_eraseDups.mpr hentry)

end Echoes

end QueryShape
