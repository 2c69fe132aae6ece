import QueryShape.Proofs.ManifestHistory

/-!
# Merging manifests in different orders

A merge goes through the entries of one manifest and judges each by the other manifest as it is by
then: what is there first stays, and an operation of another name ends the merge. So the result of
several merges depends on their order, in the places of the entries, in the text that is kept where
two stand under one identifier, and in what was added before a conflict.

Of what is bound to what, little of this is left. A merge succeeds exactly if both manifests have the
same names under their common identifiers, which does not tell left from right. The result then binds
what the left manifest binds and, under the other identifiers, what the right one binds. This is
associative as it stands, and commutative if the manifests have the same texts under their common
identifiers as well.

## What this module delivers

- `Manifest.Agree`: manifests whose entries look the same under their common identifiers.
- `Manifest.conflict_extend_eq_none_iff`, `Manifest.get?_extend`: when a merge succeeds, and what is
  bound then.
- `Manifest.Knows`, `Manifest.insertAll_of_knows`: entries that change nothing.
- `Manifest.extend_known`: a merge that is repeated, whether or not it succeeded, and whatever was
  called in between.
- `Manifest.extend_algebra`: the laws of merging.
-/

set_option autoImplicit false

namespace QueryShape

namespace Manifest

variable {manifest left right : Manifest} {id : String} {entry : ManifestEntry}
  {entries before later : List (String × ManifestEntry)}

/-! ## Agreement -/

/-- What two manifests bind to a common identifier looks the same. -/
def Agree {α : Type} (view : ManifestEntry → α) (left right : Manifest) : Prop :=
  ∀ id entry entry', left.get? id = some entry → right.get? id = some entry' →
    view entry = view entry'

theorem Agree.symm {α : Type} {view : ManifestEntry → α} (h : Agree view left right) :
    Agree view right left :=
  fun id entry entry' hright hleft => (h id entry' entry hleft hright).symm

/-- Only the identifiers of one manifest have to be looked at. -/
theorem agree_iff_forall_mem {α : Type} {view : ManifestEntry → α} : Agree view left right ↔
    ∀ id ∈ left.entries.keys, ∀ entry ∈ left.get? id, ∀ entry' ∈ right.get? id,
      view entry = view entry' :=
  ⟨fun h id _ entry hentry entry' hentry' => h id entry entry' hentry hentry',
    fun h id entry entry' hentry hentry' =>
      h id (Table.mem_keys_of_get? hentry) entry hentry entry' hentry'⟩

instance {α : Type} [DecidableEq α] (view : ManifestEntry → α) (left right : Manifest) :
    Decidable (Agree view left right) :=
  decidable_of_iff _ agree_iff_forall_mem.symm

/-- Entries with one name and one text are equal. -/
theorem Agree.eq (hnames : Agree ManifestEntry.name left right)
    (hsources : Agree ManifestEntry.source left right) {entry' : ManifestEntry}
    (hleft : left.get? id = some entry) (hright : right.get? id = some entry') : entry = entry' := by
  have hname := hnames id entry entry' hleft hright
  have hsource := hsources id entry entry' hleft hright
  cases entry
  cases entry'
  exact ManifestEntry.mk.injEq .. ▸ ⟨hname, hsource⟩

/-- A manifest without repetitions is refused nothing exactly if the names agree. -/
theorem agree_name_iff (hright : right.entries.keys.Nodup) :
    Agree ManifestEntry.name left right ↔
      ∀ entry ∈ right.entries.entries, ¬ left.Refuses entry := by
  constructor
  · rintro hagree ⟨id, entry⟩ hmem ⟨present, hpresent, hname⟩
    exact hname (hagree id present entry hpresent ((Table.get?_eq_some_iff_mem hright).mpr hmem))
  · intro hfine id present entry hpresent hentry
    by_contra hname
    exact hfine (id, entry) ((Table.get?_eq_some_iff_mem hright).mp hentry) ⟨present, hpresent, hname⟩

/-! ## One merge -/

theorem get?_append (manifest : Manifest) (entries : List (String × ManifestEntry)) (id : String) :
    (manifest.append entries).get? id = (manifest.get? id).or (Table.get? ⟨entries⟩ id) := by
  rw [get?, Table.get?, append, List.lookup_append]
  rfl

/-- Among the entries that are new to a manifest, all that it does not bind can be found. -/
theorem get?_unbound (hids : (entries.map Prod.fst).Nodup) (hnone : manifest.get? id = none) :
    Table.get? ⟨manifest.unbound entries⟩ id = Table.get? ⟨entries⟩ id := by
  have hkeys : (Table.keys ⟨manifest.unbound entries⟩).Nodup :=
    hids.sublist (List.filter_sublist.map _)
  apply Option.ext
  intro entry
  rw [Table.get?_eq_some_iff_mem hkeys, Table.get?_eq_some_iff_mem hids, unbound, List.mem_filter,
    hnone, Option.isNone_none, and_iff_left rfl]

/-- A merge succeeds exactly if no identifier is bound to two names. -/
theorem conflict_extend_eq_none_iff (hright : right.entries.keys.Nodup) :
    (left.extend right).2 = none ↔ Agree ManifestEntry.name left right := by
  have houtcome : Outcome left right.entries.entries (left.extend right) :=
    insertAll_outcome left hright
  rw [← Option.not_isSome_iff_eq_none, houtcome.isSome_iff, agree_name_iff hright]
  simp only [not_exists, not_and]

/-- What is bound after a successful merge: under common identifiers, what the left manifest binds. -/
theorem get?_extend (hright : right.entries.keys.Nodup)
    (hagree : Agree ManifestEntry.name left right) (id : String) :
    (left.extend right).1.get? id = (left.get? id).or (right.get? id) := by
  have hall : left.insertAll (right.entries.entries ++ []) =
      (left.append (left.unbound right.entries.entries), none) :=
    insertAll_append hright ((agree_name_iff hright).mp hagree)
  rw [List.append_nil] at hall
  rw [extend, hall, get?_append]
  cases hleft : left.get? id with
  | some present => rfl
  | none => rw [get?_unbound hright hleft, get?]

theorem nodup_keys_extend (hleft : left.entries.keys.Nodup) (hright : right.entries.keys.Nodup) :
    (left.extend right).1.entries.keys.Nodup :=
  (insertAll_outcome left hright).nodup_keys hleft hright

/-- Where names and texts agree, it does not matter which manifest wins. -/
theorem get?_extend_comm (hleft : left.entries.keys.Nodup) (hright : right.entries.keys.Nodup)
    (hnames : Agree ManifestEntry.name left right)
    (hsources : Agree ManifestEntry.source left right) (id : String) :
    (left.extend right).1.get? id = (right.extend left).1.get? id := by
  rw [get?_extend hright hnames, get?_extend hleft hnames.symm]
  cases hentry : left.get? id with
  | none => rw [Option.none_or, Option.or_none]
  | some entry =>
      cases hentry' : right.get? id with
      | none => rfl
      | some entry' => rw [hnames.eq hsources hentry hentry', Option.some_or]

/-! ## Entries that are known -/

/-- All identifiers are bound, to the names of the entries. -/
def Knows (manifest : Manifest) (entries : List (String × ManifestEntry)) : Prop :=
  ∀ entry ∈ entries, ∃ present, manifest.get? entry.1 = some present ∧ present.name = entry.2.name

/-- Entries that are known are passed over. -/
theorem insertAll_of_knows (h : manifest.Knows before) (later : List (String × ManifestEntry)) :
    manifest.insertAll (before ++ later) = manifest.insertAll later := by
  induction before with
  | nil => rfl
  | cons entry before ih =>
      obtain ⟨present, hpresent, hname⟩ := h entry List.mem_cons_self
      rw [List.cons_append, insertAll, insert_of_name_eq hpresent hname]
      exact ih fun other hother => h other (List.mem_cons_of_mem entry hother)

/-- A manifest that has grown knows what it knew. -/
theorem get?_of_isPrefix (h : left.entries.entries <+: right.entries.entries)
    (hget : left.get? id = some entry) : right.get? id = some entry := by
  obtain ⟨more, hmore⟩ := h
  have hright : right = left.append more := by
    rw [append, hmore]
  rw [hright, get?_append, hget, Option.some_or]

theorem Knows.of_isPrefix (h : left.Knows entries)
    (hgrown : left.entries.entries <+: right.entries.entries) : right.Knows entries := by
  intro entry hentry
  obtain ⟨present, hpresent, hname⟩ := h entry hentry
  exact ⟨present, get?_of_isPrefix hgrown hpresent, hname⟩

theorem knows_self (h : manifest.entries.keys.Nodup) : manifest.Knows manifest.entries.entries :=
  fun entry hmem => ⟨entry.2, (Table.get?_eq_some_iff_mem h).mpr hmem, rfl⟩

/-- Entries that were not refused are known once those that were new have been added. -/
theorem knows_append_unbound (hids : (entries.map Prod.fst).Nodup)
    (hfine : ∀ entry ∈ entries, ¬ manifest.Refuses entry) :
    (manifest.append (manifest.unbound entries)).Knows entries := by
  rintro ⟨id, entry⟩ hmem
  cases hpresent : manifest.get? id with
  | none =>
      refine ⟨entry, ?_, rfl⟩
      rw [get?_append, hpresent, Option.none_or, get?_unbound hids hpresent]
      exact (Table.get?_eq_some_iff_mem hids).mpr hmem
  | some present =>
      refine ⟨present, ?_, ?_⟩
      · rw [get?_append, hpresent, Option.some_or]
      · by_contra hname
        exact hfine (id, entry) hmem ⟨present, hpresent, hname⟩

/-- Merging in again what was merged into a manifest, now that it has grown further, adds nothing
and comes to the same conflict if there was one. -/
theorem extend_known (hright : right.entries.keys.Nodup)
    (hgrown : (left.extend right).1.entries.entries <+: manifest.entries.entries) :
    manifest.extend right = (manifest, (left.extend right).2) := by
  have houtcome : Outcome left right.entries.entries (left.extend right) :=
    insertAll_outcome left hright
  generalize left.extend right = result at hgrown houtcome
  cases houtcome with
  | added hfine =>
      have hknows := (knows_append_unbound hright hfine).of_isPrefix hgrown
      have hall := insertAll_of_knows hknows []
      rwa [List.append_nil] at hall
  | @stopped before later id entry present hentries hfine hpresent hname =>
      have hids : (before.map Prod.fst).Nodup := by
        rw [Table.keys, hentries, List.map_append] at hright
        exact (List.nodup_append.mp hright).1
      have hknows := (knows_append_unbound hids hfine).of_isPrefix hgrown
      -- The operation that was in the way was there before the merge, so it still is.
      have hfound : manifest.get? id = some present := by
        apply get?_of_isPrefix hgrown
        rw [get?_append, hpresent, Option.some_or]
      rw [extend, hentries, insertAll_of_knows hknows, insertAll,
        insert_of_name_ne hfound hname]

/-! ## The laws of merging -/

/-- The names of three manifests agree in one grouping exactly if they do in the other, provided
that the last two agree. -/
theorem agree_name_extend_iff {first second third : Manifest}
    (hsecond : second.entries.keys.Nodup) (hthird : third.entries.keys.Nodup)
    (hlast : Agree ManifestEntry.name second third) :
    (Agree ManifestEntry.name first second ∧
        Agree ManifestEntry.name (first.extend second).1 third) ↔
      Agree ManifestEntry.name first (second.extend third).1 := by
  have hright := get?_extend hthird hlast
  constructor
  · rintro ⟨hfirst, hboth⟩ id entry entry' hentry hentry'
    rw [hright id] at hentry'
    cases hget : second.get? id with
    | some present =>
        rw [hget, Option.some_or, Option.some.injEq] at hentry'
        exact hfirst id entry entry' hentry (hentry' ▸ hget)
    | none =>
        rw [hget, Option.none_or] at hentry'
        refine hboth id entry entry' ?_ hentry'
        rw [get?_extend hsecond hfirst id, hentry, Option.some_or]
  · intro hall
    have hfirst : Agree ManifestEntry.name first second := by
      intro id entry entry' hentry hentry'
      apply hall id entry entry' hentry
      rw [hright id, hentry', Option.some_or]
    refine ⟨hfirst, ?_⟩
    intro id entry entry' hentry hentry'
    rw [get?_extend hsecond hfirst id] at hentry
    cases hget : first.get? id with
    | none =>
        rw [hget, Option.none_or] at hentry
        exact hlast id entry entry' hentry hentry'
    | some present =>
        rw [hget, Option.some_or, Option.some.injEq] at hentry
        subst hentry
        -- What the second manifest binds to the identifier, if anything, stands between the two.
        cases hmiddle : second.get? id with
        | none =>
            apply hall id present entry' hget
            rwa [hright id, hmiddle, Option.none_or]
        | some middle =>
            exact (hfirst id present middle hget hmiddle).trans
              (hlast id middle entry' hmiddle hentry')

/-- Merging is commutative, associative and idempotent as far as bindings go. Two manifests can be
merged in both orders or in neither, and with the same texts under their common identifiers the two
results bind the same. If the second and the third of three manifests can be merged, it does not
matter for the success nor for the bindings whether the third is merged into the result of the first
two or the result of the last two into the first. Merging a manifest into itself changes nothing, and
neither does merging in again what was merged in at some time: whatever has been called since, the
manifest stays as it is, and a conflict is the one that there was. -/
theorem extend_algebra {first second third : Manifest} (hfirst : first.entries.keys.Nodup)
    (hsecond : second.entries.keys.Nodup) (hthird : third.entries.keys.Nodup) :
    ((first.extend second).2 = none ↔ (second.extend first).2 = none) ∧
      (Agree ManifestEntry.source first second → (first.extend second).2 = none →
        ∀ id, (first.extend second).1.get? id = (second.extend first).1.get? id) ∧
      ((second.extend third).2 = none →
        (((first.extend second).2 = none ∧ ((first.extend second).1.extend third).2 = none) ↔
          (first.extend (second.extend third).1).2 = none) ∧
        ((first.extend (second.extend third).1).2 = none →
          ∀ id, ((first.extend second).1.extend third).1.get? id =
            (first.extend (second.extend third).1).1.get? id)) ∧
      first.extend first = (first, none) ∧
      ∀ calls, ((first.extend second).1.afterCalls calls).extend second =
        ((first.extend second).1.afterCalls calls, (first.extend second).2) := by
  have hmerged := nodup_keys_extend hsecond hthird
  refine ⟨?_, ?_, ?_, ?_, ?_⟩
  · rw [conflict_extend_eq_none_iff hsecond, conflict_extend_eq_none_iff hfirst]
    exact ⟨Agree.symm, Agree.symm⟩
  · intro hsources hsuccess id
    have hnames := (conflict_extend_eq_none_iff hsecond).mp hsuccess
    exact get?_extend_comm hfirst hsecond hnames hsources id
  · intro hlast
    rw [conflict_extend_eq_none_iff hthird] at hlast
    rw [conflict_extend_eq_none_iff hsecond, conflict_extend_eq_none_iff hthird,
      conflict_extend_eq_none_iff hmerged, agree_name_extend_iff hsecond hthird hlast]
    refine ⟨Iff.rfl, fun hall id => ?_⟩
    obtain ⟨hnames, hboth⟩ := (agree_name_extend_iff hsecond hthird hlast).mpr hall
    rw [get?_extend hthird hboth, get?_extend hsecond hnames, get?_extend hmerged hall,
      get?_extend hthird hlast, Option.or_assoc]
  · have hall := insertAll_of_knows (knows_self hfirst) []
    rwa [List.append_nil] at hall
  · intro calls
    exact extend_known hsecond (isPrefix_afterCalls _ calls)

end Manifest

/-! ## A sample -/

namespace Sample

/-- Three manifests, any two of which share an operation. -/
def overlappingManifests : Manifest × Manifest × Manifest :=
  (⟨⟨[("a", ⟨"Q", "query Q"⟩), ("b", ⟨"R", "query R"⟩)]⟩⟩,
    ⟨⟨[("c", ⟨"S", "query S"⟩), ("b", ⟨"R", "query R"⟩)]⟩⟩,
    ⟨⟨[("c", ⟨"S", "query S"⟩), ("a", ⟨"Q", "query Q"⟩)]⟩⟩)

end Sample

/-- The order of two manifests shows in the places of their operations, not in what is bound. -/
theorem Manifest.extend_algebra_sample :
    let (first, second, third) := Sample.overlappingManifests
    first.entries.keys.Nodup ∧ second.entries.keys.Nodup ∧ third.entries.keys.Nodup ∧
      Manifest.Agree ManifestEntry.source first second ∧
      (second.extend third).2 = none ∧ (first.extend (second.extend third).1).2 = none ∧
      (first.extend second).1.entries.keys = ["a", "b", "c"] ∧
      (second.extend first).1.entries.keys = ["c", "b", "a"] ∧
      (∀ id, (first.extend second).1.get? id = (second.extend first).1.get? id) ∧
      (∀ id, ((first.extend second).1.extend third).1.get? id =
        (first.extend (second.extend third).1).1.get? id) ∧
      first.extend first = (first, none) ∧
      ((first.extend second).1.afterCalls [.insert "d" ⟨"T", "query T"⟩]).extend second =
        ((first.extend second).1.afterCalls [.insert "d" ⟨"T", "query T"⟩], none) := by
  have hfirst : Sample.overlappingManifests.1.entries.keys.Nodup := by decide
  have hsecond : Sample.overlappingManifests.2.1.entries.keys.Nodup := by decide
  have hthird : Sample.overlappingManifests.2.2.entries.keys.Nodup := by decide
  obtain ⟨-, hcomm, hassoc, hself, hagain⟩ := Manifest.extend_algebra hfirst hsecond hthird
  exact ⟨hfirst, hsecond, hthird, by decide, by decide, by decide, by decide, by decide,
    hcomm (by decide) (by decide), (hassoc (by decide)).2 (by decide), hself,
    hagain [.insert "d" ⟨"T", "query T"⟩]⟩

end QueryShape
