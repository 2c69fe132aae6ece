import QueryShape.Proofs.Manifest

/-!
# What becomes of a manifest

A manifest is written by insertions of single entries and by merging in other manifests, and some of
these calls fail. A merge that fails has added entries before it failed, and the manifest goes on to
be used with them. Whatever the calls and their outcomes, what is in the manifest stays there: entries
are added at the end or not at all.

Merging is insertion entry by entry, and each entry is judged by the manifest at that moment. Since a
manifest binds an identifier once, the entries merged in before do not matter for the judgement, and
so an outcome is stated here by the manifest as it was when the call began.

## What this module delivers

- `Manifest.Refuses`, `Manifest.unbound`: which entries are refused, and which are new.
- `Manifest.insertAll_append`: entries that are not refused are passed, and the new ones added.
- `Manifest.Outcome`, `Manifest.insertAll_outcome`: the two ways in which adding entries ends.
- `Manifest.history`: the manifest after any calls, and what one more call does.
-/

set_option autoImplicit false

namespace QueryShape

/-- If an entry of a list has a property, there is a first one that has it. -/
theorem exists_first_of_exists {α : Type} {holds : α → Prop} {entries : List α}
    (h : ∃ entry ∈ entries, holds entry) : ∃ before entry later,
      entries = before ++ entry :: later ∧ (∀ earlier ∈ before, ¬ holds earlier) ∧
        holds entry := by
  classical
  obtain ⟨entry, hfind⟩ := Option.isSome_iff_exists.mp
    (List.find?_isSome (p := fun entry => decide (holds entry)).mpr (by simpa using h))
  obtain ⟨hholds, before, later, rfl, hbefore⟩ := List.find?_eq_some_iff_append.mp hfind
  refine ⟨before, entry, later, rfl, ?_, of_decide_eq_true hholds⟩
  intro earlier hmem
  simpa using hbefore earlier hmem

namespace Manifest

variable {manifest : Manifest} {id : String} {entry : ManifestEntry}
  {entries : List (String × ManifestEntry)}

/-! ## Entries that are refused and entries that are new -/

/-- The identifier of the entry is bound to an operation of another name. -/
def Refuses (manifest : Manifest) (entry : String × ManifestEntry) : Prop :=
  ∃ present, manifest.get? entry.1 = some present ∧ present.name ≠ entry.2.name

/-- The entries, in their order, whose identifiers are not bound. -/
def unbound (manifest : Manifest) (entries : List (String × ManifestEntry)) :
    List (String × ManifestEntry) :=
  entries.filter fun entry => (manifest.get? entry.1).isNone

theorem unbound_append (manifest : Manifest) (entries more : List (String × ManifestEntry)) :
    manifest.unbound (entries ++ more) = manifest.unbound entries ++ manifest.unbound more :=
  List.filter_append entries more

/-- The manifest with further entries at its end. -/
def append (manifest : Manifest) (entries : List (String × ManifestEntry)) : Manifest :=
  ⟨⟨manifest.entries.entries ++ entries⟩⟩

@[simp] theorem append_nil (manifest : Manifest) : manifest.append [] = manifest := by
  rw [append, List.append_nil]

theorem append_append (manifest : Manifest) (entries more : List (String × ManifestEntry)) :
    (manifest.append entries).append more = manifest.append (entries ++ more) := by
  rw [append, append, append, List.append_assoc]

/-- Further entries do not matter for the identifiers that they do not have. -/
theorem get?_append_of_not_mem (h : id ∉ entries.map Prod.fst) :
    (manifest.append entries).get? id = manifest.get? id := by
  have hnone : Table.get? ⟨entries⟩ id = none := Table.get?_eq_none_iff.mpr h
  rw [Table.get?] at hnone
  rw [get?, Table.get?, append, List.lookup_append, hnone, Option.or_none]
  rfl

theorem map_fst_unbound_subset (manifest : Manifest) (entries : List (String × ManifestEntry)) :
    (manifest.unbound entries).map Prod.fst ⊆ entries.map Prod.fst :=
  List.map_subset _ (List.filter_sublist).subset

theorem get?_eq_none_of_mem_unbound (h : (id, entry) ∈ manifest.unbound entries) :
    manifest.get? id = none :=
  Option.isNone_iff_eq_none.mp (List.mem_filter.mp h).2

/-- New entries with different identifiers leave the identifiers different. -/
theorem nodup_keys_append_unbound (hkeys : manifest.entries.keys.Nodup)
    (hids : (entries.map Prod.fst).Nodup) :
    (manifest.append (manifest.unbound entries)).entries.keys.Nodup := by
  rw [append, Table.keys, List.map_append]
  refine List.nodup_append.mpr ⟨hkeys, hids.sublist (List.filter_sublist.map _), ?_⟩
  rintro id hid other hother rfl
  obtain ⟨⟨id, entry⟩, hmem, rfl⟩ := List.mem_map.mp hother
  exact Table.get?_eq_none_iff.mp (get?_eq_none_of_mem_unbound hmem) hid

/-! ## One entry -/

theorem insert_of_get?_eq_none (h : manifest.get? id = none) :
    manifest.insert id entry = .ok (manifest.append [(id, entry)]) :=
  insert_of_not_mem (Table.get?_eq_none_iff.mp h) entry

/-- An entry of the same name is passed over, whatever its text. -/
theorem insert_of_name_eq {present : ManifestEntry} (h : manifest.get? id = some present)
    (hname : present.name = entry.name) : manifest.insert id entry = .ok manifest := by
  simp only [insert, h, if_pos hname]

theorem insert_of_name_ne {present : ManifestEntry} (h : manifest.get? id = some present)
    (hname : present.name ≠ entry.name) :
    manifest.insert id entry = .error ⟨id, present.name, entry.name⟩ := by
  simp only [insert, h, if_neg hname]

/-- An entry is refused exactly if inserting it fails. -/
theorem insert_eq_error_iff :
    (∃ conflict, manifest.insert id entry = .error conflict) ↔ manifest.Refuses (id, entry) := by
  constructor
  · rintro ⟨conflict, herror⟩
    cases hpresent : manifest.get? id with
    | none =>
        rw [insert_of_get?_eq_none hpresent] at herror
        exact nomatch herror
    | some present =>
        refine ⟨present, hpresent, ?_⟩
        intro hname
        rw [insert_of_name_eq hpresent hname] at herror
        exact nomatch herror
  · rintro ⟨present, hpresent, hname⟩
    exact ⟨_, insert_of_name_ne hpresent hname⟩

/-! ## Several entries -/

/-- Entries that are not refused are passed one after the other, and those of them that are new are
added. -/
theorem insertAll_append {before later : List (String × ManifestEntry)}
    (hids : (before.map Prod.fst).Nodup) (hfine : ∀ entry ∈ before, ¬ manifest.Refuses entry) :
    manifest.insertAll (before ++ later) =
      (manifest.append (manifest.unbound before)).insertAll later := by
  -- The last entry is taken off, so that all are judged by the same manifest.
  induction before using List.reverseRecOn generalizing later with
  | nil => simp [unbound]
  | append_singleton before pair ih =>
      obtain ⟨id, entry⟩ := pair
      rw [List.map_append, List.map_singleton, ← List.concat_eq_append, List.nodup_concat] at hids
      obtain ⟨hnew, hids⟩ := hids
      obtain ⟨hbefore, hlast⟩ := List.forall_mem_append.mp hfine
      -- What was added before has other identifiers.
      have hget : (manifest.append (manifest.unbound before)).get? id = manifest.get? id :=
        get?_append_of_not_mem fun hmem => hnew (manifest.map_fst_unbound_subset before hmem)
      rw [List.append_assoc, ih hids hbefore, List.singleton_append, insertAll, unbound_append]
      cases hpresent : manifest.get? id with
      | none =>
          rw [insert_of_get?_eq_none (hget.trans hpresent)]
          simp only [append_append, unbound, List.filter_cons, hpresent, Option.isNone_none,
            if_true, List.filter_nil]
      | some present =>
          have hname : present.name = entry.name := by
            by_contra hne
            exact hlast _ List.mem_cons_self ⟨present, hpresent, hne⟩
          rw [insert_of_name_eq (hget.trans hpresent) hname]
          simp [unbound, hpresent]

/-- How adding entries to a manifest ends. -/
inductive Outcome (manifest : Manifest) (entries : List (String × ManifestEntry)) :
    Manifest × Option ManifestConflict → Prop
  /-- No entry is refused, and the new ones are added. -/
  | added : (∀ entry ∈ entries, ¬ manifest.Refuses entry) →
      Outcome manifest entries (manifest.append (manifest.unbound entries), none)
  /-- The first entry that is refused is reported, and the new ones before it are added. -/
  | stopped {before later : List (String × ManifestEntry)} {id : String}
      {entry present : ManifestEntry} :
      entries = before ++ (id, entry) :: later →
      (∀ earlier ∈ before, ¬ manifest.Refuses earlier) →
      manifest.get? id = some present → present.name ≠ entry.name →
      Outcome manifest entries
        (manifest.append (manifest.unbound before), some ⟨id, present.name, entry.name⟩)

theorem insertAll_outcome (manifest : Manifest) (hids : (entries.map Prod.fst).Nodup) :
    Outcome manifest entries (manifest.insertAll entries) := by
  by_cases hrefused : ∃ entry ∈ entries, manifest.Refuses entry
  · obtain ⟨before, ⟨id, entry⟩, later, rfl, hbefore, present, hpresent, hname⟩ :=
      exists_first_of_exists hrefused
    rw [List.map_append, List.nodup_append] at hids
    obtain ⟨hids, -, hdistinct⟩ := hids
    have hget : (manifest.append (manifest.unbound before)).get? id = manifest.get? id := by
      apply get?_append_of_not_mem
      intro hmem
      exact hdistinct id (manifest.map_fst_unbound_subset before hmem) id List.mem_cons_self rfl
    rw [insertAll_append hids hbefore, insertAll,
      insert_of_name_ne (hget.trans hpresent) hname]
    exact .stopped rfl hbefore hpresent hname
  · have hfine : ∀ entry ∈ entries, ¬ manifest.Refuses entry :=
      fun entry hmem hrefuses => hrefused ⟨entry, hmem, hrefuses⟩
    have hall : manifest.insertAll (entries ++ []) = _ := insertAll_append hids hfine
    rw [List.append_nil] at hall
    rw [hall]
    exact .added hfine

namespace Outcome

variable {result : Manifest × Option ManifestConflict}

/-- Adding entries fails exactly if one of them is refused. -/
theorem isSome_iff (h : Outcome manifest entries result) :
    result.2.isSome = true ↔ ∃ entry ∈ entries, manifest.Refuses entry := by
  cases h with
  | added hfine =>
      refine ⟨fun hfails => absurd hfails Bool.false_ne_true, ?_⟩
      rintro ⟨entry, hmem, hrefuses⟩
      exact absurd hrefuses (hfine entry hmem)
  | @stopped before later id entry present hentries _ hpresent hname =>
      refine ⟨fun _ => ⟨(id, entry), ?_, present, hpresent, hname⟩, fun _ => rfl⟩
      rw [hentries]
      exact List.mem_append_right _ List.mem_cons_self

/-- Whatever the outcome, new entries are added at the end. -/
theorem exists_append (h : Outcome manifest entries result) :
    ∃ before, before <+: entries ∧ result.1 = manifest.append (manifest.unbound before) := by
  cases h with
  | added _ => exact ⟨entries, List.prefix_refl _, rfl⟩
  | stopped hentries _ _ _ => exact ⟨_, hentries ▸ List.prefix_append _ _, rfl⟩

theorem isPrefix (h : Outcome manifest entries result) :
    manifest.entries.entries <+: result.1.entries.entries := by
  obtain ⟨before, -, hresult⟩ := h.exists_append
  rw [hresult]
  exact List.prefix_append _ _

theorem nodup_keys (h : Outcome manifest entries result) (hkeys : manifest.entries.keys.Nodup)
    (hids : (entries.map Prod.fst).Nodup) : result.1.entries.keys.Nodup := by
  obtain ⟨before, hbefore, hresult⟩ := h.exists_append
  rw [hresult]
  exact nodup_keys_append_unbound hkeys (hids.sublist (hbefore.sublist.map _))

end Outcome

/-! ## Calls -/

/-- A call on a manifest. A manifest that is merged in binds each identifier once. -/
inductive Call
  | insert (id : String) (entry : ManifestEntry)
  | extend (other : Manifest) (distinct : other.entries.keys.Nodup)

/-- The entries that a call is to add, in order. -/
def Call.toAdd : Call → List (String × ManifestEntry)
  | .insert id entry => [(id, entry)]
  | .extend other _ => other.entries.entries

theorem Call.nodup_ids (next : Call) : (next.toAdd.map Prod.fst).Nodup := by
  cases next with
  | insert id entry => exact List.nodup_singleton id
  | extend other distinct => exact distinct

/-- The manifest after a call, and the conflict that the call reports. -/
def call (manifest : Manifest) : Call → Manifest × Option ManifestConflict
  | .insert id entry =>
      match manifest.insert id entry with
      | .ok extended => (extended, none)
      | .error conflict => (manifest, some conflict)
  | .extend other _ => manifest.extend other

/-- An insertion is a merge of one entry. -/
theorem call_eq_insertAll (manifest : Manifest) (next : Call) :
    manifest.call next = manifest.insertAll next.toAdd := by
  cases next with
  | insert id entry =>
      rw [call, Call.toAdd, insertAll]
      cases manifest.insert id entry with
      | ok extended => rfl
      | error conflict => rfl
  | extend other distinct => rfl

theorem call_outcome (manifest : Manifest) (next : Call) :
    Outcome manifest next.toAdd (manifest.call next) := by
  rw [call_eq_insertAll]
  exact insertAll_outcome manifest next.nodup_ids

/-- An entry that is refused changes nothing. -/
theorem call_insert_of_refuses (h : manifest.Refuses (id, entry)) :
    (manifest.call (.insert id entry)).1 = manifest := by
  obtain ⟨present, hpresent, hname⟩ := h
  rw [call, insert_of_name_ne hpresent hname]

/-- The manifest after some calls on another, one after the other, whether or not they failed. -/
def afterCalls (manifest : Manifest) (calls : List Call) : Manifest :=
  calls.foldl (fun manifest next => (manifest.call next).1) manifest

theorem isPrefix_afterCalls (manifest : Manifest) (calls : List Call) :
    manifest.entries.entries <+: (manifest.afterCalls calls).entries.entries := by
  induction calls generalizing manifest with
  | nil => exact List.prefix_refl _
  | cons next calls ih =>
      rw [afterCalls, List.foldl_cons]
      exact (manifest.call_outcome next).isPrefix.trans (ih _)

theorem nodup_keys_afterCalls (hkeys : manifest.entries.keys.Nodup) (calls : List Call) :
    (manifest.afterCalls calls).entries.keys.Nodup := by
  induction calls generalizing manifest with
  | nil => exact hkeys
  | cons next calls ih =>
      rw [afterCalls, List.foldl_cons]
      exact ih ((manifest.call_outcome next).nodup_keys hkeys next.nodup_ids)

/-- After any calls on an empty manifest its identifiers are different, and later calls leave its
entries as they are and where they are. Another insertion fails exactly if its entry is refused, and
changes nothing then. Any other call fails exactly if one of its entries is refused. If it fails, it
reports the first of these and has added the new ones before it; else it has added all that are new,
at the end. -/
theorem history (calls : List Call) :
    let manifest := Manifest.empty.afterCalls calls
    manifest.entries.keys.Nodup ∧
      (∀ more, manifest.entries.entries <+:
        (Manifest.empty.afterCalls (calls ++ more)).entries.entries) ∧
      (∀ id entry,
        ((∃ conflict, manifest.insert id entry = .error conflict) ↔
          manifest.Refuses (id, entry)) ∧
        (manifest.Refuses (id, entry) → (manifest.call (.insert id entry)).1 = manifest)) ∧
      ∀ next,
        ((manifest.call next).2.isSome = true ↔ ∃ entry ∈ next.toAdd, manifest.Refuses entry) ∧
        Outcome manifest next.toAdd (manifest.call next) := by
  intro manifest
  have hempty : Manifest.empty.entries.keys.Nodup := List.nodup_nil
  refine ⟨nodup_keys_afterCalls hempty calls, ?_, ?_, ?_⟩
  · intro more
    rw [afterCalls, List.foldl_append]
    exact manifest.isPrefix_afterCalls more
  · intro id entry
    exact ⟨insert_eq_error_iff, call_insert_of_refuses⟩
  · intro next
    have houtcome := manifest.call_outcome next
    exact ⟨houtcome.isSome_iff, houtcome⟩

end Manifest

/-! ## A sample -/

namespace Sample

/-- Entries `a` and `b`, of which `b` is merged in with a repetition of `a`, and an entry under `b` that
is refused. -/
def manifestCalls : List Manifest.Call :=
  [.insert "a" ⟨"Q", "text"⟩,
    .extend ⟨⟨[("a", ⟨"Q", "other text"⟩), ("b", ⟨"R", "text"⟩)]⟩⟩ (by decide),
    .insert "b" ⟨"S", "text"⟩]

/-- A manifest with an entry that the calls leave no room for, between two that are new. -/
def lateManifest : Manifest :=
  ⟨⟨[("c", ⟨"T", "text"⟩), ("a", ⟨"Z", "text"⟩), ("d", ⟨"U", "text"⟩)]⟩⟩

end Sample

theorem Manifest.history_sample :
    (Manifest.empty.afterCalls Sample.manifestCalls).entries.entries =
        [("a", ⟨"Q", "text"⟩), ("b", ⟨"R", "text"⟩)] ∧
      (Manifest.empty.afterCalls Sample.manifestCalls).Refuses ("b", ⟨"S", "text"⟩) ∧
      ((Manifest.empty.afterCalls Sample.manifestCalls).call
        (.insert "b" ⟨"S", "text"⟩)).1 = Manifest.empty.afterCalls Sample.manifestCalls ∧
      (Manifest.empty.afterCalls Sample.manifestCalls).extend Sample.lateManifest =
        (⟨⟨[("a", ⟨"Q", "text"⟩), ("b", ⟨"R", "text"⟩), ("c", ⟨"T", "text"⟩)]⟩⟩,
          some ⟨"a", "Q", "Z"⟩) ∧
      ∃ entry ∈ Sample.lateManifest.entries.entries,
        (Manifest.empty.afterCalls Sample.manifestCalls).Refuses entry := by
  obtain ⟨-, -, hinsert, hcall⟩ := Manifest.history Sample.manifestCalls
  have hrefuses : (Manifest.empty.afterCalls Sample.manifestCalls).Refuses ("b", ⟨"S", "text"⟩) :=
    ⟨⟨"R", "text"⟩, by decide⟩
  refine ⟨by decide, hrefuses, (hinsert "b" _).2 hrefuses, rfl, ?_⟩
  exact (hcall (.extend Sample.lateManifest (by decide))).1.mp (by decide)

end QueryShape
