import QueryShape.Executable.Manifest
import QueryShape.Proofs.Canonical
import QueryShape.Proofs.OperationNames

/-!
# The manifest of a document

A manifest refuses an operation whose identifier is bound to an operation of another name, and
passes over one whose identifier is bound to an operation of its own name. The operations of a
compiled document meet neither case, provided that the digest tells their canonical texts apart: no
two of them share a name, the names can be read off the texts, and so the identifiers differ.

## What this module delivers

- `Manifest.insert_of_not_mem`: an identifier that is new.
- `Manifest.insertAll_of_nodup`: entries under new identifiers are added, each of them, in order.
- `Schema.manifest_lossless`: the manifest of a compiled document has one entry for each operation.
  That the operations have names holds for parsed documents (`Schema.isName_of_compile`).
-/

set_option autoImplicit false

namespace QueryShape

namespace Manifest

theorem insert_of_not_mem {manifest : Manifest} {id : String}
    (h : id ∉ manifest.entries.keys) (entry : ManifestEntry) :
    manifest.insert id entry = .ok ⟨⟨manifest.entries.entries ++ [(id, entry)]⟩⟩ := by
  have hnone : manifest.get? id = none := Table.get?_eq_none_iff.mpr h
  rw [insert, hnone, Table.insert, Table.insertEntry_of_not_mem h]

/-- Entries whose identifiers are new are all added, in their order. -/
theorem insertAll_of_nodup (manifest : Manifest) {entries : List (String × ManifestEntry)}
    (h : (manifest.entries.keys ++ entries.map Prod.fst).Nodup) :
    manifest.insertAll entries = (⟨⟨manifest.entries.entries ++ entries⟩⟩, none) := by
  -- The manifest grows with every entry, so the induction is on any manifest to begin with.
  induction entries generalizing manifest with
  | nil => rw [insertAll, List.append_nil]
  | cons entry rest ih =>
      obtain ⟨id, entry⟩ := entry
      rw [List.map_cons, List.append_cons] at h
      have hnew : id ∉ manifest.entries.keys := by
        intro hmem
        have hboth := (List.nodup_append.mp (List.nodup_append.mp h).1).2.2
        exact hboth id hmem id (List.mem_singleton_self id) rfl
      have hnext : (Table.keys ⟨manifest.entries.entries ++ [(id, entry)]⟩ ++
          rest.map Prod.fst).Nodup := by
        rw [Table.keys, List.map_append]
        exact h
      rw [insertAll, insert_of_not_mem hnew]
      dsimp only
      rw [ih _ hnext, List.append_assoc, List.singleton_append]

end Manifest

section Compiled

variable {schema : Schema} {texts : List SourceText} {document : CompiledDocument}

/-- If the digest tells the canonical texts of its operations apart, a compiled document has a
manifest with exactly one entry for each operation, in the order of the operations and under
different identifiers. The entry holds the name of the operation and its canonical text, which is
its definition as printed followed by those of the fragments that it reaches. -/
theorem Schema.manifest_lossless (h : schema.compile texts = .ok document)
    (hnames : ∀ operation ∈ document.operations, Source.IsName operation.name)
    (hdigest : ∀ left ∈ document.operations, ∀ right ∈ document.operations,
      Text.Sha256.hex (left.canonicalSource document.fragments) =
          Text.Sha256.hex (right.canonicalSource document.fragments) →
        left.canonicalSource document.fragments = right.canonicalSource document.fragments) :
    ∃ manifest, Manifest.ofDocument document = .ok manifest ∧ manifest.entries.keys.Nodup ∧
      List.Forall₂ (fun operation entry => entry = Manifest.entryOf document.fragments operation ∧
          entry.2.name = operation.name ∧ ∃ source reached,
            operation.WrittenIn texts source reached ∧
              entry.2.source = Source.canonicalText (Source.unit source reached))
        document.operations manifest.entries.entries := by
  obtain ⟨definitions, hfrom⟩ := Schema.compile_spec h
  have hids : ((document.operations.map (Manifest.entryOf document.fragments)).map
      Prod.fst).Nodup := by
    rw [List.map_map]
    refine List.Nodup.map_on ?_ (.of_map _ hfrom.distinct)
    intro left hleft right hright hid
    exact hfrom.canonicalSource_inj hnames hleft hright (hdigest left hleft right hright hid)
  refine ⟨⟨⟨document.operations.map (Manifest.entryOf document.fragments)⟩⟩, ?_, hids, ?_⟩
  · rw [Manifest.ofDocument, Manifest.insertAll_of_nodup .empty hids]
    rfl
  · rw [List.forall₂_map_right_iff, List.forall₂_same]
    intro operation hmem
    obtain ⟨source, reached, hwritten, htext⟩ := hfrom.exists_writtenIn hmem
    exact ⟨rfl, rfl, source, reached, hwritten, htext⟩

/-- `query Q { node { ...F } }` and `query R { node { ...F } }`, which share a fragment. -/
def Sample.shared : List SourceText :=
  [⟨none, ⟨[.operation ⟨position, .query, some "Q", [], [], [node [] [spread [] "F"]]⟩,
    .operation ⟨position, .query, some "R", [], [], [node [] [spread [] "F"]]⟩,
    .fragment ⟨position, "F", "Node", [], [id none]⟩]⟩⟩]

theorem Schema.manifest_lossless_sample : ∃ document manifest,
    Sample.schema.compile Sample.shared = .ok document ∧ document.operations.length = 2 ∧
      (∀ operation ∈ document.operations, Source.IsName operation.name) ∧
      (∀ left ∈ document.operations, ∀ right ∈ document.operations,
        Text.Sha256.hex (left.canonicalSource document.fragments) =
            Text.Sha256.hex (right.canonicalSource document.fragments) →
          left.canonicalSource document.fragments = right.canonicalSource document.fragments) ∧
      Manifest.ofDocument document = .ok manifest ∧ manifest.entries.keys.Nodup ∧
      manifest.size = 2 := by
  have hcheck : ∃ document ∈ (Sample.schema.compile Sample.shared).toOption,
      document.operations.length = 2 ∧
      (∀ operation ∈ document.operations, Source.IsName operation.name) ∧
      ∀ left ∈ document.operations, ∀ right ∈ document.operations,
        Text.Sha256.hex (left.canonicalSource document.fragments) =
            Text.Sha256.hex (right.canonicalSource document.fragments) →
          left.canonicalSource document.fragments = right.canonicalSource document.fragments := by
    decide +kernel
  simp only [Sample.mem_toOption] at hcheck
  obtain ⟨document, hcompile, hlength, hnames, hdigest⟩ := hcheck
  obtain ⟨manifest, hmanifest, hids, hentries⟩ :=
    Schema.manifest_lossless hcompile hnames hdigest
  exact ⟨document, manifest, hcompile, hlength, hnames, hdigest, hmanifest, hids,
    hentries.length_eq.symm.trans hlength⟩

end Compiled

end QueryShape
