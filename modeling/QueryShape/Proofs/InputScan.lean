import QueryShape.CommandLine.InputFiles
import QueryShape.Proofs.FileWalks
import Mathlib.Data.List.Nodup

/-!
# What a scan finds

A scan walks down from every input path and keeps the files that have an extension to look for and
are no schema files. Input paths may denote the same node, or one node and another below it, so a
file can be met more than once; it is kept at its first place. If nothing is kept and the only input
path denotes a file, the scan takes that file.

The last rule asks for nothing else. It is there for files with other extensions, and it takes a
schema file that is named as the only document as well. So the files that are found are those that
the scan is to keep and, if there are none, the file that is the only input.

This holds of every file system, also of one with symbolic links: what counts is what its walks meet.
In a tree of files the walks meet all files at and under the input paths.

## What this module delivers

- `Accumulates`: steps of a scan that may fail, and that only add to what has been found.
- `Accumulates.foldlM`: one step after the other.
- `Inputs.Passes`, `Inputs.Keeps`: what a walk meets on the way, and what is kept of it.
- `Inputs.accumulates_meet`, `Inputs.accumulates_walks`: a scan goes through what its walks meet.
- `Inputs.Wants`, `Inputs.SoleFile`: the files to keep, and the file that is the only input.
- `Inputs.Readable`, `Inputs.scan_spec`: when a scan succeeds, and with what.
- `Inputs.wants_view_iff`: the files to keep in a tree of files.
- `Inputs.scan_finds`: what a scan finds.
-/

set_option autoImplicit false

namespace QueryShape.CommandLine

variable {inputs : Inputs} {view : FileView} {tree : FileTree} {given : String} {path : List String}

/-! ## Steps of a scan -/

/-- A step goes through exactly if nothing is wrong with what it is about. Then it adds the paths that
are to be kept, and none that is there. -/
structure Accumulates {α : Type}
    (step : List (List String) → α → Except ScanError (List (List String)))
    (passes : α → Prop) (keeps : α → List String → Prop) : Prop where
  passes_iff : ∀ found entry, (∃ out, step found entry = .ok out) ↔ passes entry
  nodup : ∀ {found entry out}, step found entry = .ok out → found.Nodup → out.Nodup
  mem_iff : ∀ {found entry out}, step found entry = .ok out →
    ∀ path, path ∈ out ↔ path ∈ found ∨ keeps entry path

/-- Steps that are taken one after the other. -/
theorem Accumulates.foldlM {α : Type}
    {step : List (List String) → α → Except ScanError (List (List String))}
    {passes : α → Prop} {keeps : α → List String → Prop} (h : Accumulates step passes keeps) :
    Accumulates (fun found entries => List.foldlM step found entries)
      (fun entries => ∀ entry ∈ entries, passes entry)
      (fun entries path => ∃ entry ∈ entries, keeps entry path) where
  passes_iff found entries := by
    induction entries generalizing found with
    | nil => simp [pure, Except.pure]
    | cons entry entries ih =>
        simp only [List.foldlM_cons, bind_eq_ok, List.forall_mem_cons]
        constructor
        · rintro ⟨out, middle, hfirst, hrest⟩
          exact ⟨(h.passes_iff found entry).mp ⟨middle, hfirst⟩, (ih middle).mp ⟨out, hrest⟩⟩
        · rintro ⟨hentry, hentries⟩
          obtain ⟨middle, hfirst⟩ := (h.passes_iff found entry).mpr hentry
          obtain ⟨out, hrest⟩ := (ih middle).mpr hentries
          exact ⟨out, middle, hfirst, hrest⟩
  nodup {found entries out} hsteps hfound := by
    induction entries generalizing found with
    | nil =>
        cases hsteps
        exact hfound
    | cons entry entries ih =>
        simp only [List.foldlM_cons, bind_eq_ok] at hsteps
        obtain ⟨middle, hfirst, hrest⟩ := hsteps
        exact ih hrest (h.nodup hfirst hfound)
  mem_iff {found entries out} hsteps path := by
    induction entries generalizing found with
    | nil =>
        cases hsteps
        simp
    | cons entry entries ih =>
        simp only [List.foldlM_cons, bind_eq_ok] at hsteps
        obtain ⟨middle, hfirst, hrest⟩ := hsteps
        rw [ih hrest, h.mem_iff hfirst, List.exists_mem_cons_iff, or_assoc]

theorem mem_addPath {found : List (List String)} {new : List String} :
    path ∈ addPath found new ↔ path ∈ found ∨ path = new := by
  rw [addPath]
  split
  next h =>
    rw [List.contains_iff_mem] at h
    exact ⟨Or.inl, fun hpath => hpath.elim id fun heq => heq ▸ h⟩
  next => rw [List.mem_append, List.mem_singleton]

theorem nodup_addPath {found : List (List String)} {new : List String} (h : found.Nodup) :
    (addPath found new).Nodup := by
  rw [addPath]
  split
  next => exact h
  next hnew =>
    rw [List.contains_iff_mem] at hnew
    exact h.append (List.nodup_singleton new) (List.disjoint_singleton.mpr hnew)

/-! ## What walks meet -/

namespace Inputs

/-- What a walk meets is a file with an extension to look for. -/
def Seeks (inputs : Inputs) (entry : WalkEntry) : Prop :=
  entry.isFile = true ∧ inputs.hasExtension entry.path.name? = true

/-- The walk goes on, and a file with an extension to look for has a canonical path. -/
def Passes (inputs : Inputs) (view : FileView) (met : Except WalkFault WalkEntry) : Prop :=
  ∃ entry, met = .ok entry ∧
    (inputs.Seeks entry → ∃ path, view.canonicalize entry.path = .ok path)

/-- A file with an extension to look for has a canonical path, which is not that of a schema file. -/
def Keeps (inputs : Inputs) (view : FileView) (met : Except WalkFault WalkEntry)
    (path : List String) : Prop :=
  ∃ entry, met = .ok entry ∧ inputs.Seeks entry ∧ view.canonicalize entry.path = .ok path ∧
    path ∉ inputs.excluded view

/-- Only what is looked for is resolved. -/
theorem document?_of_not_seeks {entry : WalkEntry} (h : ¬ inputs.Seeks entry) :
    inputs.document? view entry = .ok none := by
  rw [document?, if_neg (by simpa [Seeks] using h)]

theorem document?_of_seeks {entry : WalkEntry} (h : inputs.Seeks entry) :
    inputs.document? view entry =
      match view.canonicalize entry.path with
      | .error fault => .error (.notResolved entry.path.text fault)
      | .ok path => .ok (if (inputs.excluded view).contains path then none else some path) := by
  unfold document?
  exact if_pos (by simpa [Seeks] using h)

theorem exists_document?_iff {entry : WalkEntry} :
    (∃ out, inputs.document? view entry = .ok out) ↔ inputs.Passes view (.ok entry) := by
  simp only [Passes, Except.ok.injEq, exists_eq_left']
  by_cases hseeks : inputs.Seeks entry
  · rw [document?_of_seeks hseeks]
    cases view.canonicalize entry.path with
    | error fault => simp [hseeks]
    | ok path => simp
  · simp [document?_of_not_seeks hseeks, hseeks]

theorem document?_eq_some_iff {entry : WalkEntry} :
    inputs.document? view entry = .ok (some path) ↔ inputs.Keeps view (.ok entry) path := by
  simp only [Keeps, Except.ok.injEq, exists_eq_left']
  by_cases hseeks : inputs.Seeks entry
  · rw [document?_of_seeks hseeks]
    cases view.canonicalize entry.path with
    | error fault => simp
    | ok found =>
        simp only [Except.ok.injEq, List.contains_iff_mem, hseeks, true_and]
        split
        · next hexcluded =>
            simp only [reduceCtorEq, false_iff, not_and, not_not]
            rintro rfl
            exact hexcluded
        · next hkept =>
            rw [Option.some.injEq]
            constructor
            · rintro rfl
              exact ⟨rfl, hkept⟩
            · exact And.left
  · simp [document?_of_not_seeks hseeks, hseeks]

/-- What a walk meets is passed over or added. -/
theorem accumulates_meet (inputs : Inputs) (view : FileView) (given : String) :
    Accumulates (inputs.meet view given) (inputs.Passes view) (inputs.Keeps view) := by
  -- One thing that is met either ends the scan or leaves at most one path to add.
  have hmeet : ∀ {found met out}, inputs.meet view given found met = .ok out →
      ∃ entry new, met = .ok entry ∧ inputs.document? view entry = .ok new ∧
        out = new.elim found (addPath found) := by
    intro found met out h
    cases met with
    | error fault => exact nomatch h
    | ok entry =>
        obtain ⟨new, hnew, h⟩ := bind_eq_ok.mp h
        refine ⟨entry, new, rfl, hnew, ?_⟩
        cases new with
        | none => exact (Except.ok.inj h).symm
        | some path => exact (Except.ok.inj h).symm
  refine ⟨fun found met => ⟨?_, ?_⟩, ?_, ?_⟩
  · rintro ⟨out, h⟩
    obtain ⟨entry, new, rfl, hnew, -⟩ := hmeet h
    exact exists_document?_iff.mp ⟨new, hnew⟩
  · rintro ⟨entry, rfl, hpasses⟩
    obtain ⟨new, hnew⟩ := exists_document?_iff.mpr ⟨entry, rfl, hpasses⟩
    cases new with
    | none => exact ⟨found, bind_eq_ok.mpr ⟨none, hnew, rfl⟩⟩
    | some path => exact ⟨addPath found path, bind_eq_ok.mpr ⟨some path, hnew, rfl⟩⟩
  · intro found met out h hfound
    obtain ⟨entry, new, rfl, -, rfl⟩ := hmeet h
    cases new with
    | none => exact hfound
    | some path => exact nodup_addPath hfound
  · intro found met out h path
    obtain ⟨entry, new, rfl, hnew, rfl⟩ := hmeet h
    rw [← document?_eq_some_iff, hnew, Except.ok.injEq]
    cases new with
    | none => simp
    | some new => simp [mem_addPath, eq_comm]

/-- Whole walks are gone through like what they meet. -/
theorem accumulates_walks (inputs : Inputs) (view : FileView) :
    Accumulates (fun found given => (view.walk given).foldlM (inputs.meet view given) found)
      (fun given => ∀ met ∈ view.walk given, inputs.Passes view met)
      (fun given path => ∃ met ∈ view.walk given, inputs.Keeps view met path) where
  passes_iff found given := (accumulates_meet inputs view given).foldlM.passes_iff found _
  nodup {_ given _} := (accumulates_meet inputs view given).foldlM.nodup
  mem_iff {_ given _} := (accumulates_meet inputs view given).foldlM.mem_iff

/-! ## Scans -/

/-- A walk from an input path meets a file to keep. -/
def Wants (inputs : Inputs) (view : FileView) (path : List String) : Prop :=
  ∃ given ∈ inputs.paths, ∃ met ∈ view.walk given, inputs.Keeps view met path

/-- There is only one input path, and it denotes a file. -/
def SoleFile (inputs : Inputs) (view : FileView) (path : List String) : Prop :=
  ∃ given, inputs.paths = [given] ∧ view.isFile given = true ∧
    view.canonicalize ⟨given, []⟩ = .ok path

/-- All walks go through, and what has to be resolved can be: the files with an extension to look for
and, if there are none to keep, a file that is the only input. -/
structure Readable (inputs : Inputs) (view : FileView) : Prop where
  walks : ∀ given ∈ inputs.paths, ∀ met ∈ view.walk given, inputs.Passes view met
  soleFile : (∀ path, ¬ inputs.Wants view path) → ∀ given, inputs.paths = [given] →
    view.isFile given = true → ∃ path, view.canonicalize ⟨given, []⟩ = .ok path

/-- Documents that have been found are the result. -/
theorem scan_of_documents {documents : List (List String)}
    (h : inputs.documents view = .ok documents)
    (hother : documents = [] → ∀ given, inputs.paths = [given] → view.isFile given = false) :
    inputs.scan view = .ok ⟨documents, false⟩ := by
  refine bind_eq_ok.mpr ⟨documents, h, ?_⟩
  split
  next given hpaths => rw [hother rfl given hpaths, if_neg Bool.false_ne_true]
  next => rfl

/-- Where there are none, a file that is the only input is taken for one. -/
theorem scan_of_soleFile (h : inputs.documents view = .ok []) (hpaths : inputs.paths = [given])
    (hfile : view.isFile given = true) :
    inputs.scan view =
      match view.canonicalize ⟨given, []⟩ with
      | .error fault => .error (.notResolved given fault)
      | .ok path => .ok ⟨[path], true⟩ := by
  unfold scan
  rw [h, hpaths]
  exact if_pos hfile

/-- A scan succeeds exactly if what it has to read can be read. It finds no path twice, and it finds
the files to keep, or else the file that is the only input. -/
theorem scan_spec (inputs : Inputs) (view : FileView) :
    ((∃ found, inputs.scan view = .ok found) ↔ inputs.Readable view) ∧
      ∀ found, inputs.scan view = .ok found → found.paths.Nodup ∧
        ∀ path, path ∈ found.paths ↔ inputs.Wants view path ∨
          (∀ other, ¬ inputs.Wants view other) ∧ inputs.SoleFile view path := by
  have hscans := (accumulates_walks inputs view).foldlM
  cases hdocuments : inputs.documents view with
  | error error =>
      -- The walks end the scan before the last rule is asked.
      have hfails : ∀ found, inputs.scan view ≠ .ok found := by
        intro found hscan
        obtain ⟨documents, h, -⟩ := bind_eq_ok.mp hscan
        exact nomatch hdocuments.symm.trans h
      refine ⟨⟨fun ⟨found, hfound⟩ => absurd hfound (hfails found), fun hreadable => ?_⟩,
        fun found hfound => absurd hfound (hfails found)⟩
      obtain ⟨documents, h⟩ := (hscans.passes_iff [] inputs.paths).mpr hreadable.walks
      exact nomatch hdocuments.symm.trans h
  | ok documents =>
      have hwalks := (hscans.passes_iff [] inputs.paths).mp ⟨documents, hdocuments⟩
      have hnodup := hscans.nodup hdocuments List.nodup_nil
      have hmem : ∀ path, path ∈ documents ↔ inputs.Wants view path := fun path =>
        (hscans.mem_iff hdocuments path).trans (or_iff_right List.not_mem_nil)
      -- The last rule asks only for the path of the only input, and only if the walks kept nothing.
      by_cases hsole : documents = [] ∧ ∃ given, inputs.paths = [given] ∧ view.isFile given = true
      · obtain ⟨rfl, given, hpaths, hfile⟩ := hsole
        have hnone : ∀ path, ¬ inputs.Wants view path :=
          fun path hwants => List.not_mem_nil ((hmem path).mpr hwants)
        have hsole : ∀ path, inputs.SoleFile view path ↔
            view.canonicalize ⟨given, []⟩ = .ok path := by
          intro path
          simp [SoleFile, hpaths, hfile]
        have hreadable : inputs.Readable view ↔
            ∃ path, view.canonicalize ⟨given, []⟩ = .ok path := by
          refine ⟨fun h => h.soleFile hnone given hpaths hfile, fun h => ⟨hwalks, ?_⟩⟩
          rintro - other hother -
          cases hpaths.symm.trans hother
          exact h
        rw [hreadable, scan_of_soleFile hdocuments hpaths hfile]
        simp only [hsole, hnone, not_false_eq_true, implies_true, true_and, false_or]
        cases view.canonicalize ⟨given, []⟩ with
        | error fault => simp
        | ok path => simp [eq_comm]
      · have hscan : inputs.scan view = .ok ⟨documents, false⟩ := by
          refine scan_of_documents hdocuments fun hnil given hpaths => ?_
          rw [← Bool.not_eq_true]
          exact fun hfile => hsole ⟨hnil, given, hpaths, hfile⟩
        -- Something is to be kept, or there is no file that is the only input.
        have hnosole : (∀ other, ¬ inputs.Wants view other) → ∀ given, inputs.paths = [given] →
            view.isFile given ≠ true := by
          intro hnone given hpaths hfile
          refine hsole ⟨List.eq_nil_iff_forall_not_mem.mpr fun other hother => ?_, given, hpaths,
            hfile⟩
          exact hnone other ((hmem other).mp hother)
        refine ⟨⟨fun _ => ⟨hwalks, fun hnone given hpaths hfile =>
          absurd hfile (hnosole hnone given hpaths)⟩, fun _ => ⟨_, hscan⟩⟩, fun found hfound => ?_⟩
        cases hscan.symm.trans hfound
        refine ⟨hnodup, fun path => (hmem path).trans (or_iff_left_iff_imp.mpr ?_).symm⟩
        rintro ⟨hnone, given, hpaths, hfile, -⟩
        exact absurd hfile (hnosole hnone given hpaths)

/-! ### Trees of files -/

/-- In a tree of files, the files to keep are those at and under the input paths that end in an
extension to look for and are no schema files. -/
theorem wants_view_iff (hdistinct : tree.root.Distinct)
    (hreach : ∀ given ∈ inputs.paths, tree.Reaches given) :
    inputs.Wants tree.view path ↔ (∃ given ∈ inputs.paths, tree.Covers given path) ∧
      inputs.hasExtension path.getLast? = true ∧ path ∉ inputs.excluded tree.view := by
  constructor
  · rintro ⟨given, hgiven, met, hmet, entry, rfl, ⟨hfile, hextension⟩, hcanonical, hkept⟩
    -- A walk in a tree comes to a file under the name that the canonical path ends in.
    obtain ⟨_, heq, hfiles⟩ := ((hreach given hgiven).files hdistinct).1 _ hmet
    cases heq
    obtain ⟨found, hcovers, hfound, hname⟩ := hfiles hfile
    cases hfound.symm.trans hcanonical
    exact ⟨⟨given, hgiven, hcovers⟩, hname ▸ hextension, hkept⟩
  · rintro ⟨⟨given, hgiven, hcovers⟩, hextension, hkept⟩
    obtain ⟨entry, hmet, hfile, hcanonical, hname⟩ :=
      ((hreach given hgiven).files hdistinct).2 path hcovers
    exact ⟨given, hgiven, _, hmet, entry, rfl, ⟨hfile, hname ▸ hextension⟩, hcanonical, hkept⟩

/-- If all input paths can be walked, nothing is left that could not be read. -/
theorem readable_view (hdistinct : tree.root.Distinct)
    (hreach : ∀ given ∈ inputs.paths, tree.Reaches given) : inputs.Readable tree.view where
  walks given hgiven met hmet := by
    obtain ⟨entry, rfl, hfiles⟩ := ((hreach given hgiven).files hdistinct).1 met hmet
    refine ⟨entry, rfl, fun hseeks => ?_⟩
    obtain ⟨path, -, hcanonical, -⟩ := hfiles hseeks.1
    exact ⟨path, hcanonical⟩
  soleFile _ given hpaths hfile := by
    obtain ⟨start, bytes, hlookup⟩ := FileTree.isFile_iff.mp hfile
    have hgiven : given ∈ inputs.paths := hpaths ▸ List.mem_singleton_self given
    exact ⟨start, (hreach given hgiven).canonicalize_file hlookup⟩

/-- Nothing else is at or under the file that is the only input. -/
theorem SoleFile.eq_of_wants {other : List String} (h : inputs.SoleFile tree.view path)
    (hdistinct : tree.root.Distinct) (hreach : ∀ given ∈ inputs.paths, tree.Reaches given)
    (hwants : inputs.Wants tree.view other) : other = path := by
  obtain ⟨given, hpaths, hfile, hcanonical⟩ := h
  obtain ⟨start, bytes, hlookup⟩ := FileTree.isFile_iff.mp hfile
  have hgiven : given ∈ inputs.paths := hpaths ▸ List.mem_singleton_self given
  cases ((hreach given hgiven).canonicalize_file hlookup).symm.trans hcanonical
  obtain ⟨⟨found, hfound, hcovers⟩, -⟩ := (wants_view_iff hdistinct hreach).mp hwants
  rw [hpaths, List.mem_singleton] at hfound
  exact (hfound ▸ hcovers).eq_of_file hlookup

/-- What a scan finds, in every file system. It succeeds exactly if its walks go through and what has
to be resolved can be. It finds no path twice. It finds exactly the canonical paths of the files that
its walks meet, that have an extension to look for and that are no schema files; or else, whatever its
extension is and even if it is a schema file, the file that is the only input.

In a tree of files in which all input paths exist and can be walked, a scan succeeds, and the files
that its walks meet are those at and under the input paths. -/
theorem scan_finds (inputs : Inputs) :
    (∀ view : FileView,
      ((∃ found, inputs.scan view = .ok found) ↔ inputs.Readable view) ∧
      ∀ found, inputs.scan view = .ok found → found.paths.Nodup ∧
        ∀ path, path ∈ found.paths ↔ inputs.Wants view path ∨
          (∀ other, ¬ inputs.Wants view other) ∧ inputs.SoleFile view path) ∧
    ∀ tree : FileTree, tree.root.Distinct → (∀ given ∈ inputs.paths, tree.Reaches given) →
      ∃ found, inputs.scan tree.view = .ok found ∧ found.paths.Nodup ∧
        ∀ path, path ∈ found.paths ↔
          ((∃ given ∈ inputs.paths, tree.Covers given path) ∧
            inputs.hasExtension path.getLast? = true ∧ path ∉ inputs.excluded tree.view) ∨
          inputs.SoleFile tree.view path := by
  refine ⟨scan_spec inputs, fun tree hdistinct hreach => ?_⟩
  obtain ⟨hsucceeds, hfinds⟩ := scan_spec inputs tree.view
  obtain ⟨found, hscan⟩ := hsucceeds.mpr (readable_view hdistinct hreach)
  obtain ⟨hnodup, hmem⟩ := hfinds found hscan
  refine ⟨found, hscan, hnodup, fun path => ?_⟩
  rw [hmem, ← wants_view_iff hdistinct hreach]
  constructor
  · exact Or.imp_right And.right
  · rintro (hwants | hsole)
    · exact .inl hwants
    · -- If anything is to be kept, it is the file that is the only input.
      by_cases hnone : ∀ other, ¬ inputs.Wants tree.view other
      · exact .inr ⟨hnone, hsole⟩
      · obtain ⟨other, hother⟩ := not_forall_not.mp hnone
        exact .inl (hsole.eq_of_wants hdistinct hreach hother ▸ hother)

end Inputs

/-! ## A sample -/

namespace Sample

/-- A schema file, and a directory with a document and with notes. -/
def files : FileTree where
  root := .directory [("w", .directory [
    ("ops", .directory [("a.graphql", .file []), ("notes.txt", .file [])]),
    ("schema.graphql", .file [])])]
  workingDirectory := ["w"]

theorem distinct_files : files.root.Distinct := by
  simp [files, FileNode.distinct_directory_iff, FileNode.Distinct.file]

/-- These paths have no slash, so they are their only component. -/
theorem start_files : ∀ name ∈ [".", "ops", "schema.graphql"],
    files.start name = .ok (["w"], [name]) := by
  have hsplit : ∀ name ∈ [".", "ops", "schema.graphql"], name.splitOn "/" = [name] := by
    simp only [List.forall_mem_cons, List.not_mem_nil, false_imp_iff, implies_true, and_true]
    refine ⟨?_, ?_, ?_⟩ <;>
    · rw [String.splitOn, if_neg (by decide)]
      repeat rw [String.splitOnAux, if_neg (by decide), if_neg (by decide)]
      rw [String.splitOnAux, if_pos (by decide)]
      decide
  intro name hname
  rw [FileTree.start, FileTree.origin, hsplit name hname]
  simp only [List.mem_cons, List.not_mem_nil, or_false] at hname
  rcases hname with rfl | rfl | rfl <;>
    simp [files, maxPathSize, bind, Except.bind] <;> decide

theorem resolve_here : files.resolve "." = .ok ["w"] := by
  rw [FileTree.resolve, start_files "." (by decide)]
  decide

theorem resolve_ops : files.resolve "ops" = .ok ["w", "ops"] := by
  rw [FileTree.resolve, start_files "ops" (by decide)]
  decide

theorem resolve_schema : files.resolve "schema.graphql" = .ok ["w", "schema.graphql"] := by
  rw [FileTree.resolve, start_files "schema.graphql" (by decide)]
  decide

/-- All paths are short, those that walks come by and the canonical ones. -/
theorem reaches_of_lookup {given : String} {start : List String} {node : FileNode}
    (hlookup : files.lookup given = .ok (start, node))
    (hshort : ∀ below inner, node.at? below = some inner →
      (WalkedPath.mk given below).text.utf8ByteSize ≤ maxPathSize ∧
        (FileTree.pathText (start ++ below)).utf8ByteSize ≤ maxPathSize) : files.Reaches given :=
  ⟨start, node, hlookup, fun below _ hat => (hshort below _ hat).1,
    fun below _ hat => (hshort below _ hat).2⟩

theorem reaches_ops : files.Reaches "ops" := by
  refine reaches_of_lookup (FileTree.lookup_eq_ok_iff.mpr ⟨resolve_ops, rfl⟩) ?_
  refine FileNode.forall_at?_directory (by decide) ?_
  simp only [List.forall_mem_cons, List.not_mem_nil, false_imp_iff, implies_true, and_true]
  exact ⟨FileNode.forall_at?_file (by decide +kernel), FileNode.forall_at?_file (by decide +kernel)⟩

theorem reaches_here : files.Reaches "." := by
  refine reaches_of_lookup (FileTree.lookup_eq_ok_iff.mpr ⟨resolve_here, rfl⟩) ?_
  refine FileNode.forall_at?_directory (by decide) ?_
  simp only [List.forall_mem_cons, List.not_mem_nil, false_imp_iff, implies_true, and_true]
  refine ⟨FileNode.forall_at?_directory (by decide +kernel) ?_,
    FileNode.forall_at?_file (by decide +kernel)⟩
  simp only [List.forall_mem_cons, List.not_mem_nil, false_imp_iff, implies_true, and_true]
  exact ⟨FileNode.forall_at?_file (by decide +kernel), FileNode.forall_at?_file (by decide +kernel)⟩

theorem lookup_schema : files.lookup "schema.graphql" = .ok (["w", "schema.graphql"], .file []) :=
  FileTree.lookup_eq_ok_iff.mpr ⟨resolve_schema, rfl⟩

theorem reaches_schema : files.Reaches "schema.graphql" :=
  reaches_of_lookup lookup_schema (FileNode.forall_at?_file (by decide))

theorem excluded_schema (extensions paths : List String) :
    Inputs.excluded ⟨["schema.graphql"], extensions, paths⟩ files.view =
      [["w", "schema.graphql"]] := by
  have hcanonical : files.view.canonicalize ⟨"schema.graphql", []⟩ = .ok ["w", "schema.graphql"] :=
    reaches_schema.canonicalize_file lookup_schema
  simp [Inputs.excluded, hcanonical, Except.toOption]

end Sample

/-- A document is met twice and found once; a schema file and notes are not found. -/
theorem Inputs.scan_finds_sample :
    let inputs : Inputs := ⟨["schema.graphql"], ["graphql", "gql"], [".", "ops"]⟩
    Sample.files.root.Distinct ∧ (∀ given ∈ inputs.paths, Sample.files.Reaches given) ∧
      ∃ found, inputs.scan Sample.files.view = .ok found ∧ found.paths.Nodup ∧
        ["w", "ops", "a.graphql"] ∈ found.paths ∧ ["w", "ops", "notes.txt"] ∉ found.paths ∧
        ["w", "schema.graphql"] ∉ found.paths := by
  intro inputs
  have hreach : ∀ given ∈ inputs.paths, Sample.files.Reaches given := by
    simp only [inputs, List.forall_mem_cons, List.not_mem_nil, false_imp_iff, implies_true,
      and_true]
    exact ⟨Sample.reaches_here, Sample.reaches_ops⟩
  obtain ⟨found, hscan, hnodup, hmem⟩ :=
    (Inputs.scan_finds inputs).2 Sample.files Sample.distinct_files hreach
  have hsole : ∀ path, ¬ inputs.SoleFile Sample.files.view path := by
    rintro path ⟨given, hpaths, -⟩
    cases hpaths
  simp only [hsole, or_false, inputs, Sample.excluded_schema] at hmem
  refine ⟨Sample.distinct_files, hreach, found, hscan, hnodup,
    (hmem _).mpr ⟨⟨".", ?_, ?_⟩, ?_⟩, fun hnotes => ?_, fun hschema => ?_⟩
  · exact List.mem_cons_self
  · exact ⟨⟨[], rfl⟩, ["w"], Sample.resolve_here, by decide⟩
  · decide
  · exact absurd ((hmem _).mp hnotes).2 (by decide)
  · exact absurd ((hmem _).mp hschema).2 (by decide)

/-- The only input is a schema file, and it is found. -/
theorem Inputs.scan_schemaFile :
    let inputs : Inputs := ⟨["schema.graphql"], ["graphql", "gql"], ["schema.graphql"]⟩
    Sample.files.root.Distinct ∧ (∀ given ∈ inputs.paths, Sample.files.Reaches given) ∧
      ["w", "schema.graphql"] ∈ inputs.excluded Sample.files.view ∧
      inputs.scan Sample.files.view = .ok ⟨[["w", "schema.graphql"]], true⟩ := by
  intro inputs
  have hexcluded : inputs.excluded Sample.files.view = [["w", "schema.graphql"]] :=
    Sample.excluded_schema _ _
  have hreach : ∀ given ∈ inputs.paths, Sample.files.Reaches given :=
    fun given hgiven => List.mem_singleton.mp hgiven ▸ Sample.reaches_schema
  refine ⟨Sample.distinct_files, hreach, hexcluded ▸ List.mem_cons_self, ?_⟩
  have hisFile : Sample.files.view.isFile "schema.graphql" = true :=
    FileTree.isFile_iff.mpr ⟨_, _, Sample.lookup_schema⟩
  have hcanonical : Sample.files.view.canonicalize ⟨"schema.graphql", []⟩ =
      .ok ["w", "schema.graphql"] :=
    Sample.reaches_schema.canonicalize_file Sample.lookup_schema
  -- The walk meets the schema file and nothing else, and passes over it.
  have hwalk : Sample.files.view.walk "schema.graphql" = [.ok ⟨⟨"schema.graphql", []⟩, true⟩] := by
    change Sample.files.walk "schema.graphql" = _
    simp only [FileTree.walk, Sample.lookup_schema, FileNode.walk]
  have hmeet : inputs.meet Sample.files.view "schema.graphql" []
      (.ok ⟨⟨"schema.graphql", []⟩, true⟩) = .ok [] := by
    refine bind_eq_ok.mpr ⟨none, ?_, rfl⟩
    by_cases hseeks : inputs.Seeks ⟨⟨"schema.graphql", []⟩, true⟩
    · rw [document?_of_seeks hseeks]
      simp only [hcanonical, hexcluded]
      rfl
    · exact document?_of_not_seeks hseeks
  have hdocuments : inputs.documents Sample.files.view = .ok [] := by
    simp only [Inputs.documents, inputs, List.foldlM_cons, List.foldlM_nil, hwalk, bind_eq_ok]
    exact ⟨[], ⟨[], hmeet, rfl⟩, rfl⟩
  rw [scan_of_soleFile hdocuments rfl hisFile, hcanonical]

end QueryShape.CommandLine
