import QueryShape.FileTree
import QueryShape.InvariantError
import Mathlib.Data.List.Basic

/-!
# Walks through a tree of files

A walk from a path meets every node at and under the node that the path denotes, each by the path
and the names that lead down to it, provided that it can open every directory on the way. In a tree
without symbolic links these names are the end of the canonical path, and a file is met under the
name that its canonical path ends in.

## What this module delivers

- `FileNode.Distinct`: trees in which no directory has two entries of one name.
- `FileNode.Distinct.mem_walk`: a walk meets what names lead to.
- `FileTree.Reaches`, `FileTree.Covers`: paths that can be walked, and the files at or under them.
- `FileTree.Reaches.files`: the files that a walk meets, with their names and canonical paths.
- `FileTree.Covers.eq_of_file`: nothing but a file itself is at or under it.
-/

set_option autoImplicit false

namespace QueryShape

/-! ## Nodes -/

namespace FileNode

/-- In every directory at or under a node, no two entries have one name. -/
inductive Distinct : FileNode → Prop
  | file (bytes : List UInt8) : Distinct (file bytes)
  | directory {entries : List (String × FileNode)} :
      (entries.map Prod.fst).Nodup → (∀ entry ∈ entries, Distinct entry.2) →
      Distinct (directory entries)

theorem distinct_directory_iff {entries : List (String × FileNode)} :
    (directory entries).Distinct ↔
      (entries.map Prod.fst).Nodup ∧ ∀ entry ∈ entries, entry.2.Distinct :=
  ⟨fun h => by cases h with | directory hnames hentries => exact ⟨hnames, hentries⟩,
    fun h => .directory h.1 h.2⟩

variable {node below : FileNode} {path base : List String} {given : String}
  {met : Except WalkFault WalkEntry}

theorem at?_directory_cons (entries : List (String × FileNode)) (name : String)
    (rest : List String) :
    (directory entries).at? (name :: rest) = (entries.lookup name).bind (·.at? rest) := rfl

theorem at?_append (node : FileNode) (path rest : List String) :
    node.at? (path ++ rest) = (node.at? path).bind (·.at? rest) := by
  induction path generalizing node with
  | nil => rfl
  | cons name path ih =>
      cases node with
      | file bytes => rfl
      | directory entries =>
          rw [List.cons_append, at?_directory_cons, at?_directory_cons, Option.bind_assoc]
          exact Option.bind_congr fun child _ => ih child

/-- A name denotes every entry that has it. -/
theorem lookup_eq_some_iff_mem {entries : List (String × FileNode)} {name : String}
    (hnames : (entries.map Prod.fst).Nodup) :
    entries.lookup name = some node ↔ (name, node) ∈ entries :=
  @Table.get?_eq_some_iff_mem FileNode ⟨entries⟩ name node hnames

theorem Distinct.of_at? (h : node.Distinct) (hat : node.at? path = some below) :
    below.Distinct := by
  induction path generalizing node with
  | nil =>
      cases hat
      exact h
  | cons name path ih =>
      cases h with
      | file bytes => cases hat
      | directory hnames hentries =>
          rw [at?_directory_cons] at hat
          obtain ⟨child, hchild, hat⟩ := Option.bind_eq_some_iff.mp hat
          exact ih (hentries _ ((lookup_eq_some_iff_mem hnames).mp hchild)) hat

theorem mem_walkEntries {entries : List (String × FileNode)} :
    met ∈ walkEntries given base entries ↔
      ∃ entry ∈ entries, met ∈ entry.2.walk given (base ++ [entry.1]) := by
  induction entries with
  | nil => simp [walkEntries]
  | cons entry entries ih =>
      obtain ⟨name, node⟩ := entry
      rw [walkEntries, List.mem_append, ih, List.exists_mem_cons_iff]

/-- Where every directory can be opened, a walk meets the nodes to which names lead. -/
theorem Distinct.mem_walk (h : node.Distinct)
    (hopen : ∀ rest entries, node.at? rest = some (.directory entries) →
      (WalkedPath.mk given (base ++ rest)).text.utf8ByteSize ≤ maxPathSize) :
    met ∈ node.walk given base ↔
      ∃ rest below, node.at? rest = some below ∧ met = .ok ⟨⟨given, base ++ rest⟩, below.isFile⟩ := by
  induction h generalizing base with
  | file bytes =>
      rw [walk, List.mem_singleton]
      constructor
      · rintro rfl
        exact ⟨[], _, rfl, by rw [List.append_nil, isFile]⟩
      · rintro ⟨rest, below, hat, rfl⟩
        cases rest with
        | nil =>
            cases hat
            rw [List.append_nil, isFile]
        | cons name rest => cases hat
  | @directory entries hnames _ ih =>
      have hself : (WalkedPath.mk given base).text.utf8ByteSize ≤ maxPathSize :=
        List.append_nil base ▸ hopen [] entries rfl
      have hinner : ∀ name child, (name, child) ∈ entries → ∀ rest inner,
          child.at? rest = some (.directory inner) →
            (WalkedPath.mk given (base ++ [name] ++ rest)).text.utf8ByteSize ≤ maxPathSize := by
        intro name child hmem rest inner hat
        rw [List.append_assoc]
        refine hopen (name :: rest) inner ?_
        rw [at?_directory_cons, (lookup_eq_some_iff_mem hnames).mpr hmem]
        exact hat
      rw [walk, if_neg (Nat.not_lt.mpr hself), List.mem_cons, mem_walkEntries]
      -- The names that lead down are none for the directory itself, and else tell the entry.
      constructor
      · rintro (rfl | ⟨⟨name, child⟩, hmem, hmet⟩)
        · exact ⟨[], _, rfl, by rw [List.append_nil, isFile]⟩
        · obtain ⟨rest, below, hat, rfl⟩ := (ih _ hmem (hinner name child hmem)).mp hmet
          refine ⟨name :: rest, below, ?_, by rw [List.append_assoc, List.singleton_append]⟩
          rw [at?_directory_cons, (lookup_eq_some_iff_mem hnames).mpr hmem]
          exact hat
      · rintro ⟨rest, below, hat, rfl⟩
        cases rest with
        | nil =>
            cases hat
            exact .inl (by rw [List.append_nil, isFile])
        | cons name rest =>
            rw [at?_directory_cons] at hat
            obtain ⟨child, hchild, hat⟩ := Option.bind_eq_some_iff.mp hat
            have hmem := (lookup_eq_some_iff_mem hnames).mp hchild
            refine .inr ⟨(name, child), hmem, (ih _ hmem (hinner name child hmem)).mpr ?_⟩
            exact ⟨rest, below, hat, by rw [List.append_cons]⟩

/-- What holds of a directory, and of everything at and under its entries, holds of everything that
names lead to. -/
theorem forall_at?_directory {entries : List (String × FileNode)}
    {holds : List String → FileNode → Prop} (hself : holds [] (directory entries))
    (hentries : ∀ entry ∈ entries, ∀ rest below, entry.2.at? rest = some below →
      holds (entry.1 :: rest) below) (rest : List String) (below : FileNode)
    (h : (directory entries).at? rest = some below) : holds rest below := by
  cases rest with
  | nil =>
      cases h
      exact hself
  | cons name rest =>
      rw [at?_directory_cons] at h
      obtain ⟨child, hchild, hbelow⟩ := Option.bind_eq_some_iff.mp h
      obtain ⟨before, after, rfl, -⟩ := List.lookup_eq_some_iff.mp hchild
      exact hentries (name, child) (List.mem_append_right _ List.mem_cons_self) rest below hbelow

theorem forall_at?_file {bytes : List UInt8} {holds : List String → FileNode → Prop}
    (hself : holds [] (file bytes)) (rest : List String) (below : FileNode)
    (h : (file bytes).at? rest = some below) : holds rest below := by
  cases rest with
  | nil =>
      cases h
      exact hself
  | cons name rest => cases h

/-- What lies on the way to a node is a directory. -/
theorem exists_entries_of_at?_concat {name : String} (h : node.at? (path ++ [name]) = some below) :
    ∃ entries, node.at? path = some (.directory entries) := by
  rw [at?_append] at h
  obtain ⟨outer, houter, hbelow⟩ := Option.bind_eq_some_iff.mp h
  cases outer with
  | file bytes => cases hbelow
  | directory entries => exact ⟨entries, houter⟩

end FileNode

/-! ## Trees -/

namespace FileTree

variable {tree : FileTree} {given : String} {path start below : List String} {node : FileNode}

/-- A path exists and can be walked: every directory at and under it can be opened by the path that
the walk has come, and no file has a canonical path that is too long. -/
def Reaches (tree : FileTree) (given : String) : Prop :=
  ∃ start node, tree.lookup given = .ok (start, node) ∧
    (∀ below entries, node.at? below = some (.directory entries) →
      (WalkedPath.mk given below).text.utf8ByteSize ≤ maxPathSize) ∧
    ∀ below bytes, node.at? below = some (.file bytes) →
      (pathText (start ++ below)).utf8ByteSize ≤ maxPathSize

/-- A canonical path leads to a file that is at or under what a path denotes. -/
def Covers (tree : FileTree) (given : String) (path : List String) : Prop :=
  (∃ bytes, tree.root.at? path = some (.file bytes)) ∧
    ∃ start, tree.resolve given = .ok start ∧ start <+: path

theorem lookup_eq_ok_iff : tree.lookup given = .ok (start, node) ↔
    tree.resolve given = .ok start ∧ tree.root.at? start = some node := by
  rw [lookup, bind_eq_ok]
  constructor
  · rintro ⟨canonical, hresolve, h⟩
    split at h
    next found hfound =>
      cases h
      exact ⟨hresolve, hfound⟩
    next => cases h
  · rintro ⟨hresolve, hat⟩
    exact ⟨start, hresolve, by rw [hat]⟩

/-- Nothing but a file itself is at or under it. -/
theorem Covers.eq_of_file {bytes : List UInt8} (h : tree.Covers given path)
    (hfile : tree.lookup given = .ok (start, .file bytes)) : path = start := by
  obtain ⟨hresolve, hstart⟩ := lookup_eq_ok_iff.mp hfile
  obtain ⟨⟨content, hpath⟩, other, hother, rest, rfl⟩ := h
  cases hresolve.symm.trans hother
  rw [FileNode.at?_append, hstart] at hpath
  cases rest with
  | nil => exact List.append_nil _
  | cons name rest => cases hpath

theorem isFile_iff : tree.isFile given = true ↔
    ∃ start bytes, tree.lookup given = .ok (start, .file bytes) := by
  rw [isFile]
  constructor
  · intro h
    split at h
    next start bytes hlookup => exact ⟨start, bytes, hlookup⟩
    next => exact nomatch h
  · rintro ⟨start, bytes, hlookup⟩
    rw [hlookup]

/-! ### Names and canonical paths -/

/-- What following a component does: it stays, goes up, or enters an entry of a directory. -/
theorem follow_cons {root : FileNode} {here : List String} {component : String}
    {rest : List String} (h : follow root here (component :: rest) = .ok path) :
    ∃ entries next, root.at? here = some (.directory entries) ∧ follow root next rest = .ok path ∧
      (FileName.isStep component = false ∧ next = here ∨
        component = ".." ∧ next = here.dropLast ∨
        FileName.isStep component = true ∧ component ≠ ".." ∧ next = here ++ [component]) := by
  rw [follow] at h
  split at h
  next => exact nomatch h
  next => exact nomatch h
  next entries hhere =>
    split at h
    next hstay =>
      refine ⟨entries, here, hhere, h, .inl ⟨?_, rfl⟩⟩
      simp only [Bool.or_eq_true, decide_eq_true_eq] at hstay
      rcases hstay with rfl | rfl <;> rfl
    next hstep =>
      split at h
      next hup => exact ⟨entries, here.dropLast, hhere, h, .inr (.inl ⟨hup, rfl⟩)⟩
      next hdown =>
        split at h
        next => exact nomatch h
        next =>
          split at h
          next =>
            refine ⟨entries, here ++ [component], hhere, h, .inr (.inr ⟨?_, hdown, rfl⟩)⟩
            simp only [Bool.or_eq_true, decide_eq_true_eq, not_or] at hstep
            simp [FileName.isStep, hstep]
          next => exact nomatch h

/-- A path that leads to a file ends in the name that the canonical path ends in. -/
theorem getLast?_of_follow {root : FileNode} (components : List String) (hne : components ≠ [])
    {here : List String} {bytes : List UInt8} (h : follow root here components = .ok path)
    (hfile : root.at? path = some (.file bytes)) :
    ∃ name, path.getLast? = some name ∧
      (components.filter FileName.isStep).getLast? = some name ∧ name ≠ ".." := by
  -- Components in front of the last one only change where it is looked up.
  induction components generalizing here with
  | nil => exact absurd rfl hne
  | cons component rest ih =>
      obtain ⟨entries, next, hhere, hrest, hnext⟩ := follow_cons h
      cases rest with
      | nil =>
          -- The last component leads to the file, so it enters an entry: here is a directory, and
          -- what lies above a directory is one.
          cases hrest
          rcases hnext with ⟨-, rfl⟩ | ⟨-, rfl⟩ | ⟨hstep, hdown, rfl⟩
          · cases hhere.symm.trans hfile
          · rcases List.eq_nil_or_concat' here with rfl | ⟨outer, last, rfl⟩
            · cases hhere.symm.trans hfile
            · rw [List.dropLast_concat] at hfile
              obtain ⟨inner, hinner⟩ := FileNode.exists_entries_of_at?_concat hhere
              cases hinner.symm.trans hfile
          · exact ⟨component, List.getLast?_concat .., by simp [hstep], hdown⟩
      | cons second rest =>
          obtain ⟨name, hlast, hname, hnot⟩ := ih (List.cons_ne_nil second rest) hrest
          refine ⟨name, hlast, ?_, hnot⟩
          rw [List.filter_cons]
          split
          · rw [List.getLast?_cons, hname]
            rfl
          · exact hname

theorem start_eq_ok {here components : List String}
    (h : tree.start given = .ok (here, components)) :
    tree.origin given = .ok (here, components) := by
  obtain ⟨found, hfound, h⟩ := bind_eq_ok.mp h
  split at h
  · exact nomatch h
  · exact h ▸ hfound

/-- A path that denotes a file ends in the name of the file. -/
theorem fileName?_eq {bytes : List UInt8} (h : tree.lookup given = .ok (start, .file bytes)) :
    fileName? given = start.getLast? := by
  obtain ⟨hresolve, hfile⟩ := lookup_eq_ok_iff.mp h
  obtain ⟨⟨here, components⟩, hstart, hfollow⟩ := bind_eq_ok.mp hresolve
  have horigin := start_eq_ok hstart
  rw [origin] at horigin
  split at horigin
  next => exact nomatch horigin
  next =>
    split at horigin
    next => exact nomatch horigin
    next =>
      have hname : ∀ components, components ≠ [] → follow tree.root here components = .ok start →
          ((components.filter FileName.isStep).getLast?).filter (· != "..") = start.getLast? := by
        intro components hne hfollow
        obtain ⟨name, hlast, hname, hnot⟩ := getLast?_of_follow components hne hfollow hfile
        rw [hlast, hname, Option.filter_some, if_pos (by simpa using hnot)]
      rw [fileName?]
      split at horigin
      next => exact nomatch horigin
      next component rest hsplit =>
        cases horigin
        rw [hsplit, List.filter_cons_of_neg (by decide)]
        exact hname _ (List.cons_ne_nil component rest) hfollow
      next hne _ =>
        cases horigin
        exact hname _ hne hfollow

/-- The canonical path of what a walk meets. -/
theorem canonicalize_eq (hresolve : tree.resolve given = .ok start)
    (hsize : (pathText (start ++ below)).utf8ByteSize ≤ maxPathSize) :
    tree.canonicalize ⟨given, below⟩ = .ok (start ++ below) := by
  obtain ⟨⟨here, components⟩, hstart, hfollow⟩ := bind_eq_ok.mp hresolve
  refine bind_eq_ok.mpr ⟨_, start_eq_ok hstart, bind_eq_ok.mpr ⟨start, hfollow, ?_⟩⟩
  exact if_neg (Nat.not_lt.mpr hsize)

/-- A path that denotes a file has the canonical path of the file. -/
theorem Reaches.canonicalize_file {bytes : List UInt8} (h : tree.Reaches given)
    (hfile : tree.lookup given = .ok (start, .file bytes)) :
    tree.canonicalize ⟨given, []⟩ = .ok start := by
  obtain ⟨other, node, hlookup, -, hfits⟩ := h
  cases hlookup.symm.trans hfile
  have hsize := hfits [] bytes rfl
  have hcanonical := canonicalize_eq (lookup_eq_ok_iff.mp hfile).1 hsize
  rwa [List.append_nil] at hcanonical

/-- A file that a walk meets has the name that its canonical path ends in. -/
theorem name?_eq {bytes : List UInt8} (h : tree.lookup given = .ok (start, node))
    (hfile : node.at? below = some (.file bytes)) :
    (WalkedPath.mk given below).name? = (start ++ below).getLast? := by
  rw [WalkedPath.name?]
  rcases List.eq_nil_or_concat' below with rfl | ⟨outer, last, rfl⟩
  · cases hfile
    rw [List.append_nil]
    exact fileName?_eq h
  · rw [← List.append_assoc, List.getLast?_concat, List.getLast?_concat]

/-- The files that a walk meets are those that it covers. Each comes with its name and its canonical
path. -/
theorem Reaches.files (hdistinct : tree.root.Distinct) (h : tree.Reaches given) :
    (∀ met ∈ tree.walk given, ∃ entry, met = .ok entry ∧
      (entry.isFile = true → ∃ path, tree.Covers given path ∧
        tree.canonicalize entry.path = .ok path ∧ entry.path.name? = path.getLast?)) ∧
    ∀ path, tree.Covers given path → ∃ entry, .ok entry ∈ tree.walk given ∧ entry.isFile = true ∧
      tree.canonicalize entry.path = .ok path ∧ entry.path.name? = path.getLast? := by
  obtain ⟨start, node, hlookup, hopen, hfits⟩ := h
  obtain ⟨hresolve, hstart⟩ := lookup_eq_ok_iff.mp hlookup
  -- What lies below the node in the tree lies as far below the path in the walk.
  have hmem : ∀ met, met ∈ tree.walk given ↔ ∃ below inner, node.at? below = some inner ∧
      met = .ok ⟨⟨given, below⟩, inner.isFile⟩ := by
    intro met
    rw [walk, hlookup]
    exact (hdistinct.of_at? hstart).mem_walk hopen
  refine ⟨fun met hmet => ?_, fun path hcovers => ?_⟩
  · obtain ⟨below, inner, hinner, rfl⟩ := (hmem met).mp hmet
    refine ⟨_, rfl, fun hisFile => ?_⟩
    cases inner with
    | directory entries => exact nomatch hisFile
    | file bytes =>
        refine ⟨start ++ below, ⟨⟨bytes, ?_⟩, start, hresolve, List.prefix_append ..⟩,
          canonicalize_eq hresolve (hfits below bytes hinner), name?_eq hlookup hinner⟩
        rw [FileNode.at?_append, hstart]
        exact hinner
  · obtain ⟨⟨bytes, hfile⟩, other, hother, below, rfl⟩ := hcovers
    cases hresolve.symm.trans hother
    rw [FileNode.at?_append, hstart] at hfile
    exact ⟨_, (hmem _).mpr ⟨below, _, hfile, rfl⟩, rfl,
      canonicalize_eq hresolve (hfits below bytes hfile), name?_eq hlookup hfile⟩

end FileTree

end QueryShape
