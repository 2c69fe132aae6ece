import QueryShape.Proofs.Executable.Depth
import QueryShape.Proofs.Executable.Failures
import QueryShape.Proofs.Partition

/-!
# Cycles of fragments

One name leads to another if it is spread, at any depth, in the fragment of the other. A name that
leads to itself lies on a cycle. Documents with such a name do not compile, wherever the cycle is
and whether or not an operation reaches it; leaving out repeated spreads does not hide it. A name
is reported for a cycle only if it lies on one. The compilation ends in every case: without the
depths that bound it, its recursions have the same results and no others.

## What this module delivers

- `Source.Compilable.acyclic`: definitions that compile together have no cycle.
- `Schema.fragment_cycles`: cycles are what is reported as cycles, and compilation ends.
-/

set_option autoImplicit false

namespace QueryShape

/-- In definitions that compile together no name leads to itself. -/
theorem Source.Compilable.acyclic {schema : Schema} {all : List Source.Definition}
    (h : Source.Compilable schema all) (name : String) :
    ¬ Relation.TransGen (Source.Spreads all) name name := by
  intro hcycle
  -- The name is that of a fragment, because something is spread in it.
  obtain ⟨_, ⟨fragment, hmem, rfl, -⟩, -⟩ := Relation.TransGen.head'_iff.mp hcycle
  exact (h.resolvable_name hmem).not_leadsTo_self h.fragments hcycle

/-- Cycles are found exactly, and compilation always ends. Finding fragments and adding types are
recursions that have one solution without any bound on their depth, which is what is computed.
Documents whose fragments contain a cycle do not compile. A cycle is reported only for a name that
leads to itself. -/
theorem Schema.fragment_cycles (schema : Schema) (texts : List SourceText) :
    ((∀ definitions find, FindsFragments schema definitions find ↔
        find = fragmentIdWithin schema definitions definitions.size) ∧
      ∀ add, NameSet.AddsTypes schema add ↔ add = fun set name => set.addType schema name) ∧
    ((∃ name, Relation.TransGen (Source.Spreads (Source.definitions texts)) name name) →
      ∀ document, schema.compile texts ≠ .ok document) ∧
    ∀ name location, schema.compile texts = .error (.malformed (.fragmentCycle name location)) →
      Relation.TransGen (Source.Spreads (Source.definitions texts)) name name := by
  refine ⟨⟨fun _ _ => findsFragments_iff, fun _ => NameSet.addsTypes_iff⟩, ?_, ?_⟩
  · rintro ⟨name, hcycle⟩ document hcompile
    have hcompilable := Schema.compile_succeeds_iff.mp ⟨document, hcompile⟩
    exact hcompilable.acyclic name hcycle
  · intro name location herror
    exact Schema.explained_of_compile herror

/-- `query Q { node { id } }` with two fragments that spread each other and that no operation
spreads. -/
def Sample.cyclic : List SourceText :=
  Sample.query [Sample.node [] [Sample.id none]]
    [("A", [Sample.spread [] "B", Sample.spread [] "B", Sample.id none]),
      ("B", [Sample.inline [] (some "User") [Sample.spread [] "A"]])]

theorem Schema.fragment_cycles_sample : ∃ location,
    Sample.schema.compile Sample.cyclic = .error (.malformed (.fragmentCycle "A" location)) ∧
      Relation.TransGen (Source.Spreads (Source.definitions Sample.cyclic)) "A" "A" ∧
      ∀ document, Sample.schema.compile Sample.cyclic ≠ .ok document := by
  have herror : Sample.schema.compile Sample.cyclic =
      .error (.malformed (.fragmentCycle "A" (.source none Sample.position))) :=
    Sample.error?_eq_some.mp (by decide +kernel)
  obtain ⟨-, hrefused, hreported⟩ := Schema.fragment_cycles Sample.schema Sample.cyclic
  have hcycle := hreported _ _ herror
  exact ⟨_, herror, hcycle, hrefused ⟨"A", hcycle⟩⟩

end QueryShape
