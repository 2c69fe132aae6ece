import QueryShape.Main
import QueryShape.Source.Printer
import QueryShape.Source.DocumentReader
import QueryShape.Source.TypeSystemReader
import QueryShape.Proofs.Abridgement
import QueryShape.Proofs.Occurrence
import QueryShape.Proofs.TypeCase.Refinement
import QueryShape.Proofs.TypeCase.Merging
import QueryShape.Proofs.Executable.Compilation
import QueryShape.Proofs.Executable.Document
import QueryShape.Proofs.TypeCase.PartitionContent
import QueryShape.Proofs.TypeCase.Induction
import QueryShape.Proofs.Executable.SelectionSets
import QueryShape.Proofs.MergedPartition
import QueryShape.Proofs.CollectFields
import QueryShape.Proofs.Mirror
import QueryShape.Proofs.ResponseKeys
import QueryShape.Proofs.TypeCase.ScopeRecords
import QueryShape.Proofs.NestedPresence
import QueryShape.Proofs.FreshWays
import QueryShape.Proofs.TypeCase.FreshContent
import QueryShape.Proofs.RepeatedSpreads
import QueryShape.Proofs.Executable.SourceWays
import QueryShape.Proofs.FirstSpreads
import QueryShape.Proofs.DepthFirst
import QueryShape.Proofs.ReferencedTypes
import QueryShape.Proofs.Executable.SpreadOrder
import QueryShape.Proofs.Unplaced
import QueryShape.Proofs.Executable.Fits
import QueryShape.Proofs.Executable.Compilable
import QueryShape.Proofs.Executable.Decided
import QueryShape.Proofs.Executable.Success
import QueryShape.Proofs.Identity
import QueryShape.Proofs.FragmentOrder
import QueryShape.Proofs.Renaming
import QueryShape.Proofs.Canonical
import QueryShape.Proofs.Executable.Failures
import QueryShape.Proofs.Executable.Depth
import QueryShape.Proofs.FragmentCycles
import QueryShape.Proofs.Schema.Building
import QueryShape.Proofs.BuiltSchema
import QueryShape.Proofs.Executable.Scopes
import QueryShape.Proofs.WellTyped
import QueryShape.Proofs.TypeCase.Division
import QueryShape.Proofs.Paths
import QueryShape.Proofs.TypeCase.PathDivision
import QueryShape.Proofs.CoarsestPartition
import QueryShape.Proofs.NestingDepth
import QueryShape.Proofs.ResponseShapes
import QueryShape.Proofs.Executable.Recording
import QueryShape.Proofs.ExtensionContents
import QueryShape.Proofs.NeededTypes
import QueryShape.Proofs.DefinitionOrder
import QueryShape.Proofs.DefaultVariant
import QueryShape.Proofs.DeclaredDirectives
import QueryShape.Proofs.SucceedAlike
import QueryShape.Proofs.TypeCase.Resemblance
import QueryShape.Proofs.ConditionFree
import QueryShape.Proofs.OperationNames
import QueryShape.Proofs.ParsedNames
import QueryShape.Proofs.Manifest
import QueryShape.Proofs.TypeCase.ExactContent
import QueryShape.Proofs.Meets
import QueryShape.Proofs.TypeCase.RecordedFragments
import QueryShape.Proofs.ExactPartition
import QueryShape.Proofs.TypeNames
import QueryShape.Proofs.MergeOutcome
import QueryShape.Proofs.NestedSelections
import QueryShape.Proofs.ReachedFragments
import QueryShape.Proofs.EnteredTypes
import QueryShape.Proofs.ManifestHistory
import QueryShape.Proofs.ListedTypes
import QueryShape.Proofs.ManifestMerging
import QueryShape.Proofs.InputScan
import QueryShape.Proofs.Requests
import QueryShape.Proofs.MergeSteps
import QueryShape.Proofs.ConditionWrappers
