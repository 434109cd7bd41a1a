import MmixBackend.Main
import MmixBackend.Machine
import MmixBackend.Proofs.FlattenMeaning
import MmixBackend.Proofs.FoldLabels
import MmixBackend.Proofs.BlockMerge
import MmixBackend.Proofs.BlockLayout
import MmixBackend.Proofs.InstrRun
import MmixBackend.Proofs.TargetMeaning
import MmixBackend.Proofs.SpillWindow
import MmixBackend.Proofs.SpillMeaning
import MmixBackend.Proofs.LivenessFixpoint
import MmixBackend.Proofs.InterferenceEdges
import MmixBackend.Proofs.ColoringProper
import MmixBackend.Proofs.ColoringMeaning
import MmixBackend.Proofs.RegisterCollision
import MmixBackend.Proofs.ColoringOrder
import MmixBackend.Proofs.LiveAhead
import MmixBackend.Proofs.SpillBlocks
import MmixBackend.Proofs.SpillRewrap
import MmixBackend.Proofs.SelectedCode
import MmixBackend.Proofs.AllocationConverges
import MmixBackend.Proofs.FlatWalk
import MmixBackend.Proofs.TargetMachine
import MmixBackend.Proofs.SelectMeaning
import MmixBackend.Proofs.SelectRun
import MmixBackend.Proofs.FlattenPlain
import MmixBackend.Proofs.SourceMeaning
import MmixBackend.Proofs.LoweredOperands
import MmixBackend.Proofs.StructuredWalk
import MmixBackend.Proofs.LoweredCommands
import MmixBackend.Proofs.LoweringMeaning
import MmixBackend.Proofs.AllocationBound
import MmixBackend.Proofs.LoweredShape
import MmixBackend.Proofs.LabelDiscipline
import MmixBackend.Proofs.KnownBlocks
import MmixBackend.Proofs.SelectedReads
import MmixBackend.Proofs.UninitializedReads
import MmixBackend.Proofs.Image
import MmixBackend.Proofs.Renaming
import MmixBackend.Proofs.FlattenRefusals
import MmixBackend.Proofs.FlattenRenamed
import MmixBackend.Proofs.LayoutRenamed
import MmixBackend.Proofs.SelectRenamed
import MmixBackend.Proofs.LivenessRenamed
import MmixBackend.Proofs.ColoringRenamed
import MmixBackend.Proofs.AllocationRenamed
import MmixBackend.Proofs.CompileRenamed
import MmixBackend.Proofs.SupplyIndependence
import MmixBackend.Proofs.EvaluationOrder
import MmixBackend.Proofs.LivenessExact
import MmixBackend.Proofs.LayoutContents
import MmixBackend.Proofs.StaticLinks
import MmixBackend.Proofs.BlockChains
import MmixBackend.Proofs.MergeFixpoint
import MmixBackend.Proofs.ConstantLoading
import MmixBackend.Proofs.OptimisticColoring
import MmixBackend.Proofs.GraphCalls
import MmixBackend.Proofs.SingleAssignment
import MmixBackend.Proofs.FrameLayout
import MmixBackend.Proofs.SpillLocality
import MmixBackend.Proofs.InterferenceExact
import MmixBackend.Proofs.LoweringFaults
import MmixBackend.Proofs.LabelSources
import MmixBackend.Proofs.LegibleCode
import MmixBackend.Proofs.RenderedText
import MmixBackend.Proofs.QuotedText
import MmixBackend.Proofs.StringInterning
