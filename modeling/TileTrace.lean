import TileTrace.Report
import TileTrace.Session.Run
import TileTrace.Proofs.WellFormed
import TileTrace.Proofs.RecordTree
import TileTrace.Proofs.DiagramShape
import TileTrace.Proofs.Program
import TileTrace.Proofs.Recording
import TileTrace.Proofs.Refinement
import TileTrace.Proofs.Source
import TileTrace.Proofs.Agreement
import TileTrace.Proofs.StepNumbers
import TileTrace.Proofs.StoredLinks
import TileTrace.Proofs.Atomicity
import TileTrace.Proofs.DiagramLabels
import TileTrace.Proofs.Unparsing
import TileTrace.Proofs.Evaluation
import TileTrace.Proofs.Ancestors
import TileTrace.Proofs.ScopeStack
import TileTrace.Proofs.ScopeTracking
import TileTrace.Proofs.NodeChanges
import TileTrace.Proofs.SlotFilling
import TileTrace.Proofs.TagGrowth
import TileTrace.Proofs.ClosedKernels
import TileTrace.Proofs.Freezing
import TileTrace.Proofs.CoordinateText
import TileTrace.Proofs.DotLines
import TileTrace.Proofs.Balance
import TileTrace.Proofs.ScopeTrace
import TileTrace.Proofs.Ownership
import TileTrace.Proofs.Schedules
import TileTrace.Proofs.RecordingGate
import TileTrace.Proofs.ExactPowers
import TileTrace.Proofs.Folding
import TileTrace.Proofs.SlotPaths
import TileTrace.Proofs.Binding
import TileTrace.Proofs.OptionItems
import TileTrace.Proofs.OptionLanguage
import TileTrace.Proofs.IndentedLines
import TileTrace.Proofs.FreshInductions
import TileTrace.Proofs.LoopTags
import TileTrace.Proofs.StepInvocation
import TileTrace.Proofs.SubTraces
import TileTrace.Proofs.GraphDumps
import TileTrace.Proofs.DiagramFiles
import TileTrace.Proofs.Parentheses
import TileTrace.Proofs.MalformedTrees
import TileTrace.Proofs.TreeEquality
import TileTrace.Proofs.CanonicalValues
