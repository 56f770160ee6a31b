import Blockwise.Main
import Blockwise.Value.Text
import Blockwise.Proofs.Outcome
import Blockwise.Proofs.Context.Consistency
import Blockwise.Proofs.Context.Reading
import Blockwise.Proofs.Exploration.Agreement
import Blockwise.Proofs.Exploration.Derivation
import Blockwise.Proofs.Flat.Segments
import Blockwise.Proofs.Paths
import Blockwise.Proofs.Repair.ExactHits
import Blockwise.Proofs.Repair.OpenCalls
import Blockwise.Proofs.Repair.Outcome
import Blockwise.Proofs.RepairEffect
import Blockwise.Proofs.Context.Regular
import Blockwise.Proofs.Exploration.Regular
import Blockwise.Proofs.Repair.Traced
import Blockwise.Proofs.Operations
import Blockwise.Proofs.Exploration.Views
import Blockwise.Proofs.Fixpoint
import Blockwise.Proofs.Brackets
import Blockwise.Proofs.Repair.Nesting
import Blockwise.Proofs.Repair.Unfailing
import Blockwise.Proofs.Repair.ExactNesting
import Blockwise.Proofs.RepairFaults
import Blockwise.Proofs.FlatAgreement
import Blockwise.Proofs.Sharing
import Blockwise.Proofs.PathBrackets
import Blockwise.Proofs.Termination
import Blockwise.Proofs.WaitlistOrder
import Blockwise.Proofs.AfterRepair
import Blockwise.Proofs.Graph.Arena
import Blockwise.Proofs.StoppedRun
import Blockwise.Proofs.CacheHistory
import Blockwise.Proofs.CacheMoves
import Blockwise.Proofs.Covering
import Blockwise.Proofs.ResultAccounts
import Blockwise.Proofs.ExactResults
import Blockwise.Proofs.Graph.FirstNode
import Blockwise.Proofs.Graph.Subtree
import Blockwise.Proofs.Refinement
import Blockwise.Proofs.Repair.Kept
import Blockwise.Proofs.Context.Placed
import Blockwise.Proofs.FailedOperations
import Blockwise.Proofs.ExpandedExits
import Blockwise.Proofs.OpenCallMatching
import Blockwise.Proofs.PlacedRemovals
import Blockwise.Proofs.ReducedRuns
import Blockwise.Proofs.SimilarAnswers
import Blockwise.Proofs.DepthLimits
import Blockwise.Proofs.Waitlist
import Blockwise.Proofs.Graph.Reachability
import Blockwise.Proofs.Reduction
import Blockwise.Proofs.Repair.FaultKinds
import Blockwise.Proofs.MalformedPaths
import Blockwise.Proofs.OptionSettings
import Blockwise.Proofs.ParentCycles
import Blockwise.Proofs.Context.Fenced
import Blockwise.Proofs.StaleExpansions
