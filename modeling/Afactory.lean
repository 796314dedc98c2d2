import Afactory.OrdMap
import Afactory.Runs
import Afactory.Checks
import Afactory.Commands
import Afactory.Fencing
import Afactory.Budget
import Afactory.BudgetLaws
import Afactory.TaskBudget
import Afactory.TaskBudgetCounters
import Afactory.TaskBudgetReserve
import Afactory.TaskBudgetCharges
import Afactory.CompiledTask
import Afactory.TaskRecords
import Afactory.TaskExecution
import Afactory.TaskProjection
import Afactory.TaskLease
import Afactory.ExecutionRuns
import Afactory.ExecutionRecords
import Afactory.ChargeLedgers
import Afactory.ExecutionLaws
import Afactory.PaidOnce
import Afactory.PlanAuthority
import Afactory.GraphReplacement
import Afactory.MandatoryWork
import Afactory.Forest
import Afactory.RepoPath
import Afactory.FindingsLedger
import Afactory.LedgerEvents
import Afactory.LedgerChanges
import Afactory.LedgerGroups
import Afactory.LedgerConvergence
import Afactory.LedgerResolutions
import Afactory.LedgerCommands
import Afactory.LedgerReports
import Afactory.PipelinePlan
import Afactory.Scheduler
import Afactory.SchedulerMoves
import Afactory.SchedulerInvariant
import Afactory.SchedulerStory
import Afactory.SchedulerStarts
import Afactory.SchedulerRuns
import Afactory.SchedulerReport
import Afactory.ExperimentPause
import Afactory.SourceManifest
import Afactory.SymlinkAncestors
import Afactory.FileTree
import Afactory.Materialize
import Afactory.MaterializeLaws
import Afactory.Rebase
import Afactory.Linking
import Afactory.ReviewReduction
import Afactory.ReductionLaws
import Afactory.ReductionReplay
import Afactory.OneFinding
import Afactory.AutomaticChallenges
import Afactory.RefusedChallenges
import Afactory.TelemetryDirectory
import Afactory.StorageSweep
import Afactory.SweepRules
import Afactory.SweepTotals
import Afactory.Json
import Afactory.TelemetryRecord
import Afactory.SegmentCodec
import Afactory.SegmentReader
import Afactory.SegmentScan
import Afactory.SegmentStructure
import Afactory.SegmentRecovery
import Afactory.SegmentRecovered
import Afactory.RecoveryStops
import Afactory.PathSpellings
import Afactory.AttemptAccounting
import Afactory.StageKeys
import Afactory.Terminated
import Afactory.LedgerFrames
import Afactory.DemandIdentity
import Afactory.CanonicalJson
import Afactory.GreedyOrder
import Afactory.PlanOrder
import Afactory.PolicyTime
import Afactory.LongestPath
import Afactory.SchedulerPlan
import Afactory.MandatoryPath
import Afactory.BudgetLimits
import Afactory.LimitsFit
import Afactory.PipelineCompiler
import Afactory.PipelineExpansion
import Afactory.Framing
import Afactory.ManifestDigest
import Afactory.CanonicalBase64
import Afactory.SliceCoverage
import Afactory.Splitting
import Afactory.GitPaths
import Afactory.FoldedNames
import Afactory.Worklist
import Afactory.StoreReach
import Afactory.ReachLaws
import Afactory.BinarySearch
import Afactory.SealScan
import Afactory.SealWalk
import Afactory.SealDiff
import Afactory.Wildcards
import Afactory.SealIgnore
import Afactory.SealIgnoreLaws
import Afactory.Downstream
import Afactory.PlannedGraphs
import Afactory.GateRetry
import Afactory.Evictions
import Afactory.StreamFraming
import Afactory.RecordEncoding
import Afactory.TextSearch
import Afactory.TextBounds
import Afactory.CredentialRules
import Afactory.Redactor
import Afactory.JsonRedaction
import Afactory.BlobText
import Afactory.DecimalDigits
import Afactory.SegmentWriter
import Afactory.SegmentWriterLaws
import Afactory.BlobProtocol
import Afactory.AttributeBounds
import Afactory.ScaledDecimals
import Afactory.MeasureDecimals
import Afactory.Measurements
import Afactory.MeasurementFolds
import Afactory.DigestSpellings
import Afactory.HomePaths
import Afactory.StagedUpdate
import Afactory.PipelineSelection
import Afactory.LazySelection
import Afactory.StrictSchema
import Afactory.StrictReplies
import Afactory.SettledSchemas
