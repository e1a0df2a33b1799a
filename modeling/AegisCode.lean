import AegisCode.Program
import AegisCode.AuditChain
import AegisCode.Schema
import AegisCode.HashChain
import AegisCode.Context
import AegisCode.Compaction
import AegisCode.Harness
import AegisCode.Turn
import AegisCode.Bounds
import AegisCode.Completion
import AegisCode.FileSystem
import AegisCode.PathFence
import AegisCode.Commands
import AegisCode.Policy
import AegisCode.Dispatcher
import AegisCode.Approvals
import AegisCode.ApprovalService
import AegisCode.ApprovalFinality
import AegisCode.GovernanceGate
import AegisCode.ApprovedFence
import AegisCode.CommandFence
import AegisCode.FileOps
import AegisCode.DirectoryWalk
import AegisCode.FileTools
import AegisCode.WriteAllowlist
import AegisCode.ReadContainment
import AegisCode.RunThreads
import AegisCode.Cancellation
import AegisCode.ExecutionLog
import AegisCode.Feedback
import AegisCode.JsonDecoder
import AegisCode.JsonTexts
import AegisCode.ActionParser
import AegisCode.ParseErrors
import AegisCode.LastObject
import AegisCode.JsonModes
import AegisCode.NestedObjects
import AegisCode.Truncation
import AegisCode.Projection
import AegisCode.Substitution
import AegisCode.Redactor
import AegisCode.RedactedStrings
import AegisCode.AuditRedaction
import AegisCode.Redaction
import AegisCode.JsonStrings
import AegisCode.LiteralRedaction
import AegisCode.StructuredPayloads
import AegisCode.WorkspacePaths
import AegisCode.RootStripping
import AegisCode.EventsEndpoint
import AegisCode.DemoScenarios
import AegisCode.DemoView
import AegisCode.EventPanel
import AegisCode.ToolPrograms
import AegisCode.ToolErrors
import AegisCode.FenceErrors
import AegisCode.DispatchErrors
import AegisCode.TaskRunners
import AegisCode.WorkspaceAdmission
import AegisCode.CredentialStore
import AegisCode.ConfigLoader
import AegisCode.Interpretation
import AegisCode.ThreadPool
import AegisCode.OwnAppends
import AegisCode.DemoManager
import AegisCode.DemoIsolation
import AegisCode.DemoRuns
import AegisCode.SettledRuns
import AegisCode.Scanner
import AegisCode.Ranking
import AegisCode.MemoryStore
import AegisCode.AgentMemories
import AegisCode.Fingerprint
import AegisCode.CommandRules
import AegisCode.InlinePython
import AegisCode.Counters
import AegisCode.StepEvents
import AegisCode.FeedbackRedaction
import AegisCode.FileEffects
import AegisCode.Traces
import AegisCode.Utf8
import AegisCode.WorkspaceRuns
import AegisCode.SensitiveFiles
import AegisCode.WorkspaceStore
import AegisCode.Assembly
import AegisCode.Processes
import AegisCode.FinalVerifier
import AegisCode.AuditedRuns
import AegisCode.TaskOutcomes
import AegisCode.CredentialFiles
import AegisCode.SyncApprovals
import AegisCode.TextSearch
import AegisCode.LogReplay
import AegisCode.ReplayedRuns
import AegisCode.RowReplay
import AegisCode.EditedLogs
