import CueBee.Support.Dictionary
import CueBee.Support.RaisingCalls
import CueBee.Support.PythonText
import CueBee.Support.Utf8
import CueBee.Support.Sha256
import CueBee.Support.FloatOps
import CueBee.Support.VectorGeometry
import CueBee.Support.FirstGreatest
import CueBee.Support.StableSort
import CueBee.Support.BoundedQueue
import CueBee.Cache.BlockPool
import CueBee.Cache.PoolBacking
import CueBee.Cache.VersionedKVManager
import CueBee.Cache.ReferenceLedger
import CueBee.Cache.AppendLoops
import CueBee.Cache.SharingLoops
import CueBee.Cache.NaiveKV
import CueBee.Cache.ManagerInvariant
import CueBee.Cache.OperationSpecs
import CueBee.Cache.CopyOnWriteRefinement
import CueBee.Cache.ReferenceCounts
import CueBee.Cache.CopyEffects
import CueBee.Cache.PhysicalSharing
import CueBee.Cache.BranchLifetime
import CueBee.Cache.RollbackCounter
import CueBee.Transcript.EventSchema
import CueBee.Transcript.RevisionAdapter
import CueBee.Transcript.EventIntake
import CueBee.Transcript.PartialLabels
import CueBee.Transcript.SessionManager
import CueBee.Transcript.TranscriptProgress
import CueBee.Transcript.SoloSession
import CueBee.Transcript.TextTokens
import CueBee.Transcript.DeliveryOrder
import CueBee.Transcript.TextAgreement
import CueBee.Transcript.DiffSoundness
import CueBee.Transcript.ByteTokens
import CueBee.Runtime.BranchGraph
import CueBee.Runtime.Scheduler
import CueBee.Runtime.Engine
import CueBee.Runtime.CueBeeRuntime
import CueBee.Runtime.GraphSpecs
import CueBee.Runtime.SchedulerSpecs
import CueBee.Runtime.CacheRevision
import CueBee.Runtime.OrderlyRuntime
import CueBee.Runtime.RuntimeInvariant
import CueBee.Runtime.EventHandling
import CueBee.Runtime.TaskHandling
import CueBee.Runtime.TaskExecution
import CueBee.Runtime.StatusProgress
import CueBee.Runtime.SchedulerLifecycle
import CueBee.Runtime.TaskSelection
import CueBee.Runtime.BoundedOvertaking
import CueBee.Runtime.MethodFrames
import CueBee.Runtime.RuntimeRuns
import CueBee.Runtime.CacheAgreement
import CueBee.Runtime.Interleaving
import CueBee.Runtime.OrderlyRuns
import CueBee.Runtime.TasksInFlight
import CueBee.Runtime.MoveEffects
import CueBee.Runtime.OutputFreshness
import CueBee.Runtime.LoadShedding
import CueBee.Runtime.TaskLifecycles
import CueBee.Runtime.RejectedEvents
import CueBee.Runtime.ReplayedEvents
import CueBee.Runtime.HalfAppliedEvents
import CueBee.Runtime.BranchReferences
import CueBee.Runtime.UpdateStream
import CueBee.Runtime.CacheRebuild
import CueBee.Runtime.BranchTokens
import CueBee.Runtime.RefusedSubmissions
import CueBee.Runtime.StrandedTasks
import CueBee.Runtime.PromptTokens
import CueBee.Runtime.ExactInvalidation
import CueBee.Runtime.SessionView
import CueBee.Runtime.Noninterference
import CueBee.Runtime.Draining
import CueBee.Runtime.TokenAccounting
import CueBee.Runtime.CounterAgreement
import CueBee.Runtime.DeterministicEngine
import CueBee.Runtime.TraceReplay
import CueBee.Runtime.EngineLog
import CueBee.Runtime.PlainRuntime
import CueBee.Runtime.ReadableTokens
import CueBee.Bridge.VLLMRevisionBridge
import CueBee.Bridge.ClosingStreams
import CueBee.Bridge.StreamInterleavings
import CueBee.Bridge.StreamFeed
import CueBee.Bridge.RuntimeFeed
import CueBee.Speaker.AudioChunks
import CueBee.Speaker.EmbeddingWorkers
import CueBee.Speaker.SessionStore
import CueBee.Speaker.SessionExport
import CueBee.Speaker.SoloSpeakers
import CueBee.Speaker.ExactArithmetic
import CueBee.Speaker.ProfileInvariant
import CueBee.Speaker.ProfileRuns
import CueBee.Speaker.ProfileOrder
import CueBee.Speaker.RestoredSession
import CueBee.Speaker.MicroBatcher
import CueBee.Speaker.SpeakerService
import CueBee.Speaker.Alignment
import CueBee.Speaker.TenantIsolation
import CueBee.Speaker.WorkerFleet
import CueBee.Speaker.BatchConservation
import CueBee.Speaker.BatchLimits
import CueBee.Speaker.TurnOrder
import CueBee.Speaker.DueChunks
import CueBee.Speaker.FairSelection
import CueBee.Speaker.AssignmentDecision
import CueBee.Speaker.Autoscaler
import CueBee.Speaker.AutoscalerStability
import CueBee.Speaker.LostChunks
import CueBee.Speaker.LocalEmbeddings
