import CueBee.Runtime.Engine
import CueBee.Transcript.RevisionAdapter

/-! # The runtime

One definition for each method of `CueBeeRuntime`. `run_next` is split at the call of the
engine's `generate` into `startNext` and `finishNext`, and `handle_event` at the return of
`SessionManager.apply`. Clock readings and fresh ids are arguments; latency samples and
the string forms of outcomes are left out.
-/
namespace CueBee.Runtime
open Cache Transcript Raising PyStr

structure TentativePrefillPolicy where
  minTailTokens : ℤ
  minConfidence : PyFloat
  maxGpuLoad : PyFloat
deriving DecidableEq

def TentativePrefillPolicy.standard : TentativePrefillPolicy := ⟨8,.fin (1 / 2),.fin (17 / 20)⟩

def TentativePrefillPolicy.admit (p : TentativePrefillPolicy) (event : STTEvent) (tailTokens : ℕ)
    (gpuLoad : PyFloat) : Bool :=
  p.minTailTokens ≤ tailTokens && p.minConfidence.le (event.confidence.getD (.fin 1)) &&
    gpuLoad.le p.maxGpuLoad

inductive MetricName
  | sttEventsDropped
  | sttEventsAccepted
  | tasksInvalidated
  | rollbackTokens
  | prefillTokens
  | tasksSubmitted
  | outputsAllowed
  | staleOutputsPrevented
  | tasksOverloadDropped
deriving DecidableEq

/-- The counters of `MetricRegistry`. -/
abbrev MetricRegistry := Dict MetricName ℕ

def MetricRegistry.inc (name : MetricName) (amount : ℕ) (m : MetricRegistry) : MetricRegistry :=
  m.set name ((m.get? name).getD 0 + amount)

inductive RuntimeError
  | session (error : SessionError)
  | graph (error : GraphError)
  | scheduler (error : SchedulerError)
  | engine (error : EngineError)
  | encode
  | overflow
  | residentNotPrefix
deriving DecidableEq

/-- What a runtime is built with and never changes. -/
structure Services (S : Type) where
  tokenizer : Tokenizer
  engine : Engine S
  tentativePolicy : TentativePrefillPolicy

/-- The state of a runtime; `branches.kv` is `self.kv`. -/
structure CueBeeRuntime (S : Type) where
  revisions : RevisionAdapter
  sessions : SessionManager
  branches : BranchGraph
  scheduler : VersionDeadlineScheduler PyFloat
  metrics : MetricRegistry
  gpuLoad : PyFloat
  engine : S

structure EventOutcome where
  accepted : Bool
  duplicateOrStale : Bool
  diff : Option TranscriptDiff
  invalidatedTasks : List TaskId
  prefilledTokens : ℕ
  rollbackTokens : ℕ
deriving DecidableEq

structure TaskOutcome where
  taskId : TaskId
  decision : GateDecision
  result : Option EngineResult
deriving DecidableEq

/-- The arguments of `submit_task`, with the fresh id and the clock reading it may use. -/
structure Submission where
  sessionId : SessionId
  kind : TaskKind
  prompt : PyStr
  deadlineMs : ℤ
  priority : ℤ
  estimatedTokens : ℤ
  taskId : Option TaskId
  now : Option PyFloat
  uuid : TaskId
  clock : PyFloat

/-- A task whose output is being generated. -/
structure Flight where
  task : AnalysisTask PyFloat
  branchId : BranchId
  request : EngineRequest
deriving DecidableEq

/-- `f"\n[task:{kind.value}] {prompt}"`. -/
def taskPrompt (kind : TaskKind) (prompt : PyStr) : PyStr :=
  lit "\n[task:" ++ kind.value ++ lit "] " ++ prompt

namespace CueBeeRuntime
variable {S : Type} (c : Services S)

def init (blockSize : ℕ) (hblock : 0 < blockSize) (admissionCap : ℕ) (hcap : 0 < admissionCap)
    (engine : S) : CueBeeRuntime S where
  revisions := RevisionAdapter.init
  sessions := SessionManager.init 1
  branches := BranchGraph.init blockSize hblock
  scheduler := VersionDeadlineScheduler.init admissionCap hcap
  metrics := Dict.empty
  gpuLoad := .fin 0
  engine := engine

def onSessions {α : Type} (x : EStateM SessionError SessionManager α) :
    EStateM RuntimeError (CueBeeRuntime S) α :=
  focus (fun r => r.sessions) (fun sessions r => { r with sessions := sessions }) .session x

def onGraph {α : Type} (x : EStateM GraphError BranchGraph α) :
    EStateM RuntimeError (CueBeeRuntime S) α :=
  focus (fun r => r.branches) (fun branches r => { r with branches := branches }) .graph x

def onScheduler {α : Type} (x : EStateM SchedulerError (VersionDeadlineScheduler PyFloat) α) :
    EStateM RuntimeError (CueBeeRuntime S) α :=
  focus (fun r => r.scheduler) (fun scheduler r => { r with scheduler := scheduler }) .scheduler x

def onEngine {α : Type} (x : EStateM EngineError S α) : EStateM RuntimeError (CueBeeRuntime S) α :=
  focus (fun r => r.engine) (fun engine r => { r with engine := engine }) .engine x

/-- A call on the cache manager, which the runtime shares with the branch graph. -/
def onKV {α : Type} (x : EStateM KVError VersionedKVManager α) :
    EStateM RuntimeError (CueBeeRuntime S) α :=
  onGraph (BranchGraph.onKV x)

def inc (name : MetricName) (amount : ℕ) : EStateM RuntimeError (CueBeeRuntime S) Unit :=
  modify (fun r => { r with metrics := MetricRegistry.inc name amount r.metrics })

def normalizeEvent (event : STTEvent) : EStateM RuntimeError (CueBeeRuntime S) (Option STTEvent) :=
  fun r => .ok (r.revisions.normalize event).1 { r with revisions := (r.revisions.normalize event).2 }

/-- The loop over the invalidated tasks. -/
def cancelInvalidated : List TaskId → EStateM RuntimeError (CueBeeRuntime S) Unit
  | [] => return ()
  | taskId :: rest => do
    let _ ← onScheduler (VersionDeadlineScheduler.cancel taskId .transcriptRevision)
    let _ ← onEngine (c.engine.abort taskId)
    inc .tasksInvalidated 1
    cancelInvalidated rest

/-- Rolling the cache back to the start of the changed range; the removed tokens. -/
def rollBack (sessionId : SessionId) (rollbackFrom : ℕ) :
    EStateM RuntimeError (CueBeeRuntime S) ℕ := do
  let currentTokens ← onKV (VersionedKVManager.sessionTokens sessionId)
  if rollbackFrom < currentTokens.length then do
    let rollback ← onKV (VersionedKVManager.rollbackTentative sessionId rollbackFrom)
    inc .rollbackTokens rollback.removedTokens
    return rollback.removedTokens
  else return 0

/-- The update that `handle_event` builds. -/
def revisionUpdate (event : STTEvent) (version commitFrontier replaceFrom : ℕ)
    (missing : List Token) (hmissing : missing ≠ []) : SessionRevisionUpdate where
  sessionId := event.sessionId
  version := version
  replaceFrom := replaceFrom
  replacementTokenIds := missing
  commitFrontier := commitFrontier
  tentative := event.type ≠ .commitFinal
  baseVersion := none
  branchId := lit "main"
  session_named := event.sessionId_ne
  branch_named := main_named
  base_lower := by simp
  replacement_present := hmissing

/-- Telling the engine about `missing`, by whichever method it has. -/
def sendTokens (event : STTEvent) (version commitFrontier replaceFrom : ℕ) (missing : List Token)
    (hmissing : missing ≠ []) : EStateM RuntimeError (CueBeeRuntime S) Unit :=
  match c.engine.updateSession with
  | some updateSession => onEngine (updateSession
      (revisionUpdate event version commitFrontier replaceFrom missing hmissing))
  | none => onEngine (c.engine.prefill event.sessionId missing version (event.type ≠ .commitFinal))

/-- Sending and appending the tokens that the cache lacks; their number. -/
def prefillMissing (event : STTEvent) (version commitFrontier replaceFrom : ℕ)
    (missing : List Token) : EStateM RuntimeError (CueBeeRuntime S) ℕ :=
  if hmissing : missing ≠ [] then do
    sendTokens c event version commitFrontier replaceFrom missing hmissing
    let _ ← onKV (VersionedKVManager.appendSession event.sessionId missing .tentative version)
    inc .prefillTokens missing.length
    return missing.length
  else return 0

/-- The commit of the cache, which only a final makes. -/
def commitCache (event : STTEvent) (frontier version : ℕ) :
    EStateM RuntimeError (CueBeeRuntime S) Unit :=
  if event.type = .commitFinal then
    onKV (VersionedKVManager.commitTentative event.sessionId frontier version)
  else return ()

/-- The cache after a transcript event: prefilled and rolled-back tokens. -/
def reviseCache (event : STTEvent) (diff : TranscriptDiff) :
    EStateM RuntimeError (CueBeeRuntime S) (ℕ × ℕ) := do
  let rolledBack ← rollBack event.sessionId diff.changedRange.start
  let state ← onSessions (SessionManager.get event.sessionId)
  let resident ← onKV (VersionedKVManager.sessionTokens event.sessionId)
  if resident ≠ state.allTokens.take resident.length then throw .residentNotPrefix
  else do
    let r ← get
    let prefilled ← (if event.type = .commitFinal ∨
        c.tentativePolicy.admit event diff.newTailTokens.length r.gpuLoad = true then
      prefillMissing c event diff.newVersion state.commitFrontier resident.length
        (state.allTokens.drop resident.length)
      else return 0)
    commitCache event state.commitFrontier diff.newVersion
    return (prefilled,rolledBack)

/-- The cache after any event; metadata events leave it alone. -/
def updateCache (event : STTEvent) (diff : TranscriptDiff) :
    EStateM RuntimeError (CueBeeRuntime S) (ℕ × ℕ) :=
  if event.type = .speakerRelabel ∨ event.type = .sessionClose then return (0,0)
  else reviseCache c event diff

/-- What `handle_event` does once `SessionManager.apply` has returned `diff`. -/
def afterApply (event : STTEvent) (diff : TranscriptDiff) :
    EStateM RuntimeError (CueBeeRuntime S) EventOutcome := do
  inc .sttEventsAccepted 1
  let invalidated ← onGraph
    (BranchGraph.invalidate event.sessionId diff.changedRange diff.newVersion)
  cancelInvalidated c invalidated
  let (prefilled,rolledBack) ← updateCache c event diff
  onKV VersionedKVManager.validateRefCounts
  return ⟨true,false,some diff,invalidated,prefilled,rolledBack⟩

def handleEvent (event : STTEvent) : EStateM RuntimeError (CueBeeRuntime S) EventOutcome := do
  let normalized ← normalizeEvent event
  match normalized with
  | none => do
    inc .sttEventsDropped 1
    return ⟨false,true,none,[],0,0⟩
  | some event => do
    let diff ← onSessions (SessionManager.apply c.tokenizer event)
    afterApply c event diff

/-- `task_id or uuid.uuid4().hex`. -/
def resolvedTaskId (a : Submission) : TaskId :=
  match a.taskId with
  | some taskId => if taskId = [] then a.uuid else taskId
  | none => a.uuid

/-- `time.monotonic() if now is None else now`. -/
def timestamp (a : Submission) : PyFloat := a.now.getD a.clock

/-- `timestamp + deadline_ms / 1000.0`, or an overflow of the division. -/
def deadlineAt (a : Submission) : Option PyFloat :=
  (FloatOps.ofInt a.deadlineMs).map (fun ms => timestamp a + ms / .fin 1000)

def newTask (a : Submission) (state : ConversationSession) (branch : Branch) (deadline : PyFloat) :
    AnalysisTask PyFloat where
  taskId := resolvedTaskId a
  branchId := branch.branchId
  sessionId := a.sessionId
  kind := a.kind
  baseVersion := state.version
  dependency := branch.dependency
  deadlineAt := deadline
  priority := a.priority
  estimatedTokens := a.estimatedTokens
  sharedPrefixTokens := branch.dependency.length
  foreground := a.kind = .userQuery || a.kind = .proactiveHint
  requiresCurrentVersion := branch.requiresCurrentVersion
  prompt := a.prompt
  createdAt := timestamp a
  status := .queued
  cancelReason := none

/-- `scheduler.submit`, with the branch cancelled before an exception passes on. -/
def admitOrCancel (task : AnalysisTask PyFloat) (branchId : BranchId) :
    EStateM RuntimeError (CueBeeRuntime S) Unit := fun r =>
  match onScheduler (VersionDeadlineScheduler.submit task) r with
  | .ok _ r => .ok () r
  | .error e r =>
    match onGraph (BranchGraph.cancel branchId) r with
    | .ok _ r => .error e r
    | .error e' r => .error e' r

def submitTask (a : Submission) : EStateM RuntimeError (CueBeeRuntime S) (AnalysisTask PyFloat) := do
  let state ← onSessions (SessionManager.get a.sessionId)
  let branch ← onGraph (BranchGraph.create (resolvedTaskId a) a.sessionId a.kind state.version
    state.commitFrontier state.totalTokens none)
  match c.tokenizer.encode (taskPrompt a.kind a.prompt) with
  | none => throw .encode
  | some promptTokens => do
    onGraph (BranchGraph.appendPrivatePrompt branch.branchId promptTokens state.version)
    match deadlineAt a with
    | none => throw .overflow
    | some deadline => do
      admitOrCancel (newTask a state branch deadline) branch.branchId
      inc .tasksSubmitted 1
      return newTask a state branch deadline

/-- The dictionary `versions` of `run_next`. -/
def currentVersions (r : CueBeeRuntime S) (sessionId : SessionId) : Option ℕ :=
  (r.sessions.sessions.get? sessionId).map ConversationSession.version

def newRequest (task : AnalysisTask PyFloat) (prompt : PyStr) (promptTokens : List Token) :
    EngineRequest where
  taskId := task.taskId
  sessionId := task.sessionId
  baseVersion := task.baseVersion
  prompt := prompt
  promptTokenIds := promptTokens
  maxOutputTokens := task.estimatedTokens

/-- `run_next` up to the call of `generate`. -/
def startNext (now : PyFloat) : EStateM RuntimeError (CueBeeRuntime S) (Option Flight) := do
  let r ← get
  let popped ← onScheduler (VersionDeadlineScheduler.popNext r.currentVersions now)
  match popped with
  | none => return none
  | some task => do
    let branch ← onGraph (BranchGraph.forTask task.taskId)
    onGraph (BranchGraph.markRunning branch.branchId)
    let state ← onSessions (SessionManager.get task.sessionId)
    let fullPrompt := state.transcriptText branch.includesTentative ++ taskPrompt task.kind task.prompt
    match c.tokenizer.encode fullPrompt with
    | none => throw .encode
    | some promptTokens =>
      return some ⟨task,branch.branchId,newRequest task fullPrompt promptTokens⟩

/-- `run_next` after the return of `generate`. -/
def finishNext (flight : Flight) (result : EngineResult) :
    EStateM RuntimeError (CueBeeRuntime S) TaskOutcome := do
  let branch ← onGraph (BranchGraph.get flight.branchId)
  let state ← onSessions (SessionManager.get flight.task.sessionId)
  if evaluate flight.task branch state = .allow then do
    onGraph (BranchGraph.complete flight.branchId)
    onScheduler (VersionDeadlineScheduler.complete flight.task.taskId)
    inc .outputsAllowed 1
    return ⟨flight.task.taskId,.allow,some result⟩
  else do
    onGraph (BranchGraph.cancel flight.branchId)
    onScheduler (VersionDeadlineScheduler.drop flight.task.taskId
      (if evaluate flight.task branch state = .restart then .freshnessRestart else .freshnessDrop))
    inc .staleOutputsPrevented 1
    return ⟨flight.task.taskId,evaluate flight.task branch state,none⟩

def runNext (now : PyFloat) : EStateM RuntimeError (CueBeeRuntime S) (Option TaskOutcome) := do
  let started ← startNext c now
  match started with
  | none => return none
  | some flight => do
    let result ← onEngine (c.engine.generate flight.request)
    let outcome ← finishNext flight result
    return some outcome

/-- The loop over the dropped tasks. -/
def cancelDropped : List TaskId → EStateM RuntimeError (CueBeeRuntime S) Unit
  | [] => return ()
  | taskId :: rest => do
    let branch ← onGraph (BranchGraph.forTask taskId)
    onGraph (BranchGraph.cancel branch.branchId)
    inc .tasksOverloadDropped 1
    cancelDropped rest

def shedLoad (targetActive : ℤ) : EStateM RuntimeError (CueBeeRuntime S) (List TaskId) := do
  let dropped ← onScheduler (VersionDeadlineScheduler.shedLoad targetActive)
  cancelDropped dropped
  return dropped

end CueBeeRuntime
end CueBee.Runtime
