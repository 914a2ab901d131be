import Mathlib.Data.List.Sort
import CueBee.Runtime.BranchGraph

/-! # The admission layer

A table of tasks in submission order; tasks are never removed from it. Times and scores are
floats, or whatever else has their operations.
-/
namespace CueBee.Runtime
open Cache Transcript Raising PyStr

inductive TaskStatus
  | queued
  | running
  | completed
  | cancelled
  | dropped
deriving DecidableEq

/-- The values of `cancel_reason`: those of the runtime, and any text of another caller. -/
inductive CancelReason
  | transcriptRevision
  | staleBaseVersion
  | overloadShed
  | freshnessDrop
  | freshnessRestart
  | other (text : PyStr)
deriving DecidableEq

structure AnalysisTask (K : Type) where
  taskId : TaskId
  branchId : BranchId
  sessionId : SessionId
  kind : TaskKind
  baseVersion : ℕ
  dependency : TokenRange
  deadlineAt : K
  priority : ℤ
  estimatedTokens : ℤ
  sharedPrefixTokens : ℕ
  foreground : Bool
  requiresCurrentVersion : Bool
  prompt : PyStr
  createdAt : K
  status : TaskStatus
  cancelReason : Option CancelReason
deriving DecidableEq

def TaskStatus.active : TaskStatus → Bool
  | .queued | .running => true
  | _ => false

inductive SchedulerError
  | taskExists (taskId : TaskId)
  | admissionCap
  | notRunning (taskId : TaskId)
  | negativeTarget
  | unknownTask (taskId : TaskId)
  | overflow
deriving DecidableEq

structure SchedulerWeights (K : Type) where
  deadline : K
  foreground : K
  age : K
  reuse : K
  cost : K
  priority : K

def SchedulerWeights.standard {K : Type} [FloatOps K] : SchedulerWeights K :=
  ⟨FloatOps.ofRat 8,FloatOps.ofRat 12,FloatOps.ofRat (1 / 4),FloatOps.ofRat (1 / 100),
    FloatOps.ofRat (1 / 50),FloatOps.ofRat 2⟩

structure VersionDeadlineScheduler (K : Type) where
  admissionCap : ℕ
  admissionCap_pos : 0 < admissionCap
  weights : SchedulerWeights K
  tasks : Dict TaskId (AnalysisTask K)

namespace VersionDeadlineScheduler
variable {K : Type}

def init [FloatOps K] (admissionCap : ℕ) (h : 0 < admissionCap) : VersionDeadlineScheduler K :=
  ⟨admissionCap,h,.standard,Dict.empty⟩

def activeCount (s : VersionDeadlineScheduler K) : ℕ :=
  s.tasks.values.countP (fun task => task.status.active)

def store (task : AnalysisTask K) (s : VersionDeadlineScheduler K) : VersionDeadlineScheduler K :=
  { s with tasks := s.tasks.set task.taskId task }

def submit (task : AnalysisTask K) : EStateM SchedulerError (VersionDeadlineScheduler K) Unit := do
  let s ← get
  match s.tasks.get? task.taskId with
  | some _ => throw (.taskExists task.taskId)
  | none =>
    if s.admissionCap ≤ s.activeCount then throw .admissionCap
    else modify (store task)

protected def get (taskId : TaskId) :
    EStateM SchedulerError (VersionDeadlineScheduler K) (AnalysisTask K) :=
  fun s =>
    match s.tasks.get? taskId with
    | some task => .ok task s
    | none => .error (.unknownTask taskId) s

/-- The result says whether the task was active. -/
def cancel (taskId : TaskId) (reason : CancelReason) :
    EStateM SchedulerError (VersionDeadlineScheduler K) Bool := do
  let task ← VersionDeadlineScheduler.get taskId
  if task.status.active = true then do
    modify (store { task with status := .cancelled, cancelReason := some reason })
    return true
  else return false

/-- A queued task whose session has moved on. -/
def staleBase (currentVersions : SessionId → Option ℕ) (task : AnalysisTask K) : Bool :=
  task.status = .queued && task.requiresCurrentVersion &&
    currentVersions task.sessionId ≠ some task.baseVersion

/-- The loop of `pop_next` on one task. -/
def cancelStale (currentVersions : SessionId → Option ℕ) (task : AnalysisTask K) : AnalysisTask K :=
  if staleBase currentVersions task = true then
    { task with status := .cancelled, cancelReason := some .staleBaseVersion }
  else task

/-- `none` is `OverflowError`: a factor that is an integer is too large for a float. -/
def score [FloatOps K] (weights : SchedulerWeights K) (task : AnalysisTask K) (now : K) :
    Option K := do
  let slack := FloatOps.max (FloatOps.ofRat (1 / 1000)) (task.deadlineAt - now)
  let urgency := FloatOps.ofRat 1 / slack
  let age := FloatOps.max (FloatOps.ofRat 0) (now - task.createdAt)
  let sharedPrefixTokens ← FloatOps.ofInt task.sharedPrefixTokens
  let estimatedTokens ← FloatOps.ofInt task.estimatedTokens
  let priority ← FloatOps.ofInt task.priority
  return weights.deadline * urgency +
    weights.foreground * FloatOps.ofRat (if task.foreground = true then 1 else 0) +
    weights.age * age + weights.reuse * sharedPrefixTokens -
    weights.cost * estimatedTokens + weights.priority * priority

/-- The loop of `max(xs, key=key)`, over the elements after `best` with their keys. -/
def maxLoop [FloatOps K] {α : Type} : α × K → List (α × K) → α
  | best, [] => best.1
  | best, x :: rest => maxLoop (if FloatOps.lt best.2 x.2 = true then x else best) rest

/-- The candidates with their scores. -/
def scored [FloatOps K] (weights : SchedulerWeights K) (now : K) (tasks : List (AnalysisTask K)) :
    Option (List (AnalysisTask K × K)) :=
  tasks.mapM (fun task => (score weights task now).map (fun points => (task,points)))

def popNext [FloatOps K] (currentVersions : SessionId → Option ℕ) (now : K) :
    EStateM SchedulerError (VersionDeadlineScheduler K) (Option (AnalysisTask K)) := fun s =>
  let swept := { s with tasks := s.tasks.mapValues (fun _ task => cancelStale currentVersions task) }
  let candidates := swept.tasks.values.filter (fun task => task.status = .queued)
  match scored s.weights now candidates with
  | none => .error .overflow swept
  | some [] => .ok none swept
  | some (first :: rest) =>
    let selected := { maxLoop first rest with status := .running }
    .ok (some selected) (store selected swept)

def complete (taskId : TaskId) : EStateM SchedulerError (VersionDeadlineScheduler K) Unit := do
  let task ← VersionDeadlineScheduler.get taskId
  if task.status ≠ .running then throw (.notRunning taskId)
  else modify (store { task with status := .completed })

def drop (taskId : TaskId) (reason : CancelReason) :
    EStateM SchedulerError (VersionDeadlineScheduler K) Unit := do
  let task ← VersionDeadlineScheduler.get taskId
  if task.status.active = true then
    modify (store { task with status := .dropped, cancelReason := some reason })
  else return ()

def dropOrder : TaskKind → ℕ
  | .contextSummary => 0
  | .memoryExtraction => 1
  | .searchDecision => 2
  | .proactiveHint => 3
  | .userQuery => 4

/-- The comparison `<` of the sort keys `(drop_order, priority, created_at)`. -/
def keyLess [FloatOps K] (a b : AnalysisTask K) : Bool :=
  dropOrder a.kind < dropOrder b.kind || (dropOrder a.kind = dropOrder b.kind &&
    (a.priority < b.priority || (a.priority = b.priority && FloatOps.lt a.createdAt b.createdAt)))

/-- A stable sort leaves `a` in front of `b` unless the key of `b` is less. -/
def dropsBefore [FloatOps K] (a b : AnalysisTask K) : Bool := !keyLess b a

/-- The loop of `shed_load` over the sorted queue. -/
def shedLoop (targetActive : ℤ) :
    List (AnalysisTask K) → VersionDeadlineScheduler K → List TaskId × VersionDeadlineScheduler K
  | [], s => ([],s)
  | task :: rest, s =>
    if targetActive < s.activeCount then
      let (dropped,s) := shedLoop targetActive rest
        (store { task with status := .dropped, cancelReason := some .overloadShed } s)
      (task.taskId :: dropped,s)
    else ([],s)

def queuedInDropOrder [FloatOps K] (s : VersionDeadlineScheduler K) : List (AnalysisTask K) :=
  (s.tasks.values.filter (fun task => task.status = .queued)).insertionSort
    (fun a b => dropsBefore a b = true)

def shedLoad [FloatOps K] (targetActive : ℤ) :
    EStateM SchedulerError (VersionDeadlineScheduler K) (List TaskId) := fun s =>
  if targetActive < 0 then .error .negativeTarget s
  else
    let (dropped,s) := shedLoop targetActive s.queuedInDropOrder s
    .ok dropped s

end VersionDeadlineScheduler
end CueBee.Runtime
