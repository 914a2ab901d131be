import CueBee.Transcript.EventSchema

/-! # Shared-prefix branches

The branch graph and the runtime use one cache manager; it is the field `kv` here.
-/
namespace CueBee.Runtime
open Cache Transcript Raising PyStr

abbrev TaskId := PyStr

inductive TaskKind
  | userQuery
  | proactiveHint
  | searchDecision
  | memoryExtraction
  | contextSummary
deriving DecidableEq

inductive BranchStatus
  | queued
  | running
  | completed
  | cancelled
  | invalidated
deriving DecidableEq

/-- `_CURRENT_VERSION_KINDS`. -/
def TaskKind.currentVersion : TaskKind → Bool
  | .proactiveHint | .searchDecision => true
  | _ => false

/-- `kind.value`. -/
def TaskKind.value : TaskKind → PyStr
  | .userQuery => lit "user_query"
  | .proactiveHint => lit "proactive_hint"
  | .searchDecision => lit "search_decision"
  | .memoryExtraction => lit "memory_extraction"
  | .contextSummary => lit "context_summary"

structure Branch where
  branchId : BranchId
  taskId : TaskId
  sessionId : SessionId
  kind : TaskKind
  baseVersion : ℕ
  dependency : TokenRange
  includesTentative : Bool
  requiresCurrentVersion : Bool
  status : BranchStatus
  invalidatedByVersion : Option ℕ
deriving DecidableEq

/-- Queued or running. -/
def BranchStatus.active : BranchStatus → Bool
  | .queued | .running => true
  | _ => false

inductive GraphError
  | branchExists (taskId : TaskId)
  | promptAfterScheduling
  | notQueued (branchId : BranchId)
  | notRunning (branchId : BranchId)
  | unknownBranch (branchId : BranchId)
  | kv (error : KVError)
deriving DecidableEq

structure BranchGraph where
  kv : VersionedKVManager
  branches : Dict BranchId Branch

/-- `f"branch:{task_id}"`. -/
def branchIdOf (taskId : TaskId) : BranchId := lit "branch:" ++ taskId

theorem branchIdOf_injective {a b : TaskId} (h : branchIdOf a = branchIdOf b) : a = b :=
  List.append_cancel_left h

theorem branchIdOf_ne {i j : TaskId} (h : i ≠ j) : branchIdOf i ≠ branchIdOf j :=
  fun he => h (branchIdOf_injective he)

theorem branchIdOf_mem_map {j : TaskId} {ids : List TaskId} :
    branchIdOf j ∈ ids.map branchIdOf ↔ j ∈ ids :=
  List.mem_map_of_injective fun _ _ => branchIdOf_injective

theorem map_branchIdOf_eq_some {popped : Option TaskId} {j : TaskId} :
    popped.map branchIdOf = some (branchIdOf j) ↔ popped = some j := by
  constructor
  · intro h
    obtain ⟨i,hi,hij⟩ := Option.map_eq_some_iff.mp h
    exact branchIdOf_injective hij ▸ hi
  · rintro rfl
    rfl

namespace BranchGraph

def init (blockSize : ℕ) (h : 0 < blockSize) : BranchGraph :=
  ⟨VersionedKVManager.init blockSize h,Dict.empty⟩

def onKV {α : Type} (x : EStateM KVError VersionedKVManager α) : EStateM GraphError BranchGraph α :=
  focus (fun g => g.kv) (fun kv g => { g with kv := kv }) GraphError.kv x

/-- Writing the attributes of a branch object that the graph holds. -/
def store (branch : Branch) (g : BranchGraph) : BranchGraph :=
  { g with branches := g.branches.set branch.branchId branch }

protected def get (branchId : BranchId) : EStateM GraphError BranchGraph Branch := fun g =>
  match g.branches.get? branchId with
  | some branch => .ok branch g
  | none => .error (.unknownBranch branchId) g

def forTask (taskId : TaskId) : EStateM GraphError BranchGraph Branch :=
  BranchGraph.get (branchIdOf taskId)

/-- The branch object that `create` builds. -/
def newBranch (taskId : TaskId) (sessionId : SessionId) (kind : TaskKind) (baseVersion : ℕ)
    (commitFrontier totalTokens : ℕ) (dependency : Option TokenRange) : Branch where
  branchId := branchIdOf taskId
  taskId := taskId
  sessionId := sessionId
  kind := kind
  baseVersion := baseVersion
  dependency := dependency.getD
    ⟨0,if kind.currentVersion = true then totalTokens else commitFrontier,Nat.zero_le _⟩
  includesTentative := kind.currentVersion
  requiresCurrentVersion := kind.currentVersion
  status := .queued
  invalidatedByVersion := none

def create (taskId : TaskId) (sessionId : SessionId) (kind : TaskKind) (baseVersion : ℕ)
    (commitFrontier totalTokens : ℕ) (dependency : Option TokenRange) :
    EStateM GraphError BranchGraph Branch := do
  let g ← get
  match g.branches.get? (branchIdOf taskId) with
  | some _ => throw (.branchExists taskId)
  | none => do
    let branch := newBranch taskId sessionId kind baseVersion commitFrontier totalTokens dependency
    let _ ← onKV (VersionedKVManager.forkBranch branch.branchId sessionId branch.includesTentative)
    modify (store branch)
    return branch

def appendPrivatePrompt (branchId : BranchId) (tokenIds : List Token) (version : ℤ) :
    EStateM GraphError BranchGraph Unit := do
  let branch ← BranchGraph.get branchId
  if branch.status ≠ .queued then throw .promptAfterScheduling
  else do
    let _ ← onKV (VersionedKVManager.appendBranch branchId tokenIds version)

/-- Whether a revision of `sessionId` reaches the branch. -/
def stale (sessionId : SessionId) (changedRange : TokenRange) (newVersion : ℕ)
    (branch : Branch) : Bool :=
  branch.sessionId = sessionId && branch.status.active &&
    ((branch.requiresCurrentVersion && branch.baseVersion ≠ newVersion) ||
      (0 < changedRange.length && branch.dependency.intersects changedRange))

/-- The loop of `invalidate`: the task ids of the branches that became stale. -/
def invalidateBranches (sessionId : SessionId) (changedRange : TokenRange) (newVersion : ℕ) :
    List Branch → EStateM GraphError BranchGraph (List TaskId)
  | [] => return []
  | branch :: rest =>
    if stale sessionId changedRange newVersion branch = true then do
      modify (store { branch with
        status := .invalidated, invalidatedByVersion := some newVersion })
      let _ ← onKV (VersionedKVManager.releaseBranch branch.branchId)
      let more ← invalidateBranches sessionId changedRange newVersion rest
      return branch.taskId :: more
    else invalidateBranches sessionId changedRange newVersion rest

def invalidate (sessionId : SessionId) (changedRange : TokenRange) (newVersion : ℕ) :
    EStateM GraphError BranchGraph (List TaskId) := do
  let g ← get
  invalidateBranches sessionId changedRange newVersion g.branches.values

def markRunning (branchId : BranchId) : EStateM GraphError BranchGraph Unit := do
  let branch ← BranchGraph.get branchId
  if branch.status ≠ .queued then throw (.notQueued branchId)
  else modify (store { branch with status := .running })

def complete (branchId : BranchId) : EStateM GraphError BranchGraph Unit := do
  let branch ← BranchGraph.get branchId
  if branch.status ≠ .running then throw (.notRunning branchId)
  else do
    modify (store { branch with status := .completed })
    let _ ← onKV (VersionedKVManager.releaseBranch branchId)

def cancel (branchId : BranchId) : EStateM GraphError BranchGraph Unit := do
  let branch ← BranchGraph.get branchId
  if branch.status.active = true then do
    modify (store { branch with status := .cancelled })
    let _ ← onKV (VersionedKVManager.releaseBranch branchId)
  else return ()

end BranchGraph
end CueBee.Runtime
