import CueBee.Support.BoundedQueue
import CueBee.Runtime.Engine

/-! # The input streams of the in-process engine

A `VLLMInputStream` is a bounded queue of updates with one consumer; the bridge keeps the
stream of every open session. The objects that the input factory builds belong to the engine:
the factory is a parameter, and `none` is a call of it that raises.
-/
namespace CueBee.Bridge
open Cache Transcript CueBee.Runtime Asyncio Raising

/-- Materializes a branch from a resident prefix; the checks of its constructor are fields. -/
@[ext] structure BranchForkUpdate where
  sourceSessionId : SessionId
  branchId : PyStr
  version : ℕ
  forkAt : ℕ
  promptTokenIds : List Token
  commitFrontier : ℕ
  source_named : sourceSessionId ≠ []
  branch_named : branchId ≠ []
  branch_differs : sourceSessionId ≠ branchId
  fork_pos : 0 < forkAt
  suffix_present : forkAt < promptTokenIds.length
  frontier_le : commitFrontier ≤ forkAt

instance : DecidableEq BranchForkUpdate :=
  fun _ _ => decidable_of_iff _ BranchForkUpdate.ext_iff.symm

inductive VLLMStreamUpdate
  | revision (update : SessionRevisionUpdate)
  | fork (update : BranchForkUpdate)
deriving DecidableEq

/-- What is put in the queue; `serial` is the number of the publish call. -/
inductive QueueItem
  | update (serial : ℕ) (update : VLLMStreamUpdate)
  | terminator
deriving DecidableEq

/-- The loop of `inputs()`: it goes on until it takes the terminator or the factory raises. -/
inductive Consumer
  | iterating
  | returned
  | raised
deriving DecidableEq

abbrev InputFactory (P I : Type) := VLLMStreamUpdate → P → Option I

/-- The exceptions of streams and of the bridge. -/
inductive BridgeError
  | notPositive
  | streamClosed
  | queueFull
  | factory
  | emptySessionId
  | alreadyOpen (sessionId : SessionId)
  | notOpen (sessionId : SessionId)
  | sourceNotOpen (sessionId : SessionId)
  | keyError (sessionId : SessionId)
  | noSuchStream
deriving DecidableEq

structure VLLMInputStream (P I : Type) where
  samplingParams : P
  queue : BoundedQueue QueueItem
  inputFactory : InputFactory P I
  closed : Bool
  consumer : Consumer
  published : ℕ

namespace VLLMInputStream
variable {P I : Type}

def init (samplingParams : P) (maxPendingUpdates : ℤ) (inputFactory : InputFactory P I) :
    Except BridgeError (VLLMInputStream P I) :=
  if maxPendingUpdates ≤ 0 then .error .notPositive
  else .ok ⟨samplingParams,.empty maxPendingUpdates.toNat,inputFactory,false,.iterating,0⟩

/-- A new stream is open and has nothing queued. -/
theorem init_ok {samplingParams : P} {maxPendingUpdates : ℤ} {inputFactory : InputFactory P I}
    {s : VLLMInputStream P I} (h : init samplingParams maxPendingUpdates inputFactory = .ok s) :
    s.closed = false ∧ s.queue.items = [] := by
  unfold init at h
  split at h
  · cases h
  · cases h
    exact ⟨rfl,rfl⟩

/-- `put_nowait` on the stream's queue. -/
def putNowait (item : QueueItem) : EStateM BridgeError (VLLMInputStream P I) (Put QueueItem) := fun s =>
  match s.queue.putNowait item with
  | none => .error .queueFull s
  | some queue => .ok (.done item) { s with queue := queue }

/-- `put` on the stream's queue. -/
def put (item : QueueItem) : EStateM BridgeError (VLLMInputStream P I) (Put QueueItem) := fun s =>
  .ok (s.queue.put item).1 { s with queue := (s.queue.put item).2 }

/-- The object that is put in the queue for an update. -/
def wrap (update : VLLMStreamUpdate) : EStateM BridgeError (VLLMInputStream P I) QueueItem := fun s =>
  .ok (.update s.published update) { s with published := s.published + 1 }

/-- Like all calls here it reports what it has put in the queue. -/
def publishNowait (update : VLLMStreamUpdate) :
    EStateM BridgeError (VLLMInputStream P I) (Put QueueItem) := do
  if (← get).closed = true then throw .streamClosed
  else putNowait (← wrap update)

def publish (update : VLLMStreamUpdate) :
    EStateM BridgeError (VLLMInputStream P I) (Put QueueItem) := do
  if (← get).closed = true then throw .streamClosed
  else put (← wrap update)

def closeNowait : EStateM BridgeError (VLLMInputStream P I) (Option (Put QueueItem)) := do
  if (← get).closed = true then return none
  else do
    modify (fun s => { s with closed := true })
    let put ← putNowait .terminator
    return some put

def close : EStateM BridgeError (VLLMInputStream P I) (Option (Put QueueItem)) := do
  if (← get).closed = true then return none
  else do
    modify (fun s => { s with closed := true })
    let put ← put .terminator
    return some put

/-- The event loop resumes a `publish` or a `close` that was woken. -/
def resume (index : ℕ) : EStateM BridgeError (VLLMInputStream P I) (Option (Put QueueItem)) := fun s =>
  match s.queue.resume index with
  | none => .ok none s
  | some (put,queue) => .ok (some put) { s with queue := queue }

/-- One round of the loop of `inputs()`. It yields nothing when the queue is empty and it
waits, and nothing once it has ended. -/
def pull : EStateM BridgeError (VLLMInputStream P I) (Option (ℕ × I)) := fun s =>
  match s.consumer with
  | .iterating =>
    match s.queue.getNowait with
    | none => .ok none s
    | some (.terminator,queue) => .ok none { s with queue := queue, consumer := .returned }
    | some (.update serial update,queue) =>
      match s.inputFactory update s.samplingParams with
      | none => .error .factory { s with queue := queue, consumer := .raised }
      | some input => .ok (some (serial,input)) { s with queue := queue }
  | .returned | .raised => .ok none s

theorem putNowait_room {s : VLLMInputStream P I} (item : QueueItem) (hroom : s.queue.full = false) :
    putNowait item s = .ok (.done item)
      { s with queue := { s.queue with items := s.queue.items ++ [item] } } := by
  simp [putNowait,BoundedQueue.putNowait,hroom]

theorem putNowait_full {s : VLLMInputStream P I} (item : QueueItem) (hfull : s.queue.full = true) :
    putNowait item s = .error .queueFull s := by
  simp [putNowait,BoundedQueue.putNowait,hfull]

/-- With room it makes no difference whether the caller would wait. -/
theorem putNowait_eq_put {s : VLLMInputStream P I} (item : QueueItem) (hroom : s.queue.full = false) :
    putNowait item s = put item s := by
  rw [putNowait_room item hroom]
  simp [put,BoundedQueue.put,hroom]

theorem publishNowait_closed {s : VLLMInputStream P I} (update : VLLMStreamUpdate)
    (h : s.closed = true) : publishNowait update s = .error .streamClosed s := by
  simp only [publishNowait,bind_ok (get_apply s),h,if_true,throw_apply]

/-- On an open stream the update is numbered and put. -/
theorem publishNowait_open {s : VLLMInputStream P I} (update : VLLMStreamUpdate)
    (h : s.closed = false) : publishNowait update s =
      putNowait (.update s.published update) { s with published := s.published + 1 } := by
  refine (bind_ok (get_apply s)).trans ?_
  rw [if_neg (by simp [h])]
  exact bind_ok (show wrap update s = .ok _ _ from rfl)

theorem publish_closed {s : VLLMInputStream P I} (update : VLLMStreamUpdate)
    (h : s.closed = true) : publish update s = .error .streamClosed s := by
  simp only [publish,bind_ok (get_apply s),h,if_true,throw_apply]

theorem publish_open {s : VLLMInputStream P I} (update : VLLMStreamUpdate) (h : s.closed = false) :
    publish update s =
      put (.update s.published update) { s with published := s.published + 1 } := by
  refine (bind_ok (get_apply s)).trans ?_
  rw [if_neg (by simp [h])]
  exact bind_ok (show wrap update s = .ok _ _ from rfl)

theorem closeNowait_closed {s : VLLMInputStream P I} (h : s.closed = true) :
    closeNowait s = .ok none s := by
  simp only [closeNowait,bind_ok (get_apply s),h,if_true,pure_apply]

theorem closeNowait_room {s : VLLMInputStream P I} (h : s.closed = false)
    (hroom : s.queue.full = false) :
    closeNowait s = .ok (some (.done .terminator)) { s with
      closed := true
      queue := { s.queue with items := s.queue.items ++ [.terminator] } } := by
  have hput := putNowait_room (s := { s with closed := true }) .terminator hroom
  simp only [closeNowait,bind_ok (get_apply s),h,Bool.false_eq_true,if_false,
    bind_ok (modify_apply _ s),bind_ok hput,pure_apply]

theorem closeNowait_full {s : VLLMInputStream P I} (h : s.closed = false)
    (hfull : s.queue.full = true) : closeNowait s = .error .queueFull { s with closed := true } := by
  have hput := putNowait_full (s := { s with closed := true }) .terminator hfull
  simp only [closeNowait,bind_ok (get_apply s),h,Bool.false_eq_true,if_false,
    bind_ok (modify_apply _ s),bind_error hput]

theorem close_closed {s : VLLMInputStream P I} (h : s.closed = true) : close s = .ok none s := by
  simp only [close,bind_ok (get_apply s),h,if_true,pure_apply]

theorem close_open {s : VLLMInputStream P I} (h : s.closed = false) :
    close s = .ok (some (s.queue.put .terminator).1)
      { s with closed := true, queue := (s.queue.put .terminator).2 } := by
  simp only [close,bind_ok (get_apply s),h,Bool.false_eq_true,if_false,bind_ok (modify_apply _ s)]
  rfl

theorem closeNowait_eq_close {s : VLLMInputStream P I} (hclosed : s.closed = false)
    (hroom : s.queue.full = false) : closeNowait s = close s := by
  rw [closeNowait_room hclosed hroom,close_open hclosed]
  simp [BoundedQueue.put,hroom]

/-- The five ways a round of the loop can go. -/
inductive PullCase (s : VLLMInputStream P I) :
    EStateM.Result BridgeError (VLLMInputStream P I) (Option (ℕ × I)) → Prop
  | idle (hidle : s.consumer ≠ .iterating) : PullCase s (.ok none s)
  | waits (hon : s.consumer = .iterating) (hempty : s.queue.items = []) : PullCase s (.ok none s)
  | ends (queue : BoundedQueue QueueItem) (hon : s.consumer = .iterating)
      (hget : s.queue.getNowait = some (.terminator,queue)) :
      PullCase s (.ok none { s with queue := queue, consumer := .returned })
  | fails (serial : ℕ) (update : VLLMStreamUpdate) (queue : BoundedQueue QueueItem)
      (hon : s.consumer = .iterating) (hget : s.queue.getNowait = some (.update serial update,queue))
      (hfactory : s.inputFactory update s.samplingParams = none) :
      PullCase s (.error .factory { s with queue := queue, consumer := .raised })
  | yields (serial : ℕ) (update : VLLMStreamUpdate) (queue : BoundedQueue QueueItem) (input : I)
      (hon : s.consumer = .iterating) (hget : s.queue.getNowait = some (.update serial update,queue))
      (hfactory : s.inputFactory update s.samplingParams = some input) :
      PullCase s (.ok (some (serial,input)) { s with queue := queue })

theorem pull_case (s : VLLMInputStream P I) : PullCase s (pull s) := by
  cases hon : s.consumer with
  | returned =>
    simp only [pull,hon]
    exact .idle (by simp [hon])
  | raised =>
    simp only [pull,hon]
    exact .idle (by simp [hon])
  | iterating =>
    cases hget : s.queue.getNowait with
    | none =>
      simp only [pull,hon,hget]
      exact .waits hon (BoundedQueue.getNowait_none.mp hget)
    | some got =>
      obtain ⟨item,queue⟩ := got
      cases item with
      | terminator =>
        simp only [pull,hon,hget]
        exact .ends queue hon hget
      | update serial update =>
        cases hfactory : s.inputFactory update s.samplingParams with
        | none =>
          simp only [pull,hon,hget,hfactory]
          exact .fails serial update queue hon hget hfactory
        | some input =>
          simpa only [pull,hon,hget,hfactory] using
            PullCase.yields serial update queue input hon hget hfactory

end VLLMInputStream

/-- The table of the open sessions, and the stream objects in the order of their creation. -/
structure VLLMRevisionBridge (P I : Type) where
  streams : Dict SessionId ℕ
  objects : List (VLLMInputStream P I)

namespace VLLMRevisionBridge
variable {P I : Type}

def init : VLLMRevisionBridge P I := ⟨Dict.empty,[]⟩

/-- A call on a stream object. -/
def onStream {α : Type} (handle : ℕ) (x : EStateM BridgeError (VLLMInputStream P I) α) :
    EStateM BridgeError (VLLMRevisionBridge P I) α := fun b =>
  match b.objects[handle]? with
  | none => .error .noSuchStream b
  | some stream =>
    match x stream with
    | .ok a stream' => .ok a { b with objects := b.objects.set handle stream' }
    | .error e stream' => .error e { b with objects := b.objects.set handle stream' }

def openSession (sessionId : SessionId) (samplingParams : P) (maxPendingUpdates : ℤ)
    (inputFactory : InputFactory P I) : EStateM BridgeError (VLLMRevisionBridge P I) ℕ := fun b =>
  if sessionId = [] then .error .emptySessionId b
  else if (b.streams.get? sessionId).isSome = true then .error (.alreadyOpen sessionId) b
  else
    match VLLMInputStream.init samplingParams maxPendingUpdates inputFactory with
    | .error e => .error e b
    | .ok stream => .ok b.objects.length
        ⟨b.streams.set sessionId b.objects.length,b.objects ++ [stream]⟩

def updateSession (update : SessionRevisionUpdate) :
    EStateM BridgeError (VLLMRevisionBridge P I) Unit := do
  match (← get).streams.get? update.sessionId with
  | none => throw (.notOpen update.sessionId)
  | some handle => do
    let _ ← onStream handle (VLLMInputStream.publishNowait (.revision update))
    return ()

def openBranch (update : BranchForkUpdate) (samplingParams : P) (inputFactory : InputFactory P I) :
    EStateM BridgeError (VLLMRevisionBridge P I) ℕ := do
  if ((← get).streams.get? update.sourceSessionId).isSome = false then
    throw (.sourceNotOpen update.sourceSessionId)
  else do
    let handle ← openSession update.branchId samplingParams 2 inputFactory
    let _ ← onStream handle (VLLMInputStream.publishNowait (.fork update))
    return handle

def closeSessionNowait (sessionId : SessionId) : EStateM BridgeError (VLLMRevisionBridge P I) Unit := do
  match (← get).streams.get? sessionId with
  | none => throw (.keyError sessionId)
  | some handle => do
    modify (fun b => { b with streams := b.streams.erase sessionId })
    let _ ← onStream handle VLLMInputStream.closeNowait
    return ()

end VLLMRevisionBridge
end CueBee.Bridge
