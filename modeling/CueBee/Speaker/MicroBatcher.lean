import Mathlib.Algebra.Ring.Rat
import Mathlib.Data.List.Dedup
import Mathlib.Data.List.Lex
import Mathlib.Data.List.Sort
import CueBee.Support.Dictionary
import CueBee.Speaker.AudioChunks

/-! # Micro-batching across sessions

Chunks wait in one queue for each length bucket. `pop_ready` empties the queues that are due
in batches that take the sessions in turns.
-/
namespace CueBee.Speaker
open Cache

/-- A queued chunk; `serial` is the identity of the object. -/
structure QueuedChunk (K : Type) where
  serial : ℕ
  chunk : AudioChunk K
  enqueuedMs : ℤ
  deadlineMs : ℤ
deriving DecidableEq

inductive Bucket
  | short
  | medium
  | long
deriving DecidableEq

/-- The bucket names in the order of `sorted`. -/
def Bucket.sorted : List Bucket := [.long,.medium,.short]

/-- `_bucket`, which may raise `OverflowError`. -/
def bucketOf {K : Type} [FloatOps K] (chunk : AudioChunk K) : Option Bucket :=
  chunk.durationSeconds.map (fun seconds =>
    if FloatOps.le seconds (FloatOps.ofRat 1) = true then .short
    else if FloatOps.le seconds (FloatOps.ofRat 3) = true then .medium
    else .long)

structure SpeakerMicroBatcher (K : Type) where
  maxBatchSize : ℕ
  maxWaitMs : ℤ
  dispatchSlackMs : ℤ
  perSessionPending : ℕ
  batchSize_pos : 0 < maxBatchSize
  wait_pos : 0 < maxWaitMs
  pending_pos : 0 < perSessionPending
  buckets : Dict Bucket (List (QueuedChunk K))
  pendingBySession : Dict SessionId ℤ
  backpressureDrops : ℕ
  nextSerial : ℕ

namespace SpeakerMicroBatcher
variable {K : Type}

def init (maxBatchSize : ℕ) (maxWaitMs dispatchSlackMs : ℤ) (perSessionPending : ℕ)
    (hbatch : 0 < maxBatchSize) (hwait : 0 < maxWaitMs) (hpending : 0 < perSessionPending) :
    SpeakerMicroBatcher K :=
  ⟨maxBatchSize,maxWaitMs,dispatchSlackMs,perSessionPending,hbatch,hwait,hpending,
    Dict.empty,Dict.empty,0,0⟩

def queue (b : SpeakerMicroBatcher K) (bucket : Bucket) : List (QueuedChunk K) :=
  (b.buckets.get? bucket).getD []

def pending (b : SpeakerMicroBatcher K) (sessionId : SessionId) : ℤ :=
  (b.pendingBySession.get? sessionId).getD 0

/-- The durations of the queued chunks; a chunk without one is never queued. -/
def backlogSeconds [SampleOps K] (b : SpeakerMicroBatcher K) : K :=
  SampleOps.sum (b.buckets.values.flatten.filterMap (fun item => item.chunk.durationSeconds))

/-- The result says whether the chunk was taken; `none` is `OverflowError`. -/
def enqueue [FloatOps K] (chunk : AudioChunk K) (nowMs : ℤ) (b : SpeakerMicroBatcher K) :
    Option Bool × SpeakerMicroBatcher K :=
  if (b.perSessionPending : ℤ) ≤ b.pending chunk.sessionId then
    (some false,{ b with
      pendingBySession := b.pendingBySession.setDefault chunk.sessionId 0
      backpressureDrops := b.backpressureDrops + 1 })
  else
    match bucketOf chunk with
    | none => (none,{ b with pendingBySession := b.pendingBySession.setDefault chunk.sessionId 0 })
    | some bucket =>
      let item : QueuedChunk K := ⟨b.nextSerial,chunk,nowMs,chunk.deadlineMs.getD (nowMs + 100)⟩
      (some true,{ b with
        buckets := b.buckets.set bucket (b.queue bucket ++ [item])
        pendingBySession := b.pendingBySession.set chunk.sessionId (b.pending chunk.sessionId + 1)
        nextSerial := b.nextSerial + 1 })

/-- The order of the sort key `(deadline_ms, enqueued_ms)`. -/
def dueBefore (a b : QueuedChunk K) : Bool :=
  a.deadlineMs < b.deadlineMs || (a.deadlineMs = b.deadlineMs && a.enqueuedMs ≤ b.enqueuedMs)

def candidates (queue : List (QueuedChunk K)) : List (QueuedChunk K) :=
  queue.insertionSort (fun a b => dueBefore a b = true)

/-- The items of each session, in the order of the session ids; no group is empty. -/
def bySession (items : List (QueuedChunk K)) : List (QueuedChunk K × List (QueuedChunk K)) :=
  ((items.map (fun item => item.chunk.sessionId)).dedup.insertionSort (· ≤ ·)).filterMap
    (fun sessionId =>
      match items.filter (fun item => item.chunk.sessionId = sessionId) with
      | [] => none
      | item :: rest => some (item,rest))

/-- The loop of `_fair_select`; `room` is what the limit leaves. -/
def takeTurns : ℕ → List (QueuedChunk K × List (QueuedChunk K)) → List (QueuedChunk K)
  | 0, _ => []
  | _, [] => []
  | room + 1, (item,[]) :: sessions => item :: takeTurns room sessions
  | room + 1, (item,next :: rest) :: sessions =>
    item :: takeTurns room (sessions ++ [(next,rest)])

def fairSelect (items : List (QueuedChunk K)) (limit : ℕ) : List (QueuedChunk K) :=
  takeTurns limit (bySession items)

/-- The test on a queue that is not empty. -/
def ready (nowMs : ℤ) (force : Bool) (b : SpeakerMicroBatcher K) (first : QueuedChunk K)
    (rest : List (QueuedChunk K)) : Bool :=
  let earliestDeadline := (rest.map QueuedChunk.deadlineMs).foldl min first.deadlineMs
  let oldestWait := nowMs - (rest.map QueuedChunk.enqueuedMs).foldl min first.enqueuedMs
  force || b.maxBatchSize ≤ (first :: rest).length || b.maxWaitMs ≤ oldestWait ||
    earliestDeadline ≤ nowMs + b.dispatchSlackMs

/-- The inner loop: batches and what stays queued. Every round takes at least one item, so
the length of the queue is enough `fuel`. -/
def dispatch (limit : ℕ) (force : Bool) :
    ℕ → List (QueuedChunk K) → List (List (QueuedChunk K)) × List (QueuedChunk K)
  | 0, queue => ([],queue)
  | fuel + 1, queue =>
    if queue = [] then ([],[])
    else
      let batch := fairSelect (candidates queue) limit
      let rest := queue.filter (fun item => item.serial ∉ batch.map QueuedChunk.serial)
      if force = true ∨ limit ≤ rest.length then
        (batch :: (dispatch limit force fuel rest).1,(dispatch limit force fuel rest).2)
      else ([batch],rest)

/-- `_pending_by_session[session_id] -= 1` for every item of a batch. -/
def settle (batch : List (QueuedChunk K)) (pending : Dict SessionId ℤ) : Dict SessionId ℤ :=
  batch.foldl (fun pending item => pending.set item.chunk.sessionId
    ((pending.get? item.chunk.sessionId).getD 0 - 1)) pending

def popBucket (nowMs : ℤ) (force : Bool) (bucket : Bucket) (b : SpeakerMicroBatcher K) :
    List (List (QueuedChunk K)) × SpeakerMicroBatcher K :=
  match b.queue bucket with
  | [] => ([],b)
  | first :: rest =>
    if ready nowMs force b first rest = true then
      let (batches,left) := dispatch b.maxBatchSize force (first :: rest).length (first :: rest)
      (batches,{ b with
        buckets := b.buckets.set bucket left
        pendingBySession := settle batches.flatten b.pendingBySession })
    else ([],b)

/-- The loop over the buckets. -/
def popBuckets (nowMs : ℤ) (force : Bool) :
    List Bucket → SpeakerMicroBatcher K → List (List (QueuedChunk K)) × SpeakerMicroBatcher K
  | [], b => ([],b)
  | bucket :: buckets, b =>
    let (batches,b) := popBucket nowMs force bucket b
    let (more,b) := popBuckets nowMs force buckets b
    (batches ++ more,b)

def popReady (nowMs : ℤ) (force : Bool) (b : SpeakerMicroBatcher K) :
    List (List (QueuedChunk K)) × SpeakerMicroBatcher K :=
  popBuckets nowMs force Bucket.sorted b

theorem exists_mem_bySession {items : List (QueuedChunk K)} (h : items ≠ []) :
    ∃ item rest sessions, bySession items = (item,rest) :: sessions ∧ item ∈ items := by
  have hsome : ∀ group ∈ bySession items, group.1 ∈ items := by
    intro group hgroup
    obtain ⟨sessionId,-,hpick⟩ := List.mem_filterMap.mp hgroup
    cases hfilter : items.filter (fun item => item.chunk.sessionId = sessionId) with
    | nil =>
      rw [hfilter] at hpick
      cases hpick
    | cons item rest =>
      rw [hfilter] at hpick
      cases hpick
      exact List.mem_of_mem_filter (hfilter ▸ List.mem_cons_self)
  cases hgroups : bySession items with
  | cons group sessions =>
    exact ⟨group.1,group.2,sessions,rfl,hsome group (hgroups ▸ List.mem_cons_self)⟩
  | nil =>
    -- the session of the first item has a group
    obtain ⟨first,tail,rfl⟩ := List.exists_cons_of_ne_nil h
    have hnone := List.filterMap_eq_nil_iff.mp hgroups first.chunk.sessionId (by simp)
    simp at hnone

theorem exists_mem_fairSelect {items : List (QueuedChunk K)} {limit : ℕ} (h : items ≠ [])
    (hlimit : 0 < limit) : ∃ item ∈ items, item ∈ fairSelect items limit := by
  obtain ⟨item,rest,sessions,hgroups,hmem⟩ := exists_mem_bySession h
  obtain ⟨room,rfl⟩ := Nat.exists_eq_succ_of_ne_zero hlimit.ne'
  refine ⟨item,hmem,?_⟩
  rw [fairSelect,hgroups]
  cases rest <;> exact List.mem_cons_self

theorem candidates_perm (queue : List (QueuedChunk K)) : (candidates queue).Perm queue :=
  List.perm_insertionSort _ queue

/-- What a batch leaves in the queue. -/
def unselected (limit : ℕ) (queue : List (QueuedChunk K)) : List (QueuedChunk K) :=
  queue.filter (fun item =>
    item.serial ∉ (fairSelect (candidates queue) limit).map QueuedChunk.serial)

/-- Every round shortens the queue. -/
theorem length_unselected_lt {limit : ℕ} (hlimit : 0 < limit) {queue : List (QueuedChunk K)}
    (hne : queue ≠ []) : (unselected limit queue).length < queue.length := by
  have hperm := candidates_perm queue
  have hcandidates : candidates queue ≠ [] := fun hnil => hne (hnil ▸ hperm).symm.eq_nil
  obtain ⟨item,hmem,hsel⟩ := exists_mem_fairSelect hcandidates hlimit
  refine List.length_filter_lt_length_iff_exists.mpr ⟨item,hperm.mem_iff.mp hmem,?_⟩
  simpa using ⟨item,hsel,rfl⟩

/-- More rounds than items change nothing. -/
theorem dispatch_of_length_le {limit : ℕ} (hlimit : 0 < limit) (force : Bool) {fuel more : ℕ}
    {queue : List (QueuedChunk K)} (hfuel : queue.length ≤ fuel) (hmore : queue.length ≤ more) :
    dispatch limit force fuel queue = dispatch limit force more queue := by
  induction fuel generalizing more queue with
  | zero =>
    obtain rfl := List.length_eq_zero_iff.mp (Nat.le_zero.mp hfuel)
    cases more <;> rfl
  | succ fuel ih =>
    by_cases hne : queue = []
    · subst hne
      cases more <;> rfl
    · obtain ⟨more,rfl⟩ : ∃ n, more = n + 1 :=
        Nat.exists_eq_succ_of_ne_zero (by have := List.length_pos_of_ne_nil hne; omega)
      have hshorter := length_unselected_lt hlimit hne
      have hrest := ih (Nat.le_of_lt_succ (hshorter.trans_le hfuel))
        (Nat.le_of_lt_succ (hshorter.trans_le hmore))
      unfold unselected at hrest
      simp only [dispatch,if_neg hne,hrest]

end SpeakerMicroBatcher
end CueBee.Speaker
