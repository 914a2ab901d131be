import CueBee.Speaker.MicroBatcher
import CueBee.Speaker.SessionStore

/-! # The speaker service

Voice activity detection, micro-batching, embedding and assignment. The values of latency
samples are left out; an exception leaves behind what was done before it.
-/
namespace CueBee.Speaker
open Cache Raising

inductive SubmitStatus
  | accepted
  | silence
  | backpressure
deriving DecidableEq

inductive SpeakerMetric
  | silenceDropped
  | backpressureDropped
  | chunksAccepted
deriving DecidableEq

/-- The exceptions of `submit` and `flush`. -/
inductive SpeakerError
  | worker (error : WorkerError)
  | resultCount
  | missingResult (chunkId : ChunkId)
  | store (error : StoreError)
  | overflow
deriving DecidableEq

structure SpeakerService (W K : Type) [SampleOps K] where
  workers : List (EmbeddingWorker W K)
  workers_present : workers ≠ []
  store : SpeakerSessionStore K
  batcher : SpeakerMicroBatcher K
  vad : EnergyVAD K
  counters : Dict SpeakerMetric ℕ
  backlogSeconds : Option K
  nextWorker : ℕ
  outside : W

/-- The results of one batch by chunk id. -/
def byChunk {K : Type} (results : List (EmbeddingResult K)) : Dict ChunkId (EmbeddingResult K) :=
  results.foldl (fun d result => d.set result.chunkId result) Dict.empty

def segmentOf {K : Type} (chunk : AudioChunk K) (assigned : SpeakerId × K) (quality : K) :
    SpeakerSegment K where
  sessionId := chunk.sessionId
  chunkId := chunk.chunkId
  startMs := chunk.startMs
  endMs := chunk.endMs
  speakerId := assigned.1
  similarity := assigned.2
  embeddingQuality := quality

namespace SpeakerService
variable {W K : Type} [SampleOps K]

def init (workers : List (EmbeddingWorker W K)) (h : workers ≠ []) (store : SpeakerSessionStore K)
    (batcher : SpeakerMicroBatcher K) (vad : EnergyVAD K) (outside : W) : SpeakerService W K :=
  ⟨workers,h,store,batcher,vad,Dict.empty,none,0,outside⟩

def inc (name : SpeakerMetric) (s : SpeakerService W K) : SpeakerService W K :=
  { s with counters := s.counters.set name ((s.counters.get? name).getD 0 + 1) }

def submit (chunk : AudioChunk K) (nowMs : ℤ) :
    EStateM SpeakerError (SpeakerService W K) SubmitStatus := fun s =>
  if s.vad.isSpeech chunk.samples = false then .ok .silence (s.inc .silenceDropped)
  else
    match s.batcher.enqueue chunk nowMs with
    | (none,batcher) => .error .overflow { s with batcher := batcher }
    | (some false,batcher) =>
      .ok .backpressure ({ s with batcher := batcher }.inc .backpressureDropped)
    | (some true,batcher) =>
      let s := { s with batcher := batcher }.inc .chunksAccepted
      .ok .accepted { s with backlogSeconds := some batcher.backlogSeconds }

/-- `self.workers[self._next_worker % len(self.workers)]`. -/
def worker (s : SpeakerService W K) : EmbeddingWorker W K :=
  s.workers.get ⟨s.nextWorker % s.workers.length,
    Nat.mod_lt _ (List.length_pos_of_ne_nil s.workers_present)⟩

/-- The worker whose turn it is embeds the batch. -/
def embed (chunks : List (AudioChunk K)) :
    EStateM SpeakerError (SpeakerService W K) (List (EmbeddingResult K)) := fun s =>
  focus SpeakerService.outside (fun w s => { s with outside := w }) .worker
    (s.worker.embedBatch chunks) { s with nextWorker := s.nextWorker + 1 }

def onStore {α : Type} (x : EStateM StoreError (SpeakerSessionStore K) α) :
    EStateM SpeakerError (SpeakerService W K) α :=
  focus SpeakerService.store (fun store s => { s with store := store }) .store x

/-- `float(max(0, now_ms - item.enqueued_ms))`, a latency sample. -/
def queueDelay (nowMs : ℤ) (item : QueuedChunk K) : Option K :=
  FloatOps.ofInt (max 0 (nowMs - item.enqueuedMs))

/-- The loop over the items of a batch; a delay that is too large for a float ends it. -/
def assignBatch (nowMs : ℤ) (results : Dict ChunkId (EmbeddingResult K)) :
    List (QueuedChunk K) → EStateM SpeakerError (SpeakerService W K) (List (SpeakerSegment K))
  | [] => return []
  | item :: rest =>
    match results.get? item.chunk.chunkId with
    | none => throw (.missingResult item.chunk.chunkId)
    | some result => do
      let assigned ← onStore
        (SpeakerSessionStore.assign item.chunk.sessionId result.embedding result.quality)
      match queueDelay nowMs item with
      | none => throw .overflow
      | some _ => do
        let segments ← assignBatch nowMs results rest
        return segmentOf item.chunk assigned result.quality :: segments

def processBatch (nowMs : ℤ) (batch : List (QueuedChunk K)) :
    EStateM SpeakerError (SpeakerService W K) (List (SpeakerSegment K)) := do
  let results ← embed (batch.map QueuedChunk.chunk)
  if results.length ≠ batch.length then throw .resultCount
  else assignBatch nowMs (byChunk results) batch

/-- The loop over the batches. -/
def processBatches (nowMs : ℤ) :
    List (List (QueuedChunk K)) → EStateM SpeakerError (SpeakerService W K) (List (SpeakerSegment K))
  | [] => return []
  | batch :: rest => do
    let segments ← processBatch nowMs batch
    let more ← processBatches nowMs rest
    return segments ++ more

def popReady (nowMs : ℤ) (force : Bool) :
    EStateM SpeakerError (SpeakerService W K) (List (List (QueuedChunk K))) := fun s =>
  .ok (s.batcher.popReady nowMs force).1
    { s with batcher := (s.batcher.popReady nowMs force).2 }

def flush (nowMs : ℤ) (force : Bool) :
    EStateM SpeakerError (SpeakerService W K) (List (SpeakerSegment K)) := do
  let batches ← popReady nowMs force
  let output ← processBatches nowMs batches
  modify (fun s => { s with backlogSeconds := some s.batcher.backlogSeconds })
  return output

end SpeakerService

/-- A call of a client of the service. -/
inductive SpeakerCall (K : Type)
  | submit (chunk : AudioChunk K) (nowMs : ℤ)
  | flush (nowMs : ℤ) (force : Bool)

inductive SpeakerReply (K : Type)
  | submitted (status : SubmitStatus)
  | flushed (segments : List (SpeakerSegment K))
deriving DecidableEq

namespace SpeakerService
variable {W K : Type} [SampleOps K]

def exec : SpeakerCall K → EStateM SpeakerError (SpeakerService W K) (SpeakerReply K)
  | .submit chunk nowMs => do
    let status ← submit chunk nowMs
    return .submitted status
  | .flush nowMs force => do
    let segments ← flush nowMs force
    return .flushed segments

end SpeakerService
end CueBee.Speaker
