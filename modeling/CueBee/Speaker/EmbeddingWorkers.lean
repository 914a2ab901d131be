import CueBee.Support.RaisingCalls
import CueBee.Speaker.AudioChunks

/-! # Embedding workers

A worker is any object with `embed_batch`. `Computes f` is the contract of the stateless
workers: every chunk of every batch gets the result that `f` gives for it alone, under the
chunk's own id.
-/
namespace CueBee.Speaker
open Cache Raising FloatOps SampleOps

structure EmbeddingResult (K : Type) where
  chunkId : ChunkId
  embedding : List K
  quality : K
  inferenceSeconds : K
deriving DecidableEq

/-- An exception of a worker. -/
structure WorkerError where
  message : PyStr
deriving DecidableEq

/-- Whatever the workers keep outside the program is `W`. -/
structure EmbeddingWorker (W K : Type) where
  embedBatch : List (AudioChunk K) → EStateM WorkerError W (List (EmbeddingResult K))

/-- An embedding with its quality. -/
structure Features (K : Type) where
  embedding : List K
  quality : K
deriving DecidableEq

def EmbeddingResult.features {K : Type} (result : EmbeddingResult K) : Features K :=
  ⟨result.embedding,result.quality⟩

/-- The worker returns, for every batch, the results of `f` under the ids of the chunks. -/
def EmbeddingWorker.Computes {W K : Type} (f : AudioChunk K → Features K)
    (worker : EmbeddingWorker W K) : Prop :=
  ∀ chunks w, ∃ results w', worker.embedBatch chunks w = .ok results w' ∧
    results.map (fun result => (result.chunkId,result.features)) =
      chunks.map (fun chunk => (chunk.chunkId,f chunk))

section Vectors
variable {K : Type} [SampleOps K]

def normalize (values : List K) : List K :=
  let norm := sqrt (sum (values.map (fun value => value * value)))
  if eq norm (ofRat 0) = true then values.map (fun _ => ofRat 0)
  else values.map (fun value => value / norm)

/-- `none` is the exception for vectors of different dimensions. -/
def cosineSimilarity (left right : List K) : Option K :=
  if left.length ≠ right.length then none else some (sum (List.zipWith (· * ·) left right))

def zeroCrossings (samples : List K) : ℕ :=
  (List.zip samples samples.tail).countP
    (fun pair => le (ofRat 0) pair.1 != le (ofRat 0) pair.2)

/-- The mean absolute value in one of the windows. -/
def windowFeature (windows : ℕ) (samples : List K) (index : ℕ) : K :=
  let start := index * samples.length / windows
  let stop := (index + 1) * samples.length / windows
  let slice := (samples.take stop).drop start
  let window := if slice = [] then samples else slice
  sum (window.map SampleOps.abs) / ofRat window.length

/-- `max(abs(value) for value in samples)`. -/
def peak : List K → K
  | [] => ofRat 0
  | sample :: rest => rest.foldl (fun best value => FloatOps.max best (SampleOps.abs value))
      (SampleOps.abs sample)

def chunkFeatures (dimensions : ℕ) (samples : List K) : Features K where
  embedding := normalize ([sum samples / ofRat samples.length,rms samples,
    ofRat (zeroCrossings samples / (Nat.max 1 (samples.length - 1) : ℕ)),peak samples] ++
    (List.range (dimensions - 4)).map (windowFeature (dimensions - 4) samples))
  quality := FloatOps.max (ofRat 0) (FloatOps.min (ofRat 1) (rms samples / ofRat (3 / 20)))

/-- The worker of the load tests; a batch takes the time that the clock `elapsed` shows. -/
def deterministicEmbeddingWorker (dimensions : ℕ) (_ : 4 ≤ dimensions) (elapsed : K) :
    EmbeddingWorker Unit K where
  embedBatch chunks := pure (chunks.map (fun chunk =>
    let features := chunkFeatures dimensions chunk.samples
    ⟨chunk.chunkId,features.embedding,features.quality,
      elapsed / ofRat (Nat.max 1 chunks.length : ℕ)⟩))

theorem deterministicEmbeddingWorker_computes (dimensions : ℕ) (h : 4 ≤ dimensions) (elapsed : K) :
    (deterministicEmbeddingWorker dimensions h elapsed).Computes
      (fun chunk => chunkFeatures dimensions chunk.samples) := by
  refine fun chunks w => ⟨_,w,rfl,?_⟩
  rw [List.map_map]
  rfl

end Vectors
end CueBee.Speaker
