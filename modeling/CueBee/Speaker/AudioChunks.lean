import CueBee.Support.FloatOps
import CueBee.Cache.VersionedKVManager

/-! # Audio chunks

Samples and embeddings are floats. The speaker service is modelled over any type with the
operations that its source uses; nothing is assumed about them here.
-/
namespace CueBee.Speaker
open Cache

/-- The further operations on samples, with no laws either. -/
class SampleOps (K : Type) extends FloatOps K where
  /-- The built-in `sum` of a sequence. -/
  sum : List K → K
  sqrt : K → K
  abs : K → K

abbrev ChunkId := PyStr

/-- An audio chunk; the checks of its constructor are fields. -/
@[ext] structure AudioChunk (K : Type) where
  sessionId : SessionId
  chunkId : ChunkId
  startMs : ℕ
  endMs : ℕ
  samples : List K
  sampleRate : ℕ
  deadlineMs : Option ℤ
  session_named : sessionId ≠ []
  chunk_named : chunkId ≠ []
  timed : startMs < endMs
  rate_pos : 0 < sampleRate
  samples_present : samples ≠ []

instance {K : Type} [DecidableEq K] : DecidableEq (AudioChunk K) :=
  fun _ _ => decidable_of_iff _ AudioChunk.ext_iff.symm

/-- Half a second of one sample. -/
def AudioChunk.halfSecond {K : Type} (session chunk : String) (deadlineMs : Option ℤ) (sample : K)
    (hsession : PyStr.lit session ≠ []) (hchunk : PyStr.lit chunk ≠ []) : AudioChunk K where
  sessionId := PyStr.lit session
  chunkId := PyStr.lit chunk
  startMs := 0
  endMs := 500
  samples := [sample]
  sampleRate := 16000
  deadlineMs := deadlineMs
  session_named := hsession
  chunk_named := hchunk
  timed := by decide
  rate_pos := by decide
  samples_present := by simp

/-- `none` is `OverflowError`. -/
def AudioChunk.durationSeconds {K : Type} [FloatOps K] (chunk : AudioChunk K) : Option K :=
  (FloatOps.ofInt ((chunk.endMs : ℤ) - chunk.startMs)).map (fun ms => ms / FloatOps.ofRat 1000)

structure SpeakerSegment (K : Type) where
  sessionId : SessionId
  chunkId : ChunkId
  startMs : ℤ
  endMs : ℤ
  speakerId : PyStr
  similarity : K
  embeddingQuality : K
deriving DecidableEq

section Samples
variable {K : Type} [SampleOps K]
open FloatOps SampleOps

def rms (samples : List K) : K :=
  sqrt (sum (samples.map (fun value => value * value)) / ofRat samples.length)

structure EnergyVAD (K : Type) [SampleOps K] where
  rmsThreshold : K
  minActiveRatio : K
  threshold_ok : lt rmsThreshold (ofRat 0) = false
  ratio_ok : between 0 1 minActiveRatio = true

def EnergyVAD.isSpeech (vad : EnergyVAD K) (samples : List K) : Bool :=
  if samples = [] then false
  else
    let active : ℚ := samples.countP (fun sample => le vad.rmsThreshold (SampleOps.abs sample))
    le vad.rmsThreshold (rms samples) && le vad.minActiveRatio (ofRat (active / samples.length))

end Samples
end CueBee.Speaker
