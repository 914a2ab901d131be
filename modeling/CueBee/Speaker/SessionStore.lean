import CueBee.Speaker.EmbeddingWorkers

/-! # Speaker identities of a session

`assign` matches an embedding against the profiles of its session, or opens a new one.
-/
namespace CueBee.Speaker
open Cache Raising FloatOps SampleOps PyStr

abbrev SpeakerId := PyStr

structure SpeakerProfile (K : Type) where
  speakerId : SpeakerId
  centroid : List K
  effectiveSamples : K
  displayName : Option PyStr
deriving DecidableEq

structure SpeakerSession (K : Type) where
  profiles : Dict SpeakerId (SpeakerProfile K)
  nextSpeakerNumber : ℕ

def SpeakerSession.fresh {K : Type} : SpeakerSession K := ⟨Dict.empty,1⟩

structure SpeakerSessionStore (K : Type) [SampleOps K] where
  assignmentThreshold : K
  threshold_ok : between (-1) 1 assignmentThreshold = true
  sessions : Dict SessionId (SpeakerSession K)

/-- The exceptions that leave `assign`. -/
inductive StoreError
  | quality
  | dimensions
  | zeroDivision
deriving DecidableEq

namespace SpeakerSessionStore
variable {K : Type} [SampleOps K]

def init (assignmentThreshold : K) (h : between (-1) 1 assignmentThreshold = true) :
    SpeakerSessionStore K := ⟨assignmentThreshold,h,Dict.empty⟩

/-- The session as `setdefault` returns it. -/
def session (sessionId : SessionId) (store : SpeakerSessionStore K) : SpeakerSession K :=
  (store.sessions.get? sessionId).getD .fresh

def put (sessionId : SessionId) (session : SpeakerSession K) (store : SpeakerSessionStore K) :
    SpeakerSessionStore K :=
  { store with sessions := store.sessions.set sessionId session }

/-- `f"spk_{number:03d}"`. -/
def speakerName (number : ℕ) : SpeakerId := lit "spk_" ++ zfill 3 (decimal number)

/-- The loop over the profiles: the best one so far and its score. -/
def bestMatch (vector : List K) :
    List (SpeakerProfile K) → Option (SpeakerProfile K) × K → Option (Option (SpeakerProfile K) × K)
  | [], best => some best
  | profile :: rest, best =>
    match cosineSimilarity profile.centroid vector with
    | none => none
    | some score => bestMatch vector rest (if lt best.2 score = true then (some profile,score) else best)

/-- The session with one more profile. -/
def addProfile (vector : List K) (quality : K) (session : SpeakerSession K) : SpeakerSession K where
  profiles := session.profiles.set (speakerName session.nextSpeakerNumber)
    ⟨speakerName session.nextSpeakerNumber,vector,FloatOps.max (ofRat (1 / 10)) quality,none⟩
  nextSpeakerNumber := session.nextSpeakerNumber + 1

/-- The profile moved towards the vector by the weight of the quality. -/
def blend (vector : List K) (weight total : K) (best : SpeakerProfile K) : SpeakerProfile K :=
  { best with
    centroid := normalize (List.zipWith
      (fun old new => (old * best.effectiveSamples + new * weight) / total) best.centroid vector)
    effectiveSamples := total }

def assign (sessionId : SessionId) (embedding : List K) (quality : K) :
    EStateM StoreError (SpeakerSessionStore K) (SpeakerId × K) := do
  if between 0 1 quality = false then throw .quality
  else do
    let vector := normalize embedding
    let store ← get
    let session := store.session sessionId
    set (store.put sessionId session)
    match bestMatch vector session.profiles.values (none,ofRat (-1)) with
    | none => throw .dimensions
    | some (none,bestScore) => do
      set (store.put sessionId (addProfile vector quality session))
      return (speakerName session.nextSpeakerNumber,bestScore)
    | some (some best,bestScore) =>
      if lt bestScore store.assignmentThreshold = true then do
        set (store.put sessionId (addProfile vector quality session))
        return (speakerName session.nextSpeakerNumber,bestScore)
      else do
        let weight := FloatOps.max (ofRat (1 / 20)) quality
        let total := best.effectiveSamples + weight
        if best.centroid ≠ [] ∧ eq total (ofRat 0) = true then throw .zeroDivision
        else do
          set (store.put sessionId { session with
            profiles := session.profiles.set best.speakerId (blend vector weight total best) })
          return (best.speakerId,bestScore)

end SpeakerSessionStore
end CueBee.Speaker
