import Mathlib.Data.List.Lex
import Mathlib.Data.List.Sort
import CueBee.Speaker.SessionStore

/-! # Renaming, exporting and restoring speakers

The payload of an export lists the profiles in the order of their ids. A restored session
stores them in that order.
-/
namespace CueBee.Speaker
open Cache Raising FloatOps SampleOps PyStr

/-- The exceptions that leave `rename`. -/
inductive RenameError
  | displayName
  | unknownSession (sessionId : SessionId)
  | unknownSpeaker (speakerId : SpeakerId)
deriving DecidableEq

structure ProfilePayload (K : Type) where
  centroid : List K
  effectiveSamples : K
  displayName : Option PyStr
deriving DecidableEq

structure SessionPayload (K : Type) where
  nextSpeakerNumber : ℕ
  profiles : Dict SpeakerId (ProfilePayload K)

/-- The items of a dictionary in the order of the keys. -/
def sortedItems {V : Type} (d : Dict PyStr V) : Dict PyStr V where
  entries := d.entries.insertionSort (fun x y => x.1 ≤ y.1)
  nodup_keys := ((List.perm_insertionSort _ d.entries).map Prod.fst).nodup_iff.mpr d.nodup_keys

section SortedItems
variable {V : Type} (d : Dict PyStr V)

theorem sortedItems_perm : (sortedItems d).entries.Perm d.entries := List.perm_insertionSort _ _

theorem get?_sortedItems (k : PyStr) : (sortedItems d).get? k = d.get? k := by
  apply Option.ext
  intro v
  rw [← Dict.mem_entries_iff,← Dict.mem_entries_iff]
  exact (sortedItems_perm d).mem_iff

theorem sortedItems_keys : (sortedItems d).keys.Pairwise (· ≤ ·) := by
  have : Std.Total (fun x y : PyStr × V => x.1 ≤ y.1) := ⟨fun x y => le_total x.1 y.1⟩
  have : IsTrans (PyStr × V) (fun x y => x.1 ≤ y.1) := ⟨fun _ _ _ => le_trans⟩
  exact List.pairwise_map.mpr (List.pairwise_insertionSort _ _)

end SortedItems

namespace SpeakerProfile
variable {K : Type}

def payload (profile : SpeakerProfile K) : ProfilePayload K :=
  ⟨profile.centroid,profile.effectiveSamples,profile.displayName⟩

end SpeakerProfile

namespace SpeakerSession
variable {K : Type}

/-- The payload of `export_session`. -/
def payload (session : SpeakerSession K) : SessionPayload K where
  nextSpeakerNumber := session.nextSpeakerNumber
  profiles := (sortedItems session.profiles).mapValues (fun _ profile => profile.payload)

end SpeakerSession

/-- The session that `restore_session` builds. -/
def SessionPayload.restore {K : Type} [SampleOps K] (payload : SessionPayload K) :
    SpeakerSession K where
  profiles := payload.profiles.mapValues (fun speakerId profile =>
    ⟨speakerId,normalize profile.centroid,profile.effectiveSamples,profile.displayName⟩)
  nextSpeakerNumber := payload.nextSpeakerNumber

namespace SpeakerSessionStore
variable {K : Type} [SampleOps K]

def rename (sessionId : SessionId) (speakerId : SpeakerId) (displayName : PyStr) :
    EStateM RenameError (SpeakerSessionStore K) Unit := do
  if displayName = [] then throw .displayName
  else do
    let store ← get
    match store.sessions.get? sessionId with
    | none => throw (.unknownSession sessionId)
    | some session =>
      match session.profiles.get? speakerId with
      | none => throw (.unknownSpeaker speakerId)
      | some profile =>
        set (store.put sessionId { session with
          profiles := session.profiles.set speakerId { profile with displayName := some displayName } })

def exportSession (sessionId : SessionId) (store : SpeakerSessionStore K) : SessionPayload K :=
  (store.session sessionId).payload

def restoreSession (sessionId : SessionId) (payload : SessionPayload K)
    (store : SpeakerSessionStore K) : SpeakerSessionStore K :=
  store.put sessionId payload.restore

/-- A call on the store; the caller survives every exception. -/
inductive Call (K : Type)
  | assign (sessionId : SessionId) (embedding : List K) (quality : K)
  | rename (sessionId : SessionId) (speakerId : SpeakerId) (displayName : PyStr)

def step (store : SpeakerSessionStore K) : Call K → SpeakerSessionStore K
  | .assign sessionId embedding quality => after (assign sessionId embedding quality) store
  | .rename sessionId speakerId displayName => after (rename sessionId speakerId displayName) store

def run (calls : List (Call K)) (store : SpeakerSessionStore K) : SpeakerSessionStore K :=
  calls.foldl step store

theorem run_append (calls more : List (Call K)) (store : SpeakerSessionStore K) :
    run (calls ++ more) store = run more (run calls store) := List.foldl_append

end SpeakerSessionStore
end CueBee.Speaker
