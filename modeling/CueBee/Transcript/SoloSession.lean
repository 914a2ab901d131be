import CueBee.Transcript.TranscriptProgress

/-! # One session alone

`speak` says what an event makes of its session, without the table of all sessions;
`apply_speaks` says that `apply` does just that and leaves every other session.
-/
namespace CueBee.Transcript
open Cache Raising PyStr

namespace ConversationSession

/-- The result of an event for its open session, whose version has been raised, and the
session after it. -/
def speakOpen (tok : Tokenizer) (guard : ℕ) (event : STTEvent) (session : ConversationSession)
    (oldVersion : ℕ) : Except SessionError TranscriptDiff × ConversationSession :=
  match event.type with
  | .speakerRelabel =>
    let (speakerId,separator,displayName) := partition 0x3d event.text
    if separator = [] ∨ speakerId = [] ∨ displayName = [] then (.error .relabelText,session)
    else
      let session := { session with speakerNames := session.speakerNames.set speakerId displayName }
      (.ok (metadataDiff event session oldVersion),session)
  | .sessionClose =>
    let session := { session with closed := true }
    (.ok (metadataDiff event session oldVersion),session)
  | .appendPartial | .revisePartial | .commitFinal =>
    if session.activeSegmentId ≠ none ∧ session.activeSegmentId ≠ some event.segmentId then
      (.error (.segmentTentative session.activeSegmentId event.segmentId),session)
    else
      match tok.encode (session.tailText event) with
      | none => (.error .encode,session)
      | some newTail =>
        (.ok (session.transcriptDiff guard event newTail oldVersion),session.revise event newTail)

def speak (tok : Tokenizer) (guard : ℕ) (event : STTEvent) (session : ConversationSession) :
    Except SessionError TranscriptDiff × ConversationSession :=
  if session.closed = true then (.error (.closed event.sessionId),session)
  else speakOpen tok guard event { session with version := session.version + 1 } session.version

end ConversationSession

namespace SessionManager
open ConversationSession
variable {m next : SessionManager} {tok : Tokenizer} {event : STTEvent}

/-- The call `x` in the state `s` has the given result and leaves the given session; the other
sessions are those of `m`. -/
structure Leaves (event : STTEvent) (m : SessionManager)
    (x : EStateM SessionError SessionManager TranscriptDiff) (s : SessionManager)
    (result : Except SessionError TranscriptDiff × ConversationSession) : Prop where
  outcome : outcome x s = result.1
  installed : Installed m (after x s) event.sessionId result.2

theorem Leaves.of_ok {x : EStateM SessionError SessionManager TranscriptDiff} {s : SessionManager}
    {diff : TranscriptDiff} {session : ConversationSession} (hx : x s = .ok diff next)
    (hinst : Installed m next event.sessionId session) : Leaves event m x s (.ok diff,session) :=
  ⟨outcome_ok hx,by rwa [after_ok hx]⟩

theorem Leaves.of_error {x : EStateM SessionError SessionManager TranscriptDiff} {s : SessionManager}
    {e : SessionError} {session : ConversationSession} (hx : x s = .error e next)
    (hinst : Installed m next event.sessionId session) : Leaves event m x s (.error e,session) :=
  ⟨outcome_error hx,by rwa [after_error hx]⟩

theorem applyOpen_leaves (tok : Tokenizer) {session : ConversationSession} (oldVersion : ℕ)
    (h : Installed m next event.sessionId session) :
    Leaves event m (applyOpen tok event session oldVersion) next
      (speakOpen tok next.guardTokens event session oldVersion) := by
  cases hk : event.type with
  | speakerRelabel =>
    simp only [applyOpen,speakOpen,hk]
    split
    · exact .of_error (throw_apply _ next) h
    · exact .of_ok rfl (h.store _)
  | sessionClose =>
    simp only [applyOpen,speakOpen,hk]
    exact .of_ok rfl (h.store _)
  | appendPartial | revisePartial | commitFinal =>
    simp only [applyOpen,speakOpen,hk]
    split
    · exact .of_error (throw_apply _ next) h
    · cases tok.encode (session.tailText event) with
      | none => exact .of_error (throw_apply _ next) h
      | some newTail => exact .of_ok rfl (h.store _)

theorem apply_leaves (tok : Tokenizer) (event : STTEvent) (m : SessionManager) :
    Leaves event m (apply tok event) m
      (speak tok m.guardTokens event (m.current event.sessionId)) := by
  cases hclosed : (m.current event.sessionId).closed with
  | true =>
    rw [speak,if_pos hclosed]
    exact .of_error (apply_closed tok hclosed) (installed_created m event.sessionId)
  | false =>
    obtain ⟨mid,hmid,hrun⟩ := apply_open tok hclosed
    have hleaves := applyOpen_leaves tok (m.current event.sessionId).version hmid
    rw [hmid.guardTokens] at hleaves
    rw [speak,if_neg (by simp [hclosed])]
    refine ⟨?_,?_⟩
    · rw [outcome,hrun]
      exact hleaves.outcome
    · rw [after,hrun]
      exact hleaves.installed

end SessionManager
end CueBee.Transcript
