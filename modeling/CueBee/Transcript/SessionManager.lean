import CueBee.Support.RaisingCalls
import CueBee.Transcript.EventSchema

/-! # Versioned conversation state

A session is a committed spine and a revisable tail. `apply` raises the version of an
open session first and checks the event afterwards.
-/
namespace CueBee.Transcript
open Cache Raising PyStr

structure ConversationSession where
  sessionId : SessionId
  version : ℕ
  committedTokens : List Token
  tentativeTokens : List Token
  committedText : List PyStr
  tentativeText : PyStr
  activeSegmentId : Option SegmentId
  speakerNames : Dict PyStr PyStr
  closed : Bool
deriving DecidableEq

/-- The exceptions that leave `SessionManager`. -/
inductive SessionError
  | emptySessionId
  | unknownSession (sessionId : SessionId)
  | closed (sessionId : SessionId)
  | relabelText
  | segmentTentative (active : Option SegmentId) (segmentId : SegmentId)
  | encode
deriving DecidableEq

namespace ConversationSession

def fresh (sessionId : SessionId) : ConversationSession :=
  ⟨sessionId,0,[],[],[],[],none,Dict.empty,false⟩

def commitFrontier (s : ConversationSession) : ℕ := s.committedTokens.length

def totalTokens (s : ConversationSession) : ℕ := s.commitFrontier + s.tentativeTokens.length

def allTokens (s : ConversationSession) : List Token := s.committedTokens ++ s.tentativeTokens

def transcriptText (s : ConversationSession) (includeTentative : Bool) : PyStr :=
  join (lit " ") (s.committedText.filter (· ≠ []) ++
    if includeTentative = true ∧ s.tentativeText ≠ [] then [s.tentativeText] else [])

/-- The same transcript: texts and tokens, committed and tentative. -/
structure SameTranscript (a b : ConversationSession) : Prop where
  committedTokens : b.committedTokens = a.committedTokens
  tentativeTokens : b.tentativeTokens = a.tentativeTokens
  committedText : b.committedText = a.committedText
  tentativeText : b.tentativeText = a.tentativeText

theorem SameTranscript.refl (a : ConversationSession) : SameTranscript a a := ⟨rfl,rfl,rfl,rfl⟩

theorem SameTranscript.trans {a b c : ConversationSession} (h : SameTranscript a b)
    (h' : SameTranscript b c) : SameTranscript a c :=
  ⟨h'.1.trans h.1,h'.2.trans h.2,h'.3.trans h.3,h'.4.trans h.4⟩

theorem length_allTokens (s : ConversationSession) : s.allTokens.length = s.totalTokens := by
  simp [allTokens,totalTokens,commitFrontier]

/-- Tokens that a revision keeps: an append loses none, otherwise the guard applies. -/
def commonPrefix (guard : ℕ) (oldTail newTail : List Token) : ℕ :=
  tokenLcp oldTail newTail
    (if oldTail.length ≤ newTail.length ∧ newTail.take oldTail.length = oldTail then 0 else guard)

/-- The text that is tokenized for the tail. -/
def tailText (s : ConversationSession) (event : STTEvent) : PyStr :=
  (if s.committedText ≠ [] then lit " " else []) ++ event.text

/-- The session after the transcript event with the given new tail. -/
def revise (event : STTEvent) (newTail : List Token) (s : ConversationSession) :
    ConversationSession :=
  if event.type = .commitFinal then
    { s with
      committedTokens := s.committedTokens ++ newTail
      committedText := s.committedText ++ [event.text]
      tentativeTokens := []
      tentativeText := []
      activeSegmentId := none }
  else
    { s with
      tentativeTokens := newTail
      tentativeText := event.text
      activeSegmentId := some event.segmentId }

def changedStart (guard : ℕ) (newTail : List Token) (s : ConversationSession) : ℕ :=
  s.commitFrontier + commonPrefix guard s.tentativeTokens newTail

def changedEnd (guard : ℕ) (newTail : List Token) (s : ConversationSession) : ℕ :=
  let stop := s.commitFrontier + max s.tentativeTokens.length newTail.length
  if stop = s.changedStart guard newTail then
    stop + (newTail.length - commonPrefix guard s.tentativeTokens newTail)
  else stop

/-- The diff of a transcript event; `s` is the session before it, its version raised. -/
def transcriptDiff (guard : ℕ) (event : STTEvent) (newTail : List Token)
    (s : ConversationSession) (oldVersion : ℕ) : TranscriptDiff where
  sessionId := s.sessionId
  segmentId := event.segmentId
  oldVersion := oldVersion
  newVersion := s.version
  changedRange := ⟨s.changedStart guard newTail,
    max (s.changedStart guard newTail) (s.changedEnd guard newTail),le_max_left _ _⟩
  oldTailTokens := s.tentativeTokens
  newTailTokens := newTail
  commonPrefixTokens := commonPrefix guard s.tentativeTokens newTail
  rollbackTokens := s.tentativeTokens.length - commonPrefix guard s.tentativeTokens newTail
  appendedTokens := newTail.drop (commonPrefix guard s.tentativeTokens newTail)
  committed := event.type = .commitFinal

/-- `_metadata_diff`. -/
def metadataDiff (event : STTEvent) (s : ConversationSession) (oldVersion : ℕ) :
    TranscriptDiff where
  sessionId := s.sessionId
  segmentId := event.segmentId
  oldVersion := oldVersion
  newVersion := s.version
  changedRange := ⟨s.totalTokens,s.totalTokens,le_rfl⟩
  oldTailTokens := s.tentativeTokens
  newTailTokens := s.tentativeTokens
  commonPrefixTokens := s.tentativeTokens.length
  rollbackTokens := 0
  appendedTokens := []
  committed := false

end ConversationSession

structure SessionManager where
  guardTokens : ℕ
  sessions : Dict SessionId ConversationSession

namespace SessionManager
open ConversationSession

def init (guardTokens : ℕ) : SessionManager := ⟨guardTokens,Dict.empty⟩

/-- The session as `get_or_create` returns it. -/
def current (m : SessionManager) (sessionId : SessionId) : ConversationSession :=
  (m.sessions.get? sessionId).getD (.fresh sessionId)

def store (session : ConversationSession) (sessionId : SessionId) (m : SessionManager) :
    SessionManager :=
  { m with sessions := m.sessions.set sessionId session }

def getOrCreate (sessionId : SessionId) : EStateM SessionError SessionManager ConversationSession :=
  fun m =>
    if sessionId = [] then .error .emptySessionId m
    else .ok (m.current sessionId)
      { m with sessions := m.sessions.setDefault sessionId (.fresh sessionId) }

protected def get (sessionId : SessionId) : EStateM SessionError SessionManager ConversationSession :=
  fun m =>
    match m.sessions.get? sessionId with
    | some session => .ok session m
    | none => .error (.unknownSession sessionId) m

/-- The three ways to change an open session whose version has been raised. -/
def applyOpen (tok : Tokenizer) (event : STTEvent) (session : ConversationSession)
    (oldVersion : ℕ) : EStateM SessionError SessionManager TranscriptDiff := do
  match event.type with
  | .speakerRelabel => do
    let (speakerId,separator,displayName) := partition 0x3d event.text
    if separator = [] ∨ speakerId = [] ∨ displayName = [] then throw .relabelText
    else do
      let session := { session with
        speakerNames := session.speakerNames.set speakerId displayName }
      modify (store session event.sessionId)
      return metadataDiff event session oldVersion
  | .sessionClose => do
    let session := { session with closed := true }
    modify (store session event.sessionId)
    return metadataDiff event session oldVersion
  | .appendPartial | .revisePartial | .commitFinal =>
    if session.activeSegmentId ≠ none ∧ session.activeSegmentId ≠ some event.segmentId then
      throw (.segmentTentative session.activeSegmentId event.segmentId)
    else
      match tok.encode (session.tailText event) with
      | none => throw .encode
      | some newTail => do
        let m ← get
        modify (store (session.revise event newTail) event.sessionId)
        return session.transcriptDiff m.guardTokens event newTail oldVersion

def apply (tok : Tokenizer) (event : STTEvent) :
    EStateM SessionError SessionManager TranscriptDiff := do
  let session ← getOrCreate event.sessionId
  if session.closed = true then throw (.closed event.sessionId)
  else do
    let raised := { session with version := session.version + 1 }
    modify (store raised event.sessionId)
    applyOpen tok event raised session.version

end SessionManager
end CueBee.Transcript
