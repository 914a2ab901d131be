import CueBee.Support.FloatOps
import CueBee.Cache.VersionedKVManager

/-! # Event contracts

An `STTEvent` carries the checks of its constructor as fields, so that an event that
`__post_init__` refuses cannot be built.
-/
namespace CueBee.Transcript
open Cache PyStr

inductive EventType
  | appendPartial
  | revisePartial
  | commitFinal
  | speakerRelabel
  | sessionClose
deriving DecidableEq

abbrev SegmentId := PyStr

structure TokenRange where
  start : ℕ
  stop : ℕ
  ordered : start ≤ stop
deriving DecidableEq

namespace TokenRange

def intersects (r s : TokenRange) : Bool := r.start < s.stop && s.start < r.stop

def length (r : TokenRange) : ℕ := r.stop - r.start

end TokenRange

structure STTEvent where
  sessionId : SessionId
  segmentId : SegmentId
  revision : ℕ
  type : EventType
  text : PyStr
  startMs : ℕ
  endMs : ℕ
  confidence : Option PyFloat
  clientEpoch : ℕ
  seqNo : ℕ
  session_named : strip sessionId ≠ []
  segment_named : strip segmentId ≠ []
  timed : startMs ≤ endMs
  confidence_bounded : ∀ c ∈ confidence, (PyFloat.fin 0).le c = true ∧ c.le (.fin 1) = true
  text_present : type ≠ .speakerRelabel → type ≠ .sessionClose → text ≠ []
deriving DecidableEq

theorem STTEvent.sessionId_ne (event : STTEvent) : event.sessionId ≠ [] := by
  intro h
  exact event.session_named (by rw [h]; rfl)

/-- An event of session "s" with the given text. -/
def heard (segment : String) (revision : ℕ) (type : EventType) (text : String)
    (hsegment : strip (lit segment) ≠ []) (htext : lit text ≠ []) : STTEvent where
  sessionId := lit "s"
  segmentId := lit segment
  revision := revision
  type := type
  text := lit text
  startMs := 0
  endMs := 0
  confidence := none
  clientEpoch := 0
  seqNo := 0
  session_named := by decide
  segment_named := hsegment
  timed := le_rfl
  confidence_bounded := by simp
  text_present _ _ := htext

structure TranscriptDiff where
  sessionId : SessionId
  segmentId : SegmentId
  oldVersion : ℕ
  newVersion : ℕ
  changedRange : TokenRange
  oldTailTokens : List Token
  newTailTokens : List Token
  commonPrefixTokens : ℕ
  rollbackTokens : ℕ
  appendedTokens : List Token
  committed : Bool
deriving DecidableEq

/-- An injected tokenizer; `none` is a call of `encode` that raises. -/
structure Tokenizer where
  encode : PyStr → Option (List Token)

def Tokenizer.Total (tok : Tokenizer) : Prop := ∀ text, tok.encode text ≠ none

/-- Byte tokens, shifted by one. -/
def utf8Tokenizer : Tokenizer where
  encode text := (utf8 text).map (fun bytes => bytes.map (fun byte => (byte : ℤ) + 1))

/-- The number of leading tokens that agree. -/
def lcpLength : List Token → List Token → ℕ
  | x :: xs, y :: ys => if x = y then lcpLength xs ys + 1 else 0
  | _, _ => 0

/-- A conservative longest common prefix. -/
def tokenLcp (old new : List Token) (guardTokens : ℕ) : ℕ :=
  if old ≠ new ∧ guardTokens ≠ 0 then lcpLength old new - guardTokens else lcpLength old new

theorem take_lcpLength (old new : List Token) :
    new.take (lcpLength old new) = old.take (lcpLength old new) := by
  induction old, new using lcpLength.induct with
  | case1 x xs ys ih => simpa [lcpLength] using ih
  | case2 x xs y ys hne => simp [lcpLength,hne]
  | case3 old new h => simp [lcpLength]

theorem tokenLcp_le_lcpLength (old new : List Token) (guardTokens : ℕ) :
    tokenLcp old new guardTokens ≤ lcpLength old new := by
  unfold tokenLcp
  split <;> omega

theorem take_tokenLcp (old new : List Token) (guardTokens : ℕ) :
    new.take (tokenLcp old new guardTokens) = old.take (tokenLcp old new guardTokens) := by
  have h := congrArg (List.take (tokenLcp old new guardTokens)) (take_lcpLength old new)
  rwa [List.take_take,List.take_take,
    Nat.min_eq_left (tokenLcp_le_lcpLength old new guardTokens)] at h

end CueBee.Transcript
