import CueBee.Transcript.SoloSession
import CueBee.Transcript.DeliveryOrder
import CueBee.Transcript.TextTokens

/-! # Text and tokens of a session agree

`TextTokens` speaks of the joined text. What is left is the active segment: it is set with
the tentative text and cleared with it, and no other event touches either.
-/
namespace CueBee.Transcript
open Cache Raising PyStr

namespace SessionManager
open ConversationSession
variable {tok : Tokenizer}

def EverySession (P : ConversationSession → Prop) (m : SessionManager) : Prop :=
  ∀ s session, m.sessions.get? s = some session → P session

theorem everySession_init (P : ConversationSession → Prop) (guardTokens : ℕ) :
    (init guardTokens).EverySession P := by
  intro s session hget
  cases hget

/-- A property of single sessions that every event keeps is kept by `apply`. -/
theorem keeps_every {P : ConversationSession → Prop} (hfresh : ∀ sessionId, P (.fresh sessionId))
    (hspeak : ∀ guard event session, P session → P (speak tok guard event session).2)
    (event : STTEvent) :
    Keeps (EverySession P) (apply tok event) := by
  intro m h s session hget
  have hcurrent : P (m.current event.sessionId) := by
    unfold SessionManager.current
    cases hold : m.sessions.get? event.sessionId with
    | none => exact hfresh event.sessionId
    | some old => exact h event.sessionId old hold
  rw [(apply_leaves tok event m).installed.sessions] at hget
  by_cases hs : s = event.sessionId
  · rw [if_pos hs,Option.some.injEq] at hget
    exact hget ▸ hspeak m.guardTokens event _ hcurrent
  · rw [if_neg hs] at hget
    exact h s session hget

end SessionManager

namespace ConversationSession

/-- A segment is active exactly while there is a tentative text. -/
structure ActiveTail (s : ConversationSession) : Prop where
  idle : s.activeSegmentId = none → s.tentativeText = [] ∧ s.tentativeTokens = []
  speaking : s.activeSegmentId ≠ none → s.tentativeText ≠ []

variable {tok : Tokenizer} {s : ConversationSession}

theorem activeTail_fresh (sessionId : SessionId) : (fresh sessionId).ActiveTail :=
  ⟨fun _ => ⟨rfl,rfl⟩,fun h => absurd rfl h⟩

theorem activeTail_revise (s : ConversationSession) {event : STTEvent} (newTail : List Token)
    (htext : event.text ≠ []) : (s.revise event newTail).ActiveTail := by
  unfold ConversationSession.revise
  split
  · exact ⟨fun _ => ⟨rfl,rfl⟩,fun hne => absurd rfl hne⟩
  · exact ⟨fun hnone => absurd hnone (by simp),fun _ => htext⟩

theorem ActiveTail.speakOpen (h : s.ActiveTail) (guard : ℕ) (event : STTEvent) (oldVersion : ℕ) :
    (speakOpen tok guard event s oldVersion).2.ActiveTail := by
  cases hk : event.type with
  | speakerRelabel =>
    simp only [ConversationSession.speakOpen,hk]
    split
    · exact h
    · exact ⟨h.idle,h.speaking⟩
  | sessionClose =>
    simp only [ConversationSession.speakOpen,hk]
    exact ⟨h.idle,h.speaking⟩
  | appendPartial | revisePartial | commitFinal =>
    have htext : event.text ≠ [] := event.text_present (by simp [hk]) (by simp [hk])
    simp only [ConversationSession.speakOpen,hk]
    split
    · exact h
    · cases tok.encode (s.tailText event) with
      | none => exact h
      | some newTail => exact activeTail_revise s newTail htext

theorem ActiveTail.speak (h : s.ActiveTail) (guard : ℕ) (event : STTEvent) :
    (speak tok guard event s).2.ActiveTail := by
  unfold ConversationSession.speak
  split
  · exact h
  · have hraised : ActiveTail { s with version := s.version + 1 } := ⟨h.idle,h.speaking⟩
    exact hraised.speakOpen guard event s.version

theorem ActiveTail.active_iff (h : s.ActiveTail) :
    s.activeSegmentId = none ↔ s.tentativeText = [] ∧ s.tentativeTokens = [] := by
  refine ⟨h.idle,fun htail => ?_⟩
  by_contra hactive
  exact h.speaking hactive htail.1

theorem ActiveTail.active_iff_text (h : s.ActiveTail) :
    s.activeSegmentId = none ↔ s.tentativeText = [] := by
  refine ⟨fun hnone => (h.idle hnone).1,fun htext => ?_⟩
  by_contra hactive
  exact h.speaking hactive htext

/-- No text is lost in its tokens, so that a tail without tokens is no tail. -/
theorem ActiveTail.active_iff_tokens (h : s.ActiveTail) (htext : s.TextTokens tok)
    (hpresent : ∀ text tokens, tok.encode text = some tokens → text ≠ [] → tokens ≠ []) :
    s.activeSegmentId = none ↔ s.tentativeTokens = [] := by
  refine ⟨fun hnone => (h.idle hnone).2,fun htokens => ?_⟩
  by_contra hactive
  have hpart : s.tentativePart ≠ [] := by
    rw [tentativePart,if_pos (h.speaking hactive)]
    exact fun hnil => h.speaking hactive (List.append_eq_nil_iff.mp hnil).2
  exact hpresent _ _ htext.tentative hpart htokens

end ConversationSession

namespace SessionManager
open ConversationSession

/-- Text and tokens of every session agree after any events, accepted or not. -/
theorem text_and_tokens_agree {tok : Tokenizer} (htok : tok.Concatenates) (guardTokens : ℕ)
    (events : List STTEvent) (s : SessionId) (session : ConversationSession)
    (hget : (runAll (apply tok) events (init guardTokens)).sessions.get? s = some session) :
    tok.encode (session.transcriptText false) = some session.committedTokens ∧
    tok.encode (session.transcriptText true) = some session.allTokens ∧
    (session.activeSegmentId = none ↔
      session.tentativeText = [] ∧ session.tentativeTokens = []) ∧
    ((∀ text tokens, tok.encode text = some tokens → text ≠ [] → tokens ≠ []) →
      (session.activeSegmentId = none ↔ session.tentativeText = []) ∧
      (session.activeSegmentId = none ↔ session.tentativeTokens = [])) := by
  have hencoded : (runAll (apply tok) events (init guardTokens)).Encoded tok :=
    runAll_keeps (encoded_apply htok) events (everySession_init _ guardTokens)
  have hactive : (runAll (apply tok) events (init guardTokens)).EverySession ActiveTail :=
    runAll_keeps (keeps_every activeTail_fresh (fun guard event _ h => h.speak guard event))
      events (everySession_init _ guardTokens)
  have htext := hencoded s session hget
  have htail := hactive s session hget
  refine ⟨?_,?_,htail.active_iff,fun hpresent => ⟨htail.active_iff_text,?_⟩⟩
  · simpa using htext.encode_transcriptText htok false
  · simpa using htext.encode_transcriptText htok true
  · exact htail.active_iff_tokens htext hpresent

/-- Bytes, with a partial of the second segment that comes too early and is rejected. -/
theorem text_and_tokens_agree_bytes :
    let events := [firstPartial,secondPartial,firstFinal,secondPartial]
    let m := runAll (apply utf8Tokenizer) events (init 1)
    let session := m.current (lit "s")
    utf8Tokenizer.encode (session.transcriptText true) = some session.allTokens ∧
    session.activeSegmentId ≠ none ∧ session.tentativeTokens ≠ [] := by
  intro events m session
  have hget : m.sessions.get? (lit "s") = some session := by decide +kernel
  obtain ⟨-,hall,-,hactive⟩ := text_and_tokens_agree utf8Tokenizer_piecewise.concatenates 1 events
    (lit "s") session hget
  have hiff := (hactive (fun _ _ => utf8Tokenizer_piecewise.present)).2
  have htokens : session.tentativeTokens ≠ [] := by decide +kernel
  exact ⟨hall,fun hnone => htokens (hiff.mp hnone),htokens⟩

end SessionManager
end CueBee.Transcript
