import CueBee.Transcript.TranscriptProgress

/-! # The tokens of a session are those of its text

A tokenizer that encodes a text piece by piece gives a session the tokens of its joined
text, whatever finals and partials it took them from. Byte tokens are of this kind.
-/
namespace CueBee.PyStr

theorem utf8_append (s t : PyStr) : utf8 (s ++ t) = (do
    let bytes ← utf8 s
    let more ← utf8 t
    return bytes ++ more) := by
  induction s with
  | nil => simp [utf8]
  | cons c rest ih =>
    rw [List.cons_append,utf8,ih,utf8]
    cases utf8CodePoint c with
    | none => rfl
    | some bytes =>
      cases utf8 rest with
      | none => rfl
      | some more =>
        cases utf8 t with
        | none => rfl
        | some last => simp

theorem utf8_present {s : PyStr} {bytes : List ℕ} (h : utf8 s = some bytes) (hs : s ≠ []) :
    bytes ≠ [] := by
  cases s with
  | nil => exact absurd rfl hs
  | cons c rest =>
    rw [utf8] at h
    obtain ⟨first,hfirst,h⟩ := Option.bind_eq_some_iff.mp h
    obtain ⟨more,-,h⟩ := Option.bind_eq_some_iff.mp h
    cases h
    intro hnil
    rw [(List.append_eq_nil_iff.mp hnil).1] at hfirst
    exact utf8CodePoint_ne_nil c hfirst

theorem join_cons_cons (sep first second : PyStr) (rest : List PyStr) :
    join sep (first :: second :: rest) = first ++ sep ++ join sep (second :: rest) := rfl

theorem join_concat (sep : PyStr) (texts : List PyStr) (text : PyStr) :
    join sep (texts ++ [text]) = join sep texts ++ (if texts ≠ [] then sep else []) ++ text := by
  induction texts with
  | nil => rfl
  | cons first rest ih =>
    cases rest with
    | nil => simp [join]
    | cons second rest =>
      rw [List.cons_append,List.cons_append,join_cons_cons,← List.cons_append,ih,join_cons_cons]
      simp

end CueBee.PyStr

namespace CueBee.Transcript
open Cache Raising PyStr

/-- The whole is encoded as its pieces are. -/
structure Tokenizer.Concatenates (tok : Tokenizer) : Prop where
  nil : tok.encode [] = some []
  append : ∀ s t, tok.encode (s ++ t) = (do
    let tokens ← tok.encode s
    let more ← tok.encode t
    return tokens ++ more)

/-- No text is lost in its tokens. -/
structure Tokenizer.Piecewise (tok : Tokenizer) : Prop where
  nil : tok.encode [] = some []
  append : ∀ s t, tok.encode (s ++ t) = (do
    let tokens ← tok.encode s
    let more ← tok.encode t
    return tokens ++ more)
  present : ∀ {text tokens}, tok.encode text = some tokens → text ≠ [] → tokens ≠ []

theorem Tokenizer.Piecewise.concatenates {tok : Tokenizer} (h : tok.Piecewise) :
    tok.Concatenates := ⟨h.nil,h.append⟩

theorem Tokenizer.Concatenates.concat {tok : Tokenizer} (h : tok.Concatenates) {s t : PyStr}
    {tokens more : List Token} (hs : tok.encode s = some tokens) (ht : tok.encode t = some more) :
    tok.encode (s ++ t) = some (tokens ++ more) := by
  rw [h.append,hs,ht]
  rfl

theorem utf8Tokenizer_piecewise : utf8Tokenizer.Piecewise where
  nil := rfl
  append s t := by
    simp only [utf8Tokenizer,utf8_append]
    cases utf8 s with
    | none => rfl
    | some bytes =>
      cases utf8 t with
      | none => rfl
      | some more => simp
  present := by
    intro text tokens h htext
    obtain ⟨bytes,hbytes,rfl⟩ := Option.map_eq_some_iff.mp h
    intro hnil
    exact utf8_present hbytes htext (List.eq_nil_iff_forall_not_mem.mpr (by simpa using hnil))

namespace ConversationSession

/-- The tentative text as it stands behind the committed text. -/
def tentativePart (s : ConversationSession) : PyStr :=
  if s.tentativeText ≠ [] then (if s.committedText ≠ [] then lit " " else []) ++ s.tentativeText
  else []

structure TextTokens (tok : Tokenizer) (s : ConversationSession) : Prop where
  present : ∀ text ∈ s.committedText, text ≠ []
  committed : tok.encode (join (lit " ") s.committedText) = some s.committedTokens
  tentative : tok.encode s.tentativePart = some s.tentativeTokens

variable {tok : Tokenizer} {s after : ConversationSession} {event : STTEvent}

theorem TextTokens.congr (h : s.TextTokens tok) (hsame : SameTranscript s after) :
    after.TextTokens tok := by
  refine ⟨?_,?_,?_⟩
  · rw [hsame.committedText]
    exact h.present
  · rw [hsame.committedText,hsame.committedTokens]
    exact h.committed
  · rw [tentativePart,hsame.tentativeText,hsame.committedText,hsame.tentativeTokens]
    exact h.tentative

theorem textTokens_fresh (htok : tok.Concatenates) (sessionId : SessionId) :
    (fresh sessionId).TextTokens tok :=
  ⟨fun _ hmem => absurd hmem List.not_mem_nil,htok.nil,htok.nil⟩

/-- The committed text alone, and followed by the tentative text. -/
theorem TextTokens.encode_transcriptText (htok : tok.Concatenates) (h : s.TextTokens tok)
    (includeTentative : Bool) : tok.encode (s.transcriptText includeTentative) =
      some (if includeTentative = true then s.allTokens else s.committedTokens) := by
  have hfilter : s.committedText.filter (· ≠ []) = s.committedText :=
    List.filter_eq_self.mpr (fun text hmem => by simpa using h.present text hmem)
  rw [transcriptText,hfilter]
  cases includeTentative with
  | false => simpa using h.committed
  | true =>
    have htentative := h.tentative
    unfold tentativePart at htentative
    by_cases htext : s.tentativeText = []
    · rw [if_neg (by simp [htext]),htok.nil,Option.some.injEq] at htentative
      rw [if_neg (by simp [htext]),if_pos rfl,List.append_nil,h.committed,allTokens,← htentative,
        List.append_nil]
    · rw [if_pos htext] at htentative
      rw [if_pos ⟨rfl,htext⟩,if_pos rfl,join_concat,List.append_assoc]
      exact htok.concat h.committed htentative

/-- A transcript event whose new tail is encoded. -/
theorem TextTokens.revise (htok : tok.Concatenates) (h : s.TextTokens tok) {newTail : List Token}
    (htext : event.text ≠ []) (hencode : tok.encode (s.tailText event) = some newTail) :
    (s.revise event newTail).TextTokens tok := by
  unfold ConversationSession.revise
  split
  · refine ⟨fun text hmem => ?_,?_,htok.nil⟩
    · rcases List.mem_append.mp hmem with hold | hnew
      · exact h.present text hold
      · rw [List.mem_singleton.mp hnew]
        exact htext
    · show tok.encode (join (lit " ") (s.committedText ++ [event.text])) = _
      rw [join_concat,List.append_assoc]
      exact htok.concat h.committed hencode
  · refine ⟨h.present,h.committed,?_⟩
    simp only [tentativePart,if_pos htext]
    exact hencode

end ConversationSession

namespace SessionManager
open ConversationSession
variable {tok : Tokenizer} {m next : SessionManager} {event : STTEvent}

/-- Every session has the tokens of its text. -/
def Encoded (tok : Tokenizer) (m : SessionManager) : Prop :=
  ∀ s session, m.sessions.get? s = some session → session.TextTokens tok

theorem Encoded.current (htok : tok.Concatenates) (h : m.Encoded tok) (s : SessionId) :
    (m.current s).TextTokens tok := by
  unfold SessionManager.current
  cases hget : m.sessions.get? s with
  | none => exact textTokens_fresh htok s
  | some session => exact h s session hget

theorem Installed.encoded {s : SessionId} {session : ConversationSession}
    (hinst : Installed m next s session) (h : m.Encoded tok) (hsession : session.TextTokens tok) :
    next.Encoded tok := by
  intro t after ht
  rw [hinst.sessions] at ht
  by_cases hts : t = s
  · rw [if_pos hts,Option.some.injEq] at ht
    exact ht ▸ hsession
  · rw [if_neg hts] at ht
    exact h t after ht

theorem Accepted.textTokens {session : ConversationSession} {diff : TranscriptDiff}
    (hacc : Accepted tok event m session diff) (htok : tok.Concatenates)
    (h : (m.raised event).TextTokens tok) : session.TextTokens tok := by
  cases hacc with
  | metadata session hkind hversion hsame => exact h.congr hsame
  | transcript newTail hkind hopen hencode =>
    have hnot := not_or.mp hkind
    exact h.revise htok (event.text_present hnot.1 hnot.2) hencode

theorem encoded_apply (htok : tok.Concatenates) (event : STTEvent) :
    Keeps (Encoded tok) (apply tok event) := by
  refine keeps_iff.mpr (fun m h => ?_)
  have hcurrent := h.current htok event.sessionId
  have hraised : (m.raised event).TextTokens tok := hcurrent.congr ⟨rfl,rfl,rfl,rfl⟩
  cases hx : apply tok event m with
  | ok diff next =>
    obtain ⟨-,session,hacc,hinst⟩ := apply_ok hx
    exact Ensures.of_ok hx (hinst.encoded h (hacc.textTokens htok hraised))
  | error e next =>
    rcases apply_error hx with hinst | hinst
    · exact Ensures.of_error hx (hinst.encoded h hcurrent)
    · exact Ensures.of_error hx (hinst.encoded h hraised)

end SessionManager
end CueBee.Transcript
