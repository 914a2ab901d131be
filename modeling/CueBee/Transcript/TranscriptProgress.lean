import CueBee.Transcript.SessionManager

/-! # What one event does to the sessions

`Progress` is the relation between the session tables before and after any number of
`apply` calls, returning or raising: versions grow, the committed spine grows, and a
transcript that keeps its version is the same transcript.
-/
namespace CueBee.Transcript
open Cache Raising ConversationSession

/-- How one session moves. -/
structure ConversationSession.Advances (a b : ConversationSession) : Prop where
  version : a.version ≤ b.version
  committed : a.committedTokens <+: b.committedTokens
  same : a.version = b.version → SameTranscript a b

theorem ConversationSession.Advances.refl (a : ConversationSession) : Advances a a :=
  ⟨le_rfl,List.prefix_rfl,fun _ => .refl a⟩

theorem ConversationSession.Advances.trans {a b c : ConversationSession} (h : Advances a b)
    (h' : Advances b c) : Advances a c where
  version := h.version.trans h'.version
  committed := h.committed.trans h'.committed
  same he := by
    have hab := h.version
    have hbc := h'.version
    exact (h.same (by omega)).trans (h'.same (by omega))

theorem ConversationSession.Advances.frontier {a b : ConversationSession} (h : Advances a b) :
    a.commitFrontier ≤ b.commitFrontier := h.committed.length_le

namespace SessionManager
variable {m next : SessionManager} {tok : Tokenizer} {event : STTEvent} {s : SessionId}

def Progress (m next : SessionManager) : Prop :=
  ∀ s before, m.sessions.get? s = some before →
    ∃ after, next.sessions.get? s = some after ∧ Advances before after

theorem Progress.refl (m : SessionManager) : Progress m m :=
  fun _ before h => ⟨before,h,.refl before⟩

theorem Progress.trans {k : SessionManager} (h : Progress m next) (h' : Progress next k) :
    Progress m k := by
  intro s before hb
  obtain ⟨mid,hm,hbm⟩ := h s before hb
  obtain ⟨after,ha,hma⟩ := h' s mid hm
  exact ⟨after,ha,hbm.trans hma⟩

/-- Only session `s` has changed, and it is `after` now. -/
structure Installed (m next : SessionManager) (s : SessionId) (after : ConversationSession) :
    Prop where
  guardTokens : next.guardTokens = m.guardTokens
  sessions : ∀ t, next.sessions.get? t = if t = s then some after else m.sessions.get? t

theorem Installed.self {after : ConversationSession} (h : Installed m next s after) :
    next.sessions.get? s = some after := by
  rw [h.sessions,if_pos rfl]

theorem Installed.current_ne {after : ConversationSession} (h : Installed m next s after)
    {t : SessionId} (ht : t ≠ s) : next.current t = m.current t := by
  rw [current,h.sessions,if_neg ht,current]

theorem Installed.current_self {after : ConversationSession} (h : Installed m next s after) :
    next.current s = after := by
  rw [current,h.self,Option.getD_some]

theorem current_of_some {session : ConversationSession} (h : m.sessions.get? s = some session) :
    m.current s = session := by
  rw [current,h,Option.getD_some]

theorem Installed.progress {after : ConversationSession} (h : Installed m next s after)
    (ha : Advances (m.current s) after) : Progress m next := by
  intro t before hb
  by_cases ht : t = s
  · subst ht
    rw [current_of_some hb] at ha
    exact ⟨after,h.self,ha⟩
  · exact ⟨before,by rw [h.sessions,if_neg ht,hb],.refl before⟩

theorem Installed.advances {after : ConversationSession} (h : Installed m next s after)
    (ha : Advances (m.current s) after) (t : SessionId) : Advances (m.current t) (next.current t) := by
  by_cases ht : t = s
  · rw [ht,h.current_self]
    exact ha
  · rw [h.current_ne ht]
    exact .refl _

theorem installed_store (m : SessionManager) (session : ConversationSession) (s : SessionId) :
    Installed m (m.store session s) s session :=
  ⟨rfl,fun t => Dict.get?_set m.sessions s t session⟩

theorem Installed.store {before : ConversationSession} (h : Installed m next s before)
    (after : ConversationSession) : Installed m (next.store after s) s after where
  guardTokens := h.guardTokens
  sessions t := by
    rw [(installed_store next after s).sessions,h.sessions]
    by_cases ht : t = s <;> simp [ht]

/-- The session of the event with its version raised. -/
def raised (m : SessionManager) (event : STTEvent) : ConversationSession :=
  { m.current event.sessionId with version := (m.current event.sessionId).version + 1 }

def isMetadata (type : EventType) : Prop := type = .speakerRelabel ∨ type = .sessionClose

instance (type : EventType) : Decidable (isMetadata type) := instDecidableOr

/-- What an accepted event did to its session, and the diff it returned. -/
inductive Accepted (tok : Tokenizer) (event : STTEvent) (m : SessionManager) :
    ConversationSession → TranscriptDiff → Prop
  | metadata (after : ConversationSession) (hkind : isMetadata event.type)
      (hversion : after.version = (m.raised event).version)
      (hsame : SameTranscript (m.raised event) after) :
      Accepted tok event m after
        (after.metadataDiff event (m.current event.sessionId).version)
  | transcript (newTail : List Token) (hkind : ¬isMetadata event.type)
      (hopen : (m.current event.sessionId).activeSegmentId = none ∨
        (m.current event.sessionId).activeSegmentId = some event.segmentId)
      (hencode : tok.encode ((m.raised event).tailText event) = some newTail) :
      Accepted tok event m ((m.raised event).revise event newTail)
        ((m.raised event).transcriptDiff m.guardTokens event newTail
          (m.current event.sessionId).version)

theorem getOrCreate_eq (event : STTEvent) (m : SessionManager) :
    getOrCreate event.sessionId m = .ok (m.current event.sessionId)
      { m with sessions := m.sessions.setDefault event.sessionId (.fresh event.sessionId) } := by
  simp only [getOrCreate,if_neg event.sessionId_ne]

theorem installed_created (m : SessionManager) (s : SessionId) :
    Installed m { m with sessions := m.sessions.setDefault s (.fresh s) } s (m.current s) :=
  ⟨rfl,fun t => Dict.get?_setDefault m.sessions s t _⟩

/-- The run of `apply` up to `applyOpen`. -/
theorem apply_open (tok : Tokenizer) (hopen : (m.current event.sessionId).closed = false) :
    ∃ mid, Installed m mid event.sessionId (m.raised event) ∧
      apply tok event m =
        applyOpen tok event (m.raised event) (m.current event.sessionId).version mid := by
  have hnot : ¬(m.current event.sessionId).closed = true := by simp [hopen]
  refine ⟨_,(installed_created m event.sessionId).store (m.raised event),?_⟩
  simp only [apply,bind_ok (getOrCreate_eq event m),if_neg hnot]
  rfl

theorem apply_closed (tok : Tokenizer) (hclosed : (m.current event.sessionId).closed = true) :
    apply tok event m = .error (.closed event.sessionId)
      { m with sessions := m.sessions.setDefault event.sessionId (.fresh event.sessionId) } := by
  simp only [apply,bind_ok (getOrCreate_eq event m),if_pos hclosed]
  rfl

/-- `applyOpen` either installs the new session or raises and installs nothing. -/
theorem applyOpen_cases {mid : SessionManager}
    (hmid : Installed m mid event.sessionId (m.raised event)) :
    Ensures (applyOpen tok event (m.raised event) (m.current event.sessionId).version) mid
      (fun diff next => ∃ after, Accepted tok event m after diff ∧
        Installed m next event.sessionId after)
      (fun _ next => next = mid) := by
  cases hk : event.type with
  | speakerRelabel =>
    have hmeta : isMetadata event.type := Or.inl hk
    simp only [applyOpen,hk]
    split
    · exact Ensures.of_error (throw_apply _ mid) rfl
    · refine Ensures.of_ok rfl ⟨_,.metadata _ hmeta rfl ⟨rfl,rfl,rfl,rfl⟩,hmid.store _⟩
  | sessionClose =>
    have hmeta : isMetadata event.type := Or.inr hk
    simp only [applyOpen,hk]
    exact Ensures.of_ok rfl ⟨_,.metadata _ hmeta rfl ⟨rfl,rfl,rfl,rfl⟩,hmid.store _⟩
  | appendPartial | revisePartial | commitFinal =>
    have hmeta : ¬isMetadata event.type := by simp [isMetadata,hk]
    simp only [applyOpen,hk]
    split
    · exact Ensures.of_error (throw_apply _ mid) rfl
    · rename_i hactive
      have hfree : (m.current event.sessionId).activeSegmentId = none ∨
          (m.current event.sessionId).activeSegmentId = some event.segmentId := by
        by_contra hno
        exact hactive (not_or.mp hno)
      cases henc : tok.encode ((m.raised event).tailText event) with
      | none => exact Ensures.of_error (throw_apply _ mid) rfl
      | some newTail =>
        have hrun := Accepted.transcript newTail hmeta hfree henc
        rw [← hmid.guardTokens] at hrun
        exact Ensures.of_ok rfl ⟨_,hrun,hmid.store _⟩

/-- A transcript event whose segment may speak is accepted. -/
theorem apply_transcript {newTail : List Token} (hclosed : (m.current event.sessionId).closed = false)
    (hkind : ¬isMetadata event.type)
    (hfree : (m.current event.sessionId).activeSegmentId = none ∨
      (m.current event.sessionId).activeSegmentId = some event.segmentId)
    (hencode : tok.encode ((m.raised event).tailText event) = some newTail) :
    ∃ diff next, apply tok event m = .ok diff next ∧
      Installed m next event.sessionId ((m.raised event).revise event newTail) := by
  obtain ⟨mid,hmid,hrun⟩ := apply_open tok hclosed
  have hactive : ¬((m.raised event).activeSegmentId ≠ none ∧
      (m.raised event).activeSegmentId ≠ some event.segmentId) := by
    rintro ⟨hne,hother⟩
    exact hfree.elim hne hother
  cases hk : event.type with
  | speakerRelabel => exact absurd (Or.inl hk) hkind
  | sessionClose => exact absurd (Or.inr hk) hkind
  | appendPartial | revisePartial | commitFinal =>
    refine ⟨(m.raised event).transcriptDiff mid.guardTokens event newTail
      (m.current event.sessionId).version,_,hrun.trans ?_,hmid.store _⟩
    simp only [applyOpen,hk,if_neg hactive,hencode]
    rfl

theorem apply_ok {diff : TranscriptDiff} (h : apply tok event m = .ok diff next) :
    (m.current event.sessionId).closed = false ∧
    ∃ after, Accepted tok event m after diff ∧ Installed m next event.sessionId after := by
  cases hclosed : (m.current event.sessionId).closed with
  | true =>
    rw [apply_closed tok hclosed] at h
    cases h
  | false =>
    obtain ⟨mid,hmid,hrun⟩ := apply_open tok hclosed
    rw [hrun] at h
    exact ⟨rfl,(applyOpen_cases hmid).ok h⟩

/-- A rejected event leaves the transcript; only the version may have been raised. -/
theorem apply_error {e : SessionError} (h : apply tok event m = .error e next) :
    Installed m next event.sessionId (m.current event.sessionId) ∨
    Installed m next event.sessionId (m.raised event) := by
  cases hclosed : (m.current event.sessionId).closed with
  | true =>
    rw [apply_closed tok hclosed] at h
    cases h
    exact Or.inl (installed_created m event.sessionId)
  | false =>
    obtain ⟨mid,hmid,hrun⟩ := apply_open tok hclosed
    rw [hrun] at h
    have hnext := (applyOpen_cases hmid).error h
    exact Or.inr (hnext ▸ hmid)

theorem advances_raised (m : SessionManager) (event : STTEvent) :
    Advances (m.current event.sessionId) (m.raised event) where
  version := Nat.le_succ _
  committed := List.prefix_rfl
  same _ := ⟨rfl,rfl,rfl,rfl⟩

namespace Accepted
variable {after : ConversationSession} {diff : TranscriptDiff}

theorem version_eq (h : Accepted tok event m after diff) :
    after.version = (m.current event.sessionId).version + 1 ∧ diff.newVersion = after.version := by
  cases h with
  | metadata after hkind hversion hsame => exact ⟨hversion,rfl⟩
  | transcript newTail hkind hopen hencode =>
    refine ⟨?_,?_⟩ <;> simp only [revise] <;> split <;> rfl

theorem committed_prefix (h : Accepted tok event m after diff) :
    (m.current event.sessionId).committedTokens <+: after.committedTokens := by
  cases h with
  | metadata after hkind hversion hsame =>
    rw [hsame.committedTokens]
    exact List.prefix_rfl
  | transcript newTail hkind hopen hencode =>
    simp only [revise]
    split
    · exact List.prefix_append _ _
    · exact List.prefix_rfl

theorem advances (h : Accepted tok event m after diff) :
    Advances (m.current event.sessionId) after where
  version := by
    rw [h.version_eq.1]
    exact Nat.le_succ _
  committed := h.committed_prefix
  same he := by
    rw [h.version_eq.1] at he
    omega

/-- The changed range begins at or behind the old commit frontier. -/
theorem frontier_le (h : Accepted tok event m after diff) :
    (m.current event.sessionId).commitFrontier ≤ diff.changedRange.start := by
  cases h with
  | metadata after hkind hversion hsame =>
    have hc : after.committedTokens = (m.current event.sessionId).committedTokens :=
      hsame.committedTokens
    show _ ≤ after.totalTokens
    rw [totalTokens,commitFrontier,commitFrontier,hc]
    exact Nat.le_add_right _ _
  | transcript newTail hkind hopen hencode => exact Nat.le_add_right _ _

end Accepted

theorem apply_progress (tok : Tokenizer) (event : STTEvent) (m : SessionManager) :
    Progress m (after (apply tok event) m) := by
  cases hx : apply tok event m with
  | ok diff next =>
    rw [after_ok hx]
    obtain ⟨-,session,hacc,hinst⟩ := apply_ok hx
    exact hinst.progress hacc.advances
  | error e next =>
    rw [after_error hx]
    rcases apply_error hx with hinst | hinst
    · exact hinst.progress (.refl _)
    · exact hinst.progress (advances_raised m event)

end SessionManager
end CueBee.Transcript
