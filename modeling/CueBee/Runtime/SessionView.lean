import CueBee.Runtime.CacheAgreement
import CueBee.Runtime.OrderlyRuns
import CueBee.Transcript.SoloSession

/-! # What a session shows of a runtime

A `SessionView` is one session as its own events see it: its cursors, its transcript and
how many of its tokens are resident. `handle` answers an event from the view alone; the
runtime answers in the same way, and nothing else that it does shows in the view.
-/
namespace CueBee.Runtime
open Cache Transcript Raising ConversationSession SessionManager VersionedKVManager PyStr

/-- The reply to an event, without the tasks of other callers. -/
structure EventReply where
  accepted : Bool
  duplicateOrStale : Bool
  diff : Option TranscriptDiff
  prefilledTokens : ℕ
  rollbackTokens : ℕ
deriving DecidableEq

def EventOutcome.reply (o : EventOutcome) : EventReply :=
  ⟨o.accepted,o.duplicateOrStale,o.diff,o.prefilledTokens,o.rollbackTokens⟩

structure SessionView where
  cursors : SegmentId → SegmentCursor
  session : Option ConversationSession
  resident : ℕ

namespace SessionView
open CueBeeRuntime (cacheCounts)
variable (tok : Tokenizer) (policy : TentativePrefillPolicy) (load : PyFloat)

def init : SessionView := ⟨fun _ => .fresh,none,0⟩

/-- The view after an event that the cursor let through, with the result of `speak`. -/
def answer (event : STTEvent) (v : SessionView) :
    Except SessionError TranscriptDiff × ConversationSession →
    Except RuntimeError EventReply × SessionView
  | (.error error,session) => (.error (.session error),⟨v.cursors,some session,v.resident⟩)
  | (.ok diff,session) =>
    let (prefilled,rolledBack) := cacheCounts policy load event diff session v.resident
    (.ok ⟨true,false,some diff,prefilled,rolledBack⟩,
      ⟨v.cursors,some session,v.resident + prefilled - rolledBack⟩)

def handle (event : STTEvent) (v : SessionView) : Except RuntimeError EventReply × SessionView :=
  let cursor := v.cursors event.segmentId
  if cursor.finalized = true ∨ (event.revision : ℤ) ≤ cursor.revision then
    (.ok ⟨false,true,none,0,0⟩,v)
  else
    let normalized := RevisionAdapter.relabel cursor event
    answer policy load normalized { v with
      cursors := Function.update v.cursors event.segmentId
        ⟨event.revision,event.type = .commitFinal⟩ }
      (speak tok 1 normalized (v.session.getD (.fresh event.sessionId)))

/-- The replies to a sequence of events, and the view after them. -/
def run : List STTEvent → SessionView → List (Except RuntimeError EventReply) × SessionView
  | [], v => ([],v)
  | event :: rest, v =>
    let (reply,v) := handle tok policy load event v
    let (replies,v) := run rest v
    (reply :: replies,v)

end SessionView

namespace CueBeeRuntime
variable {S : Type} {c : Services S} {r next : CueBeeRuntime S} {load : PyFloat} {s : SessionId}
  {v : SessionView} {event : STTEvent}

/-- `v` is the view of the session `s`, in a runtime with the given GPU load. -/
structure Shows (load : PyFloat) (s : SessionId) (v : SessionView) (r : CueBeeRuntime S) : Prop where
  load : r.gpuLoad = load
  guardTokens : r.sessions.guardTokens = 1
  cursors : ∀ g, r.revisions.cursor (s,g) = v.cursors g
  session : r.sessions.sessions.get? s = v.session
  resident : (r.kv.view.sessions s).length = v.resident

theorem shows_init (blockSize : ℕ) (hblock : 0 < blockSize) (admissionCap : ℕ)
    (hcap : 0 < admissionCap) (e : S) (load : PyFloat) (s : SessionId) :
    Shows load s .init { init blockSize hblock admissionCap hcap e with gpuLoad := load } :=
  ⟨rfl,rfl,fun _ => rfl,rfl,rfl⟩

theorem Shows.current (h : Shows load s v r) :
    r.sessions.current s = v.session.getD (.fresh s) := by
  rw [SessionManager.current,h.session]

/-- What a caller reads of the cache follows from the view. -/
theorem Shows.sessionTokens (h : Shows load s v r) (hinv : Inv r) :
    outcome (VersionedKVManager.sessionTokens s) r.kv =
      .ok ((v.session.getD (.fresh s)).allTokens.take v.resident) := by
  have hprefix : (r.kv.view.sessions s).map Prod.fst <+: (r.sessions.current s).allTokens :=
    (hinv.agrees s).prefix_allTokens
  have hread : outcome (VersionedKVManager.sessionTokens s) r.kv =
      .ok ((r.kv.view.sessions s).map Prod.fst) := outcome_sessionTokens hinv.sound s
  rw [hread,List.prefix_iff_eq_take.mp hprefix,List.length_map,h.resident,h.current]

/-- Whatever spares the tokens of all sessions does not show. -/
theorem frame_shows : Frame c (fun r => r.kv.Sound ∧ Shows load s v r) where
  scheduler r q h := ⟨h.1,h.2.load,h.2.guardTokens,h.2.cursors,h.2.session,h.2.resident⟩
  metrics r m h := ⟨h.1,h.2.load,h.2.guardTokens,h.2.cursors,h.2.session,h.2.resident⟩
  graph x hx := keeps_iff.mpr (fun r h => by
    have hread := keeps_iff.mp (hx (r.kv.view.sessions)) r.branches ⟨h.1,rfl⟩
    refine ensures_focus.mpr (hread.mono (fun _ g hg => ?_) (fun _ g hg => ?_))
    all_goals
      refine ⟨hg.1,h.2.load,h.2.guardTokens,h.2.cursors,h.2.session,?_⟩
      show (g.kv.view.sessions s).length = _
      rw [hg.2]
      exact h.2.resident)
  abort taskId := keeps_onEngine
    (fun r e h => ⟨h.1,h.2.load,h.2.guardTokens,h.2.cursors,h.2.session,h.2.resident⟩) _
  generate request := keeps_onEngine
    (fun r e h => ⟨h.1,h.2.load,h.2.guardTokens,h.2.cursors,h.2.session,h.2.resident⟩) _

/-- An event of another session does not show. -/
theorem shows_other (hengine : c.engine.NeverRaises) (hinv : Inv r) (h : Shows load s v r)
    (hother : event.sessionId ≠ s) : Shows load s v (after (handleEvent c event) r) := by
  have hcursors : ∀ {x : Option STTEvent} {a : RevisionAdapter},
      r.revisions.normalize event = (x,a) → ∀ g, a.cursor (s,g) = v.cursors g := by
    intro x a hnorm g
    have hkey : (s,g) ≠ (event.sessionId,event.segmentId) :=
      fun he => hother (congrArg Prod.fst he).symm
    have hmoved := RevisionAdapter.cursor_normalize_ne (a := r.revisions) hkey
    rw [hnorm] at hmoved
    exact hmoved.trans (h.cursors g)
  have hsid : ∀ {e : STTEvent} {a : RevisionAdapter},
      r.revisions.normalize event = (some e,a) → s ≠ e.sessionId := by
    rintro e a hnorm rfl
    obtain ⟨-,-,hrelabel,-⟩ := RevisionAdapter.normalize_some hnorm
    exact hother (by rw [hrelabel]; rfl)
  cases handled c event r with
  | dropped a hnorm hrun =>
    rw [after_ok hrun]
    exact ⟨h.load,h.guardTokens,hcursors hnorm,h.session,h.resident⟩
  | rejected e a error m hnorm happly hrun =>
    rw [after_error hrun]
    have hinst := (apply_leaves c.tokenizer e r.sessions).installed
    rw [after_error happly] at hinst
    refine ⟨h.load,hinst.guardTokens.trans h.guardTokens,hcursors hnorm,?_,h.resident⟩
    exact (hinst.sessions s).trans ((if_neg (hsid hnorm)).trans h.session)
  | accepted e a diff m hnorm happly hrun =>
    obtain ⟨-,session,hacc,hinst⟩ := apply_ok happly
    obtain ⟨o,next,hafter,-,hrevised,-,-,hreplies⟩ := afterApply_ok
      (r := { r with revisions := a, sessions := m }) hengine hinv hacc hinst
    rw [after_ok (hrun.trans hafter)]
    refine ⟨hrevised.gpuLoad.trans h.load,?_,fun g => ?_,?_,?_⟩
    · rw [hrevised.sessions]
      exact hinst.guardTokens.trans h.guardTokens
    · rw [hrevised.revisions]
      exact hcursors hnorm g
    · rw [hrevised.sessions]
      exact (hinst.sessions s).trans ((if_neg (hsid hnorm)).trans h.session)
    · rw [hreplies.others s (hsid hnorm)]
      exact h.resident

/-- Past the cursor, the runtime does what the view makes of the result of `speak`. -/
theorem shows_answer (hengine : c.engine.NeverRaises) (hinv : Inv r)
    (h : Shows load event.sessionId v r) {normalized : STTEvent} {a : RevisionAdapter}
    (hnorm : r.revisions.normalize event = (some normalized,a))
    (hsid : normalized.sessionId = event.sessionId) {cursors : SegmentId → SegmentCursor}
    (hcursors : ∀ g, a.cursor (event.sessionId,g) = cursors g) :
    let (reply,view) := SessionView.answer c.tentativePolicy load normalized
      { v with cursors := cursors }
      (speak c.tokenizer 1 normalized (v.session.getD (.fresh event.sessionId)))
    (outcome (handleEvent c event) r).map EventOutcome.reply = reply ∧
      Shows load event.sessionId view (after (handleEvent c event) r) := by
  have hspeak := apply_leaves c.tokenizer normalized r.sessions
  rw [h.guardTokens,hsid,h.current] at hspeak
  generalize speak c.tokenizer 1 normalized (v.session.getD (.fresh event.sessionId)) =
    spoken at hspeak ⊢
  obtain ⟨result,session⟩ := spoken
  obtain ⟨hresult,hleft⟩ := hspeak
  cases happly : SessionManager.apply c.tokenizer normalized r.sessions with
  | error error m =>
    have hrun := handleEvent_rejected hnorm happly
    rw [outcome_error happly] at hresult
    rw [after_error happly] at hleft
    obtain rfl : .error error = result := hresult
    rw [outcome_error hrun,after_error hrun]
    have hself := hleft.self
    rw [hsid] at hself
    exact ⟨rfl,h.load,hleft.guardTokens.trans h.guardTokens,hcursors,hself,h.resident⟩
  | ok diff m =>
    have hrun := handleEvent_accepted hnorm happly
    rw [outcome_ok happly] at hresult
    rw [after_ok happly] at hleft
    obtain rfl : .ok diff = result := hresult
    obtain ⟨-,session',hacc,hinst⟩ := apply_ok happly
    obtain rfl : session' = session := Option.some.inj (hinst.self.symm.trans hleft.self)
    obtain ⟨o,next,hafter,-,hrevised,-,-,hreplies⟩ := afterApply_ok
      (r := { r with revisions := a, sessions := m }) hengine hinv hacc hinst
    have hcounts : (o.prefilledTokens,o.rollbackTokens) =
        cacheCounts c.tentativePolicy load normalized diff session' v.resident := by
      rw [← h.load,← h.resident,← hsid]
      exact hreplies.counts
    have hresident : (next.kv.view.sessions event.sessionId).length =
        v.resident + o.prefilledTokens - o.rollbackTokens := by
      rw [← h.resident,← hsid]
      exact Nat.eq_sub_of_add_eq hreplies.resident
    have hreply : o.reply = ⟨true,false,some diff,o.prefilledTokens,o.rollbackTokens⟩ := by
      rw [EventOutcome.reply,hreplies.accepted,hreplies.duplicateOrStale,hreplies.reported]
    have hsessions : next.sessions = m := hrevised.sessions
    have hself : next.sessions.sessions.get? event.sessionId = some session' := by
      rw [hsessions,← hsid]
      exact hleft.self
    rw [outcome_ok (hrun.trans hafter),after_ok (hrun.trans hafter)]
    simp only [SessionView.answer,← hcounts]
    refine ⟨congrArg Except.ok hreply,hrevised.gpuLoad.trans h.load,?_,fun g => ?_,hself,hresident⟩
    · rw [hsessions]
      exact hleft.guardTokens.trans h.guardTokens
    · rw [hrevised.revisions]
      exact hcursors g

/-- The runtime answers an event as the view of its session does. -/
theorem shows_own (hengine : c.engine.NeverRaises) (hinv : Inv r)
    (h : Shows load event.sessionId v r) :
    (outcome (handleEvent c event) r).map EventOutcome.reply =
      (v.handle c.tokenizer c.tentativePolicy load event).1 ∧
    Shows load event.sessionId (v.handle c.tokenizer c.tentativePolicy load event).2
      (after (handleEvent c event) r) := by
  have hcursor := h.cursors event.segmentId
  by_cases hpast : (v.cursors event.segmentId).finalized = true ∨
      (event.revision : ℤ) ≤ (v.cursors event.segmentId).revision
  · rw [SessionView.handle,if_pos hpast]
    rw [← hcursor] at hpast
    obtain ⟨a,hnorm,hsame⟩ := RevisionAdapter.normalize_dropped hpast
    have hrun := handleEvent_dropped (c := c) hnorm
    rw [outcome_ok hrun,after_ok hrun]
    exact ⟨rfl,h.load,h.guardTokens,fun g => (hsame _).trans (h.cursors g),h.session,h.resident⟩
  · rw [SessionView.handle,if_neg hpast]
    rw [← hcursor] at hpast ⊢
    obtain ⟨hfinal,hlt⟩ := not_or.mp hpast
    obtain ⟨a,hnorm,hmoved⟩ :=
      RevisionAdapter.normalize_accepted (by simpa using hfinal) (not_le.mp hlt)
    have hcursors : ∀ g, a.cursor (event.sessionId,g) = Function.update v.cursors event.segmentId
        ⟨event.revision,event.type = .commitFinal⟩ g := by
      intro g
      rw [hmoved,Function.update_apply]
      by_cases hg : g = event.segmentId
      · rw [if_pos (by rw [hg]),if_pos hg]
      · rw [if_neg (fun he => hg (congrArg Prod.snd he)),if_neg hg,h.cursors]
    exact shows_answer hengine hinv h hnorm rfl hcursors

end CueBeeRuntime
end CueBee.Runtime
