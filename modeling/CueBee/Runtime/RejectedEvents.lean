import CueBee.Runtime.MethodFrames
import CueBee.Runtime.RuntimeRuns

/-! # Events that are rejected

`handle_event` moves the cursor of the revision adapter before `SessionManager.apply` has
checked the event. Cursors only move forward, so that an event that is rejected once is
dropped whenever it is delivered again.
-/
namespace CueBee.Runtime
open Cache Transcript Raising PyStr

namespace CueBeeRuntime
variable {S : Type} {c : Services S} {r next : CueBeeRuntime S}

theorem aloof_revisions (P : RevisionAdapter → Prop) :
    Aloof (fun r : CueBeeRuntime S => P r.revisions) :=
  ⟨fun _ _ hr => hr,fun _ _ hr => hr,fun _ _ hr => hr,fun _ _ hr => hr⟩

theorem past_handleEvent (key : SessionId × SegmentId) (revision : ℕ) (event : STTEvent) :
    Keeps (fun r : CueBeeRuntime S => r.revisions.Past key revision) (handleEvent c event) := by
  have haloof := aloof_revisions (S := S) (fun a => a.Past key revision)
  have hnorm : Keeps (fun r : CueBeeRuntime S => r.revisions.Past key revision)
      (normalizeEvent event) := fun r hr => RevisionAdapter.Past.normalize hr event
  refine keeps_bind hnorm (fun normalized => ?_)
  cases normalized with
  | none => exact keeps_bind (keeps_modify (fun _ hr => hr)) (fun _ => keeps_pure _)
  | some e => exact keeps_bind (keeps_onSessions (fun _ _ hr => hr) _) (fun diff => haloof.afterApply e diff)

/-- No call lets a revision through that a cursor has passed. -/
theorem keeps_past (key : SessionId × SegmentId) (revision : ℕ) (call : Call) :
    Keeps (fun r : CueBeeRuntime S => r.revisions.Past key revision) (exec c call) := by
  have haloof := aloof_revisions (S := S) (fun a => a.Past key revision)
  exact haloof.frame.steps.exec (fun event _ => past_handleEvent key revision event) (fun _ _ _ hr => hr)

/-- The event passes the adapter and `SessionManager.apply` raises. -/
def Rejected (c : Services S) (event : STTEvent) (r : CueBeeRuntime S) : Prop :=
  ∃ e a error m, r.revisions.normalize event = (some e,a) ∧
    SessionManager.apply c.tokenizer e r.sessions = .error error m

/-- Sessions, cursors, branches, tasks and the cache are the same. -/
structure Unchanged (r next : CueBeeRuntime S) : Prop where
  sessions : ∀ s, next.sessions.sessions.get? s = r.sessions.sessions.get? s
  cursors : ∀ key, next.revisions.cursor key = r.revisions.cursor key
  branches : ∀ id, next.branches.branches.get? id = r.branches.branches.get? id
  tasks : ∀ id, next.scheduler.tasks.get? id = r.scheduler.tasks.get? id
  cache : next.kv.view = r.kv.view

theorem Rejected.handleEvent {event : STTEvent} (h : Rejected c event r) :
    ∃ error next, CueBeeRuntime.handleEvent c event r = .error (.session error) next ∧
      next.revisions = (r.revisions.normalize event).2 := by
  obtain ⟨e,a,error,m,hnorm,happly⟩ := h
  exact ⟨error,_,handleEvent_rejected hnorm happly,by rw [hnorm]⟩

theorem handleEvent_past {event : STTEvent}
    (h : r.revisions.Past (event.sessionId,event.segmentId) event.revision) :
    outcome (handleEvent c event) r = .ok ⟨false,true,none,[],0,0⟩ := by
  obtain ⟨a,hnorm,-⟩ := RevisionAdapter.normalize_dropped h
  exact outcome_ok (handleEvent_dropped hnorm)

end CueBeeRuntime
open CueBeeRuntime

/-- A rejected event always moves its cursor, and it is dropped at every later delivery. -/
theorem rejected_event_leaves_trace {S : Type} (c : Services S) (event : STTEvent)
    (r : CueBeeRuntime S) (h : Rejected c event r) :
    ¬Unchanged r (after (handleEvent c event) r) ∧
    ∀ calls, outcome (handleEvent c event)
      (runAll (exec c) calls (after (handleEvent c event) r)) = .ok ⟨false,true,none,[],0,0⟩ := by
  obtain ⟨error,next,hrun,hrev⟩ := h.handleEvent
  obtain ⟨e,a,error',m,hnorm,-⟩ := h
  obtain ⟨-,hlt,-,hcursor⟩ := RevisionAdapter.normalize_some hnorm
  rw [hnorm] at hrev
  rw [after_error hrun]
  refine ⟨fun hsame => ?_,fun calls => handleEvent_past ?_⟩
  · have hkey := hsame.cursors (event.sessionId,event.segmentId)
    rw [hrev,hcursor] at hkey
    rw [← hkey] at hlt
    exact lt_irrefl _ hlt
  · refine runAll_keeps (keeps_past _ _) calls ?_
    rw [hrev]
    refine Or.inr ?_
    rw [hcursor]

/-- A second segment is rejected, and after the final of the first its text is lost. -/
theorem rejected_event_leaves_trace_second_segment :
    let c := quietServices utf8Tokenizer
    let r := runAll (exec c) [.handleEvent (heard "g" 0 .appendPartial "one" (by decide) (by decide))]
      (init 4 (by decide) 8 (by decide) ())
    let event := heard "h" 0 .appendPartial "two" (by decide) (by decide)
    Rejected c event r ∧ ¬Unchanged r (after (handleEvent c event) r) ∧
    outcome (handleEvent c event) (runAll (exec c)
      [.handleEvent (heard "g" 1 .commitFinal "one" (by decide) (by decide))]
      (after (handleEvent c event) r)) = .ok ⟨false,true,none,[],0,0⟩ := by
  intro c r event
  have hrej : Rejected c event r :=
    ⟨_,_,.segmentTentative (some (lit "g")) (lit "h"),_,rfl,by rfl⟩
  obtain ⟨htrace,hlost⟩ := rejected_event_leaves_trace c event r hrej
  exact ⟨hrej,htrace,hlost _⟩

/-- The version of the session and the cursor of the rejected segment have moved. -/
theorem rejected_partial_changes_state :
    let c := quietServices utf8Tokenizer
    let r := runAll (exec c) [.handleEvent (heard "g" 0 .appendPartial "one" (by decide) (by decide))]
      (init 4 (by decide) 8 (by decide) ())
    let event := heard "h" 0 .appendPartial "two" (by decide) (by decide)
    let next := after (handleEvent c event) r
    outcome (handleEvent c event) r =
      .error (.session (.segmentTentative (some (lit "g")) (lit "h"))) ∧
    (next.sessions.sessions.get? (lit "s")).map ConversationSession.version ≠
      (r.sessions.sessions.get? (lit "s")).map ConversationSession.version ∧
    next.revisions.cursor (lit "s",lit "h") ≠ r.revisions.cursor (lit "s",lit "h") ∧
    ¬Unchanged r next := by
  intro c r event next
  have hcursor : next.revisions.cursor (lit "s",lit "h") ≠ r.revisions.cursor (lit "s",lit "h") := by
    decide +kernel
  exact ⟨by decide +kernel,by decide +kernel,hcursor,fun h => hcursor (h.cursors _)⟩

end CueBee.Runtime
