import CueBee.Runtime.RejectedEvents
import CueBee.Runtime.Interleaving
import CueBee.Transcript.EventIntake

/-! # Events that are delivered again

Once `handle_event` has seen an event its cursor has passed it, and no move takes a cursor
back. So the event is dropped at every later delivery, and the runtime only counts it.
-/
namespace CueBee.Runtime
open Cache Transcript Raising CueBeeRuntime RevisionAdapter

namespace CueBeeRuntime
variable {S : Type} {c : Services S} {r next : CueBeeRuntime S}

/-- The runtimes differ in their counters only. The cache is part of the branch graph. -/
structure OnlyCounted (r next : CueBeeRuntime S) : Prop where
  sessions : next.sessions = r.sessions
  segments : next.revisions.segments = r.revisions.segments
  branches : next.branches = r.branches
  scheduler : next.scheduler = r.scheduler
  gpuLoad : next.gpuLoad = r.gpuLoad
  engine : next.engine = r.engine

/-- `handle_event` leaves the cursor past the event at both exits. -/
theorem past_after_handleEvent (c : Services S) (event : STTEvent) (r : CueBeeRuntime S) :
    (after (handleEvent c event) r).revisions.Past event.key event.revision := by
  have haloof := aloof_revisions (S := S) (fun a => a.Past event.key event.revision)
  refine Ensures.after (I := fun r : CueBeeRuntime S => r.revisions.Past event.key event.revision)
    (ensures_bind.mpr (Ensures.of_ok rfl ?_))
  have hpast := past_normalize_self event r.revisions
  cases (r.revisions.normalize event).1 with
  | none => exact hpast
  | some e =>
    have happly : Keeps (fun r : CueBeeRuntime S => r.revisions.Past event.key event.revision)
        (onSessions (SessionManager.apply c.tokenizer e)) := keeps_onSessions (fun _ _ hr => hr) _
    exact keeps_iff.mp (keeps_bind happly (fun diff => haloof.afterApply e diff)) _ hpast

theorem handleEvent_again {event : STTEvent} (h : r.revisions.Past event.key event.revision) :
    ∃ next, handleEvent c event r = .ok ⟨false,true,none,[],0,0⟩ next ∧ OnlyCounted r next := by
  obtain ⟨hnone,hsegments⟩ := normalize_again h
  exact ⟨_,handleEvent_dropped (Prod.ext hnone rfl),rfl,hsegments,rfl,rfl,rfl,rfl⟩

end CueBeeRuntime

namespace LiveRuntime
variable {S : Type} {c : Services S}

theorem past_step (key : SessionId × SegmentId) (revision : ℕ) (move : Move S) :
    Keeps (fun s : LiveRuntime S => s.runtime.revisions.Past key revision) (act c move) := by
  have hsteps := ((aloof_revisions (S := S) (fun a => a.Past key revision)).frame (c := c)).steps
  intro s hs
  rw [after_act]
  cases move with
  | handleEvent event => exact past_handleEvent key revision event s.runtime hs
  | submitTask a =>
    have hkeeps := hsteps.submitTask a
    rw [step]
    cases hx : submitTask c a s.runtime with
    | ok task r => exact hkeeps.ok hs hx
    | error e r => exact hkeeps.error hs hx
  | shedLoad targetActive => exact hsteps.shedLoad targetActive s.runtime hs
  | setGpuLoad load => exact hs
  | engine state => exact hs
  | start now =>
    have hkeeps := hsteps.startNext now
    rw [step]
    cases hx : startNext c now s.runtime with
    | ok started r =>
      cases started with
      | none => exact hkeeps.ok hs hx
      | some flight => exact hkeeps.ok hs hx
    | error e r => exact hkeeps.error hs hx
  | finish i result =>
    rw [step]
    cases s.generations[i]? with
    | none => exact hs
    | some g =>
      have hkeeps := hsteps.finishNext g.flight result
      dsimp only
      cases hx : finishNext g.flight result s.runtime with
      | ok outcome r => exact hkeeps.ok hs hx
      | error e r => exact hkeeps.error hs hx

end LiveRuntime
open LiveRuntime

/-- The adapter accepts increasing revisions up to the final of a segment and accounts for
every call. An event that `handle_event` has had once, however that call ended, is dropped at
every later delivery. -/
theorem event_intake_idempotent {S : Type} (c : Services S) :
    (∀ events, let taken := intake events RevisionAdapter.init
      taken.1.Pairwise (fun e f => e.key = f.key →
        e.revision < f.revision ∧ e.type ≠ .commitFinal) ∧
      taken.1.length + taken.2.duplicatesDropped + taken.2.staleDropped = events.length) ∧
    ∀ (s : LiveRuntime S) (event : STTEvent) (moves : List (Move S)),
      let later := (runAll (act c) moves (step c (.handleEvent event) s)).runtime
      ∃ next, handleEvent c event later = .ok ⟨false,true,none,[],0,0⟩ next ∧
        OnlyCounted later next := by
  refine ⟨fun events => ⟨intake_increasing events _,
    intake_counts events RevisionAdapter.init⟩,fun s event moves => ?_⟩
  have hpast : (runAll (act c) moves
      (step c (.handleEvent event) s)).runtime.revisions.Past event.key event.revision :=
    runAll_keeps (past_step event.key event.revision) moves
      (past_after_handleEvent c event s.runtime)
  exact handleEvent_again hpast

end CueBee.Runtime
