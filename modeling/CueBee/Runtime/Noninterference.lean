import CueBee.Runtime.SessionView

/-! # Sessions do not disturb each other

All sessions and branches share the blocks of one cache, one scheduler and one graph.
What the events of a session are answered, and what it ends with, is that of its view
alone: two runs in which the session has the same events look the same to it.
-/
namespace CueBee.Runtime
open Cache Transcript Raising PyStr

/-- The event of a call, if it is one of the session `s`. -/
def Call.eventOf (s : SessionId) : Call → Option STTEvent
  | .handleEvent event => if event.sessionId = s then some event else none
  | .submitTask _ | .runNext _ | .shedLoad _ | .setGpuLoad _ => none

def eventsOf (s : SessionId) (calls : List Call) : List STTEvent := calls.filterMap (Call.eventOf s)

def FixedLoad (load : PyFloat) (calls : List Call) : Prop :=
  ∀ other, Call.setGpuLoad other ∈ calls → other = load

theorem Call.eventOf_some {s : SessionId} {call : Call} {event : STTEvent}
    (h : call.eventOf s = some event) : call = .handleEvent event ∧ event.sessionId = s := by
  cases call with
  | handleEvent e =>
    obtain ⟨hs,he⟩ := Option.ite_none_right_eq_some.mp h
    obtain rfl := Option.some.inj he
    exact ⟨rfl,hs⟩
  | submitTask _ | runNext _ | shedLoad _ | setGpuLoad _ => cases h

namespace CueBeeRuntime
variable {S : Type} {c : Services S} {r : CueBeeRuntime S} {load : PyFloat} {s : SessionId}
  {v : SessionView}

/-- What the events of the session `s` are answered in a run. -/
def repliesTo (c : Services S) (s : SessionId) :
    List Call → CueBeeRuntime S → List (Except RuntimeError EventReply)
  | [], _ => []
  | call :: rest, r =>
    let replies := repliesTo c s rest (after (exec c call) r)
    match call.eventOf s with
    | some event => (outcome (handleEvent c event) r).map EventOutcome.reply :: replies
    | none => replies

/-- The session `s` has the same transcript and the same resident tokens in both. -/
structure SameSession {T : Type} (s : SessionId) (q : CueBeeRuntime T) (r : CueBeeRuntime S) :
    Prop where
  session : q.sessions.sessions.get? s = r.sessions.sessions.get? s
  resident : outcome (VersionedKVManager.sessionTokens s) q.kv =
    outcome (VersionedKVManager.sessionTokens s) r.kv

/-- A call that is not an event of the session does not show. -/
theorem shows_exec (hengine : c.engine.NeverRaises) (hinv : Inv r) (h : Shows load s v r)
    {call : Call} (hload : ∀ other, call = .setGpuLoad other → other = load)
    (hcall : call.eventOf s = none) : Shows load s v (after (exec c call) r) := by
  by_cases hevent : ∃ event, call = .handleEvent event
  · obtain ⟨event,rfl⟩ := hevent
    rw [exec,after_discard]
    refine shows_other hengine hinv h (fun hs => ?_)
    rw [Call.eventOf,if_pos hs] at hcall
    cases hcall
  · have hframe : Frame c (fun r => r.kv.Sound ∧ Shows load s v r) := frame_shows
    refine (hframe.steps.exec (fun event he => absurd ⟨event,he⟩ hevent) (fun other he q hq => ?_)
      r ⟨hinv.sound,h⟩).2
    exact ⟨hq.1,hload other he,hq.2.guardTokens,hq.2.cursors,hq.2.session,hq.2.resident⟩

/-- A run answers the events of the session as its view does, and shows the view after them. -/
theorem shows_run (htok : c.tokenizer.Total) (hengine : c.engine.NeverRaises) {calls : List Call}
    (hfixed : FixedLoad load calls) (hfits : RunMeets (exec c) DeadlineFits calls r) (hinv : Inv r)
    (h : Shows load s v r) :
    repliesTo c s calls r =
      (v.run c.tokenizer c.tentativePolicy load (eventsOf s calls)).1 ∧
    Inv (runAll (exec c) calls r) ∧
    Shows load s (v.run c.tokenizer c.tentativePolicy load (eventsOf s calls)).2
      (runAll (exec c) calls r) := by
  induction calls generalizing v r with
  | nil => exact ⟨rfl,hinv,h⟩
  | cons call rest ih =>
    have hrest : FixedLoad load rest := fun other ho => hfixed other (List.mem_cons_of_mem _ ho)
    have hnext : Inv (after (exec c call) r) :=
      inv_exec hengine call r hinv (hfits.1.safeCall htok)
    rw [runAll_cons]
    cases hevent : call.eventOf s with
    | none =>
      have hshows := shows_exec hengine hinv h
        (fun other ho => hfixed other (ho ▸ List.mem_cons_self)) hevent
      have hevents : eventsOf s (call :: rest) = eventsOf s rest := List.filterMap_cons_none hevent
      simp only [repliesTo,hevent,hevents]
      exact ih hrest hfits.2 hnext hshows
    | some event =>
      obtain ⟨rfl,rfl⟩ := Call.eventOf_some hevent
      obtain ⟨hreply,hshows⟩ := shows_own hengine hinv h
      rw [← after_discard,← exec] at hshows
      have hevents : eventsOf event.sessionId (.handleEvent event :: rest) =
          event :: eventsOf event.sessionId rest := List.filterMap_cons_some hevent
      obtain ⟨hreplies,hlast⟩ := ih hrest hfits.2 hnext hshows
      rw [hevents,SessionView.run]
      refine ⟨?_,hlast⟩
      simp only [repliesTo,hevent,hreply,hreplies]

end CueBeeRuntime
open CueBeeRuntime

/-- Two runs with the same events of a session answer them in the same way and leave the
session with the same transcript and the same resident tokens, whatever else they do, as long as
no deadline overflows behind the fork of a submission. -/
theorem session_noninterference {S T : Type} (c : Services S) (d : Services T)
    (htok : c.tokenizer.Total) (hengine : c.engine.NeverRaises) (hother : d.engine.NeverRaises)
    (htokenizer : d.tokenizer = c.tokenizer) (hpolicy : d.tentativePolicy = c.tentativePolicy)
    (sizeC sizeD capC capD : ℕ) (hsizeC : 0 < sizeC) (hsizeD : 0 < sizeD) (hcapC : 0 < capC)
    (hcapD : 0 < capD) (e : S) (f : T) (load : PyFloat) (s : SessionId) (calls more : List Call)
    (hcalls : FixedLoad load calls) (hmore : FixedLoad load more)
    (hevents : eventsOf s more = eventsOf s calls)
    (hfits : RunMeets (exec c) DeadlineFits calls
      { init sizeC hsizeC capC hcapC e with gpuLoad := load })
    (hfits' : RunMeets (exec d) DeadlineFits more
      { init sizeD hsizeD capD hcapD f with gpuLoad := load }) :
    let startC := { init sizeC hsizeC capC hcapC e with gpuLoad := load }
    let startD := { init sizeD hsizeD capD hcapD f with gpuLoad := load }
    repliesTo d s more startD = repliesTo c s calls startC ∧
      SameSession s (runAll (exec d) more startD) (runAll (exec c) calls startC) := by
  intro startC startD
  obtain ⟨hrepliesC,hinvC,hshowsC⟩ := shows_run (r := startC) htok hengine hcalls hfits
    (inv_init sizeC hsizeC capC hcapC e) (shows_init sizeC hsizeC capC hcapC e load s)
  obtain ⟨hrepliesD,hinvD,hshowsD⟩ := shows_run (c := d) (r := startD) (htokenizer ▸ htok) hother
    hmore hfits' (inv_init sizeD hsizeD capD hcapD f) (shows_init sizeD hsizeD capD hcapD f load s)
  rw [htokenizer,hpolicy,hevents] at hrepliesD hshowsD
  refine ⟨hrepliesD.trans hrepliesC.symm,hshowsD.session.trans hshowsC.session.symm,?_⟩
  exact (hshowsD.sessionTokens hinvD).trans (hshowsC.sessionTokens hinvC).symm

/-- A session alone and among others: its tokens lie in other blocks, and it sees the same. -/
theorem session_noninterference_guest :
    let c := quietServices lenientTokenizer
    let first := heard "g" 0 .appendPartial "hello all" (by decide) (by decide)
    let second := heard "g" 1 .revisePartial "hello you" (by decide) (by decide)
    let guest : STTEvent := { first with sessionId := lit "u", session_named := by decide }
    let calls : List Call := [.handleEvent first,.handleEvent second]
    let more : List Call := [.handleEvent guest,.handleEvent first,
      .submitTask (asked "t" .proactiveHint (lit "why")),.runNext (.fin 1),.handleEvent second,.shedLoad 0]
    let start := { init 4 (by decide) 8 (by decide) () with gpuLoad := .fin (1 / 2) }
    let alone := runAll (exec c) calls start
    let shared := runAll (exec c) more start
    shared.kv.sessions.get? (lit "s") ≠ alone.kv.sessions.get? (lit "s") ∧
      repliesTo c (lit "s") more start = repliesTo c (lit "s") calls start ∧
      SameSession (lit "s") shared alone := by
  intro c first second guest calls more start alone shared
  refine ⟨by decide +kernel,?_⟩
  exact session_noninterference c c lenientTokenizer_total quietEngine_neverRaises
    quietEngine_neverRaises rfl rfl 4 4 8 8 (by decide) (by decide) (by decide) (by decide) () ()
    (.fin (1 / 2)) (lit "s") calls more (fun _ h => by simp [calls] at h)
    (fun _ h => by simp [more] at h) rfl ⟨trivial,trivial,trivial⟩
    ⟨trivial,trivial,fun _ => .inl (by decide +kernel),trivial,trivial,trivial,trivial⟩

/-- A hint with a deadline of `10 ^ 400` milliseconds between two events of the session: the second
event raises, and without the hint it is answered. -/
theorem endless_hint_disturbs :
    let c := quietServices lenientTokenizer
    let first := heard "g" 0 .appendPartial "hello all" (by decide) (by decide)
    let second := heard "g" 1 .revisePartial "hello you" (by decide) (by decide)
    let calls : List Call := [.handleEvent first,.handleEvent second]
    let more : List Call := [.handleEvent first,
      .submitTask (askedEndless "t" .proactiveHint (lit "why")),.handleEvent second]
    let start := init 4 (by decide) 8 (by decide) ()
    eventsOf (lit "s") more = eventsOf (lit "s") calls ∧
      (repliesTo c (lit "s") calls start).map (Except.map EventReply.accepted) =
        [.ok true,.ok true] ∧
      (repliesTo c (lit "s") more start).map (Except.map EventReply.accepted) =
        [.ok true,.error (.scheduler (.unknownTask (lit "t")))] := by
  decide +kernel

end CueBee.Runtime
