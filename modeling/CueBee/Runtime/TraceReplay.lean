import CueBee.Runtime.DeterministicEngine
import CueBee.Runtime.TokenAccounting
import CueBee.Transcript.DiffSoundness
import CueBee.Transcript.EventIntake

/-! # Replaying a trace

The benchmark feeds a trace of events to a runtime that prefills every tail, and compares the
prefilled tokens with a prefill of the whole transcript after every event. Reading the trace
file is left out, as are the clock and the other fields of the report, which are copies of the
metrics and of the cache.
-/
namespace CueBee.Runtime
open Cache Transcript Raising ConversationSession SessionManager PyStr

/-- What `replay` reports about the tokens. -/
structure ReplayReport where
  events : ℕ
  fullHistoryPrefillTokens : ℕ
  incrementalPrefillTokens : ℕ
  avoidedPrefillTokens : ℤ
  rollbackTokens : ℕ
deriving DecidableEq

/-- `TentativePrefillPolicy(min_tail_tokens=1, min_confidence=0.0)`. -/
def replayPolicy : TentativePrefillPolicy :=
  { TentativePrefillPolicy.standard with minTailTokens := 1, minConfidence := .fin 0 }

/-- What the benchmark builds its runtime with. -/
def replayServices : Services DeterministicEngine := defaultServices replayPolicy

def replayStart : CueBeeRuntime DeterministicEngine :=
  .init 16 (by decide) 32 (by decide) DeterministicEngine.init

namespace CueBeeRuntime
variable {S : Type} (c : Services S)

/-- One line of the trace; the tokens that a prefill of the whole transcript would take. -/
def replayLine (event : STTEvent) : EStateM RuntimeError (CueBeeRuntime S) ℕ := do
  let _ ← handleEvent c event
  let state ← onSessions (SessionManager.get event.sessionId)
  return state.totalTokens

def replayLines : List STTEvent → ℕ → EStateM RuntimeError (CueBeeRuntime S) ℕ
  | [], fullHistory => return fullHistory
  | event :: rest, fullHistory => do
    let tokens ← replayLine c event
    replayLines rest (fullHistory + tokens)

def replay (trace : List STTEvent) : EStateM RuntimeError (CueBeeRuntime S) ReplayReport := do
  let fullHistory ← replayLines c trace 0
  let r ← get
  let incremental := r.metrics.counter .prefillTokens
  return ⟨trace.length,fullHistory,incremental,fullHistory - incremental,
    r.metrics.counter .rollbackTokens⟩

/-- The tokens that the events of a trace find in the cache and do not roll back. -/
def reusedTokens : List STTEvent → CueBeeRuntime S → ℕ
  | [], _ => 0
  | event :: rest, r =>
    match handleEvent c event r with
    | .ok o next => (r.sessions.current event.sessionId).totalTokens - o.rollbackTokens +
        reusedTokens rest next
    | .error _ _ => 0

variable {c} {r next : CueBeeRuntime S}

/-- The cache holds as many tokens of each session as its transcript has. -/
def Mirrored (r : CueBeeRuntime S) : Prop :=
  ∀ s, (r.kv.view.sessions s).length = (r.sessions.current s).totalTokens

/-- The segments that the adapter has seen are of sessions that exist. -/
def Known (r : CueBeeRuntime S) : Prop :=
  ∀ key cursor, r.revisions.segments.get? key = some cursor →
    ∃ session, r.sessions.sessions.get? key.1 = some session

/-- What holds between the lines of a trace. -/
structure Replaying (history : List (SessionId × EventOutcome)) (r : CueBeeRuntime S) : Prop where
  inv : Inv r
  accounted : Accounted history r
  mirrored : Mirrored r
  known : Known r
  idle : r.gpuLoad = .fin 0

theorem replaying_init (blockSize : ℕ) (hblock : 0 < blockSize) (admissionCap : ℕ)
    (hcap : 0 < admissionCap) (e : S) :
    Replaying [] (init blockSize hblock admissionCap hcap e) where
  inv := inv_init blockSize hblock admissionCap hcap e
  accounted := accounted_init blockSize hblock admissionCap hcap e
  mirrored _ := rfl
  known key cursor h := by cases h
  idle := rfl

/-- The policy of the benchmark refuses only an empty tail. -/
theorem replayPolicy_admits (event : STTEvent) {tailTokens : ℕ} (h : tailTokens ≠ 0) :
    replayPolicy.admit event tailTokens (.fin 0) = true := by
  have hconfidence : (PyFloat.fin 0).le (event.confidence.getD (.fin 1)) = true := by
    cases hc : event.confidence with
    | none => rfl
    | some x => exact (event.confidence_bounded x hc).1
  have htail : (1 : ℤ) ≤ tailTokens := by omega
  have hload : (PyFloat.fin 0).le (.fin (17 / 20)) = true := by decide +kernel
  simp only [ TentativePrefillPolicy.admit,replayPolicy,TentativePrefillPolicy.standard,
    hconfidence,hload,htail,decide_true,Bool.and_self]

/-- An accepted event leaves the whole transcript of its session in the cache. -/
theorem Replies.mirrored (hpolicy : c.tentativePolicy = replayPolicy) {event : STTEvent}
    {diff : TranscriptDiff} {m : SessionManager} {session : ConversationSession} {o : EventOutcome}
    (hacc : Accepted c.tokenizer event m session diff) (hidle : r.gpuLoad = .fin 0)
    (hbefore : (r.kv.view.sessions event.sessionId).length =
      (m.current event.sessionId).totalTokens)
    (h : Replies c.tentativePolicy event diff session o r next) :
    (next.kv.view.sessions event.sessionId).length = session.totalTokens ∧
      o.rollbackTokens ≤ (m.current event.sessionId).totalTokens := by
  have hresident := h.resident
  have hcounts := h.counts
  rw [hpolicy,hidle,cacheCounts] at hcounts
  cases hacc with
  | metadata session hkind hversion hsame =>
    rw [if_pos hkind,Prod.mk.injEq] at hcounts
    have htotal : session.totalTokens = (m.current event.sessionId).totalTokens := by
      rw [← length_allTokens,← length_allTokens,allTokens,allTokens,hsame.committedTokens,
        hsame.tentativeTokens]
      rfl
    omega
  | transcript newTail hkind hopen hencode =>
    rw [if_neg hkind,reviseCounts,Prod.mk.injEq] at hcounts
    obtain ⟨hprefilled,hrolled⟩ := hcounts
    have hstart : ((m.raised event).transcriptDiff m.guardTokens event newTail
        (m.current event.sessionId).version).changedRange.start =
        (m.raised event).committedTokens.length +
          commonPrefix m.guardTokens (m.raised event).tentativeTokens newTail := rfl
    have hnew : ((m.raised event).transcriptDiff m.guardTokens event newTail
        (m.current event.sessionId).version).newTailTokens = newTail := rfl
    have htotal : ((m.raised event).revise event newTail).totalTokens =
        (m.raised event).committedTokens.length + newTail.length := by
      rw [← length_allTokens,allTokens_revise,List.length_append]
    have hold : (m.current event.sessionId).totalTokens =
        (m.raised event).committedTokens.length + (m.raised event).tentativeTokens.length := rfl
    have hcommon : commonPrefix m.guardTokens (m.raised event).tentativeTokens newTail ≤
        newTail.length := (commonPrefix_le _ _ _).trans (lcpLength_le _ _).2
    rw [hnew] at hprefilled
    rw [hstart] at hprefilled hrolled
    by_cases hempty : newTail.length = 0
    · -- the tail is empty, and what is left is the spine
      split at hprefilled <;> omega
    · rw [if_pos (.inr (replayPolicy_admits event hempty))] at hprefilled
      omega

/-- Adding an event of a session that exists leaves the adapter's sessions known. -/
theorem Known.normalize (h : Known r) {event : STTEvent} {a : RevisionAdapter}
    {normalized : Option STTEvent} (hnorm : r.revisions.normalize event = (normalized,a))
    {m : SessionManager} (hprogress : Progress r.sessions m)
    (hself : ∃ session, m.sessions.get? event.sessionId = some session) (hnext : next.revisions = a)
    (hsessions : next.sessions = m) : Known next := by
  intro key cursor hget
  rw [hnext,show a = (r.revisions.normalize event).2 by rw [hnorm]] at hget
  rw [hsessions]
  rcases RevisionAdapter.normalize_stored hget with rfl | hold
  · exact hself
  · obtain ⟨session,hsession⟩ := h key cursor hold
    obtain ⟨session',hsession',-⟩ := hprogress _ session hsession
    exact ⟨session',hsession'⟩

/-- The ways through one line: `handle_event` raises, or the line counts the session's tokens,
which are those found in the cache and kept together with those prefilled. -/
theorem replayLine_cases (hengine : c.engine.NeverRaises) (hpolicy : c.tentativePolicy = replayPolicy)
    {history : List (SessionId × EventOutcome)} (h : Replaying history r) (event : STTEvent) :
    (∃ e next, handleEvent c event r = .error e next ∧ replayLine c event r = .error e next) ∨
    ∃ o next, handleEvent c event r = .ok o next ∧ Replaying (history ++ [(event.sessionId,o)]) next ∧
      replayLine c event r = .ok ((r.sessions.current event.sessionId).totalTokens -
        o.rollbackTokens + o.prefilledTokens) next := by
  have haccounted := h.accounted.handleEvent hengine h.inv event
  -- the session of the event is there, whatever has become of the event
  have hline : ∀ {o : EventOutcome} {last : CueBeeRuntime S} {session : ConversationSession},
      handleEvent c event r = .ok o last →
      last.sessions.sessions.get? event.sessionId = some session →
      replayLine c event r = .ok session.totalTokens last := by
    intro o last session hrun hget
    simp only [replayLine,bind_ok hrun,bind_ok (onSessions_get hget)]
    rfl
  cases handled c event r with
  | dropped a hnorm hrun =>
    rw [returned_ok hrun,after_ok hrun] at haccounted
    have hpast : r.revisions.Past event.key event.revision := by
      by_contra hnot
      obtain ⟨hfinal,hlt⟩ := not_or.mp hnot
      obtain ⟨a',haccept,-⟩ := RevisionAdapter.normalize_accepted
        (Bool.eq_false_iff.mpr hfinal) (not_le.mp hlt)
      rw [hnorm] at haccept
      cases haccept
    obtain ⟨cursor,hcursor⟩ := hpast.stored
    obtain ⟨session,hget⟩ : ∃ session, r.sessions.sessions.get? event.sessionId = some session :=
      h.known _ cursor hcursor
    refine .inr ⟨_,_,hrun,⟨h.inv,haccounted,h.mirrored,?_,h.idle⟩,?_⟩
    · exact h.known.normalize hnorm (.refl _) ⟨session,hget⟩ rfl rfl
    · rw [hline hrun hget,current_of_some hget]
      rfl
  | rejected e a error m hnorm happly hrun => exact .inl ⟨_,_,hrun,bind_error hrun⟩
  | accepted e a diff m hnorm happly hrun =>
    obtain ⟨-,session,hacc,hinst⟩ := apply_ok happly
    obtain ⟨o,last,hafter,hinv,hrevised,-,-,hreplies⟩ := afterApply_ok
      (r := { r with revisions := a, sessions := m }) hengine h.inv hacc hinst
    obtain ⟨-,-,hrelabel,-⟩ := RevisionAdapter.normalize_some hnorm
    have hsession : e.sessionId = event.sessionId := by
      rw [hrelabel]
      rfl
    have hrun' := hrun.trans hafter
    rw [returned_ok hrun',after_ok hrun'] at haccounted
    obtain ⟨hself,hrolled⟩ := Replies.mirrored (r := { r with revisions := a, sessions := m })
      hpolicy hacc h.idle (h.mirrored _) hreplies
    have hget : last.sessions.sessions.get? event.sessionId = some session := by
      rw [hrevised.sessions,← hsession]
      exact hinst.self
    have htotal := hreplies.resident
    rw [hself,show ({ r with revisions := a, sessions := m } : CueBeeRuntime S).kv = r.kv from rfl,
      h.mirrored] at htotal
    refine .inr ⟨o,last,hrun',⟨hinv,haccounted,fun s => ?_,?_,?_⟩,?_⟩
    · by_cases hs : s = e.sessionId
      · rw [hs,hself,hrevised.sessions]
        exact congrArg totalTokens hinst.current_self.symm
      · rw [hreplies.others s hs,hrevised.sessions]
        exact (h.mirrored s).trans (congrArg totalTokens (hinst.current_ne hs).symm)
    · refine h.known.normalize hnorm (hinst.progress hacc.advances) ?_ hrevised.revisions
        hrevised.sessions
      exact ⟨session,hsession ▸ hinst.self⟩
    · exact hrevised.gpuLoad.trans h.idle
    · rw [hline hrun' hget,← hsession,EStateM.Result.ok.injEq]
      refine ⟨?_,rfl⟩
      omega

/-- The call returns. -/
def Returned (c : Services S) (event : STTEvent) (r : CueBeeRuntime S) : Prop :=
  ∃ o next, handleEvent c event r = .ok o next

/-- Either the replay stops at the first event that is rejected, or the lines count the reused
and the prefilled tokens. -/
theorem replayLines_cases (hengine : c.engine.NeverRaises)
    (hpolicy : c.tentativePolicy = replayPolicy) (trace : List STTEvent) (fullHistory : ℕ)
    {history : List (SessionId × EventOutcome)} (h : Replaying history r) :
    (∃ e last pre event post, replayLines c trace fullHistory r = .error e last ∧
      trace = pre ++ event :: post ∧ RunMeets (handleEvent c) (Returned c) pre r ∧
      handleEvent c event (runAll (handleEvent c) pre r) = .error e last) ∨
    ∃ last added, replayLines c trace fullHistory r =
        .ok (fullHistory + reusedTokens c trace r + prefilledTokens (added.map Prod.snd)) last ∧
      Replaying (history ++ added) last := by
  induction trace generalizing fullHistory history r with
  | nil => exact .inr ⟨r,[],rfl,by rwa [List.append_nil]⟩
  | cons event rest ih =>
    rcases replayLine_cases hengine hpolicy h event with
      ⟨e,next,hrun,hline⟩ | ⟨o,next,hrun,hnext,hline⟩
    · exact .inl ⟨e,next,[],event,rest,bind_error hline,rfl,trivial,hrun⟩
    · have hbind : replayLines c (event :: rest) fullHistory r = replayLines c rest
          (fullHistory + ((r.sessions.current event.sessionId).totalTokens - o.rollbackTokens +
            o.prefilledTokens)) next := bind_ok hline
      have hreused : reusedTokens c (event :: rest) r =
          (r.sessions.current event.sessionId).totalTokens - o.rollbackTokens +
            reusedTokens c rest next := by
        simp only [reusedTokens,hrun]
      rcases ih _ hnext with ⟨e,last,pre,event',post,hlines,hsplit,hpre,hraise⟩ |
        ⟨last,added,hlines,hlast⟩
      · refine .inl ⟨e,last,event :: pre,event',post,hbind.trans hlines,?_,⟨⟨o,next,hrun⟩,?_⟩,?_⟩
        · rw [hsplit,List.cons_append]
        · rwa [after_ok hrun]
        · rwa [runAll_cons,after_ok hrun]
      · refine .inr ⟨last,(event.sessionId,o) :: added,?_,?_⟩
        · rw [hbind,hlines,hreused,EStateM.Result.ok.injEq]
          refine ⟨?_,rfl⟩
          simp only [prefilledTokens,List.map_cons,List.sum_cons]
          omega
        · rwa [List.append_assoc] at hlast

/-- What a replay reports and leaves, with any tokenizer and any engine that never raises. -/
theorem replay_cases (hengine : c.engine.NeverRaises) (hpolicy : c.tentativePolicy = replayPolicy)
    (hstart : Replaying [] r) (trace : List STTEvent) :
    (∃ error last pre event post, replay c trace r = .error error last ∧
      trace = pre ++ event :: post ∧ RunMeets (handleEvent c) (Returned c) pre r ∧
      handleEvent c event (runAll (handleEvent c) pre r) = .error error last) ∨
    ∃ report last, replay c trace r = .ok report last ∧
      report.events = trace.length ∧
      report.avoidedPrefillTokens = reusedTokens c trace r ∧
      report.fullHistoryPrefillTokens = reusedTokens c trace r + report.incrementalPrefillTokens ∧
      ∀ s, ∃ k, VersionedKVManager.sessionTokens s last.kv =
        .ok (last.sessions.current s).allTokens k := by
  rcases replayLines_cases hengine hpolicy trace 0 hstart with
    ⟨error,last,pre,event,post,hlines,hsplit,hpre,hraise⟩ | ⟨last,added,hlines,hlast⟩
  · exact .inl ⟨error,last,pre,event,post,bind_error hlines,hsplit,hpre,hraise⟩
  · have hcounter : last.metrics.counter .prefillTokens = prefilledTokens (added.map Prod.snd) :=
      hlast.accounted.counted.prefilled
    refine .inr ⟨_,last,bind_ok hlines,rfl,?_,?_,fun s => ⟨last.kv.touch s,?_⟩⟩
    · show ((0 + reusedTokens c trace r + _ : ℕ) : ℤ) -
        (last.metrics.counter .prefillTokens : ℕ) = _
      rw [hcounter]
      omega
    · show 0 + reusedTokens c trace r + _ = reusedTokens c trace r +
        last.metrics.counter .prefillTokens
      rw [hcounter]
      omega
    · have hprefix := Agrees.prefix_allTokens (hlast.inv.agrees s)
      have hlength : ((last.kv.view.sessions s).map Prod.fst).length =
          (last.sessions.current s).allTokens.length := by
        rw [List.length_map,length_allTokens]
        exact hlast.mirrored s
      exact hprefix.eq_of_length hlength ▸ sessionTokens_ok hlast.inv.sound s

/-- The services with an engine whose `generate` answers every request alike. -/
def answering (c : Services S) : Services S :=
  { c with engine := { c.engine with generate := fun request => pure ⟨request.taskId,[],0,0⟩ } }

theorem cancelInvalidated_answering (ids : List TaskId) :
    cancelInvalidated (answering c) ids = cancelInvalidated c ids := by
  induction ids with
  | nil => rfl
  | cons taskId rest ih =>
    rw [cancelInvalidated,ih]
    rfl

/-- No event asks for an answer. -/
theorem handleEvent_answering : handleEvent (answering c) = handleEvent c := by
  have hafter : ∀ event diff, afterApply (answering c) event diff = afterApply c event diff := by
    intro event diff
    simp only [afterApply,cancelInvalidated_answering]
    rfl
  funext event
  simp only [handleEvent,hafter]
  rfl

theorem returned_answering : Returned (answering c) = Returned c := by
  funext event r
  simp only [Returned,handleEvent_answering]

theorem replay_answering (trace : List STTEvent) : replay (answering c) trace = replay c trace := by
  have hlines : ∀ fullHistory,
      replayLines (answering c) trace fullHistory = replayLines c trace fullHistory := by
    induction trace with
    | nil => exact fun _ => rfl
    | cons event rest ih =>
      intro fullHistory
      simp only [replayLines,replayLine,handleEvent_answering,ih]
  simp only [replay,hlines]

theorem reusedTokens_answering (trace : List STTEvent) (r : CueBeeRuntime S) :
    reusedTokens (answering c) trace r = reusedTokens c trace r := by
  induction trace generalizing r with
  | nil => rfl
  | cons event rest ih => simp only [reusedTokens,handleEvent_answering,ih]

/-- `DeterministicEngine` raises for no event. -/
theorem replayServices_neverRaises : (answering replayServices).engine.NeverRaises where
  prefill _ _ _ _ e := ⟨_,_,modify_apply _ e⟩
  generate _ e := ⟨_,_,pure_apply _ e⟩
  abort _ _ := ⟨_,_,rfl⟩
  updateSession f hf _ _ := by
    cases hf
    exact ⟨_,_,rfl⟩

/-- The replay of a trace stops at the first event that is rejected. Otherwise the cache ends up
with the whole transcript of every session, and the avoided tokens are those that the events
found in the cache and kept. -/
theorem replay_avoids_reused (trace : List STTEvent) :
    let c := replayServices
    (∃ error last pre event post, replay c trace replayStart = .error error last ∧
      trace = pre ++ event :: post ∧ RunMeets (handleEvent c) (Returned c) pre replayStart ∧
      handleEvent c event (runAll (handleEvent c) pre replayStart) = .error error last) ∨
    ∃ report last, replay c trace replayStart = .ok report last ∧
      report.events = trace.length ∧
      report.avoidedPrefillTokens = reusedTokens c trace replayStart ∧
      report.fullHistoryPrefillTokens =
        reusedTokens c trace replayStart + report.incrementalPrefillTokens ∧
      ∀ s, ∃ k, VersionedKVManager.sessionTokens s last.kv =
        .ok (last.sessions.current s).allTokens k := by
  have hcases := replay_cases replayServices_neverRaises rfl
    (replaying_init 16 (by decide) 32 (by decide) DeterministicEngine.init) trace
  simp only [replay_answering,reusedTokens_answering,returned_answering,handleEvent_answering]
    at hcases
  exact hcases

/-- A partial and its final: of the 17 and 11 tokens, 5 are reused. -/
example : reusedTokens replayServices
    [heard "a" 0 .appendPartial "hello brave world" (by decide) (by decide),
      heard "a" 1 .commitFinal "hello world" (by decide) (by decide)] replayStart = 5 := by
  decide +kernel

end CueBeeRuntime
end CueBee.Runtime
