import CueBee.Runtime.RuntimeInvariant

/-! # handle_event keeps the invariant

With an engine that never raises, whatever follows `SessionManager.apply` in
`handle_event` returns. The branches that a revision reaches are those of kinds that
require the current version, and their tasks are the ones that are cancelled.
-/
namespace CueBee.Runtime
open Cache Transcript Raising ConversationSession SessionManager VersionedKVManager

namespace AnalysisTask

theorem stop_same {K : Type} (status : TaskStatus) (reason : CancelReason) (task : AnalysisTask K) :
    SameTask task (task.stop status reason) := by
  unfold stop SameTask
  split <;> rfl

theorem stop_inactive {K : Type} (task : AnalysisTask K) {status : TaskStatus}
    (hs : status.active = false) (reason : CancelReason) :
    (task.stop status reason).status.active = false := by
  unfold stop
  by_cases ha : task.status.active = true
  · rw [if_pos ha]
    exact hs
  · rw [if_neg ha]
    simpa using ha

theorem stop_stop (task : AnalysisTask PyFloat) {status : TaskStatus} (hs : status.active = false)
    (reason : CancelReason) : (task.stop status reason).stop status reason = task.stop status reason := by
  unfold stop
  by_cases ha : task.status.active = true
  · simp [ha,hs]
  · simp [ha]

end AnalysisTask

/-- Stopping the task of an active branch and ending the branch keeps the two in step. -/
theorem StatusesAgree.stopped {task : AnalysisTask PyFloat} {branch branch' : BranchStatus}
    {status : TaskStatus} {reason : CancelReason} (h : StatusesAgree task.status branch)
    (ha : branch.active = true) (hs : status = .cancelled ∨ status = .dropped)
    (hb : branch' = .cancelled ∨ branch' = .invalidated) :
    StatusesAgree (task.stop status reason).status branch' := by
  have hend : (task.stop status reason).status = .cancelled ∨
      (task.stop status reason).status = .dropped := by
    unfold AnalysisTask.stop
    by_cases hactive : task.status.active = true
    · rw [if_pos hactive]
      exact hs
    · rw [if_neg hactive]
      cases ht : task.status with
      | queued | running =>
        rw [ht] at hactive
        exact absurd rfl hactive
      | completed =>
        rw [h.completed.mp ht] at ha
        cases ha
      | cancelled => exact Or.inl rfl
      | dropped => exact Or.inr rfl
  refine ⟨?_,?_,?_⟩ <;> rcases hend with he | he <;> rcases hb with hb | hb <;> simp [he,hb]

namespace CueBeeRuntime
variable {S : Type} {c : Services S} {r next : CueBeeRuntime S}

theorem onGraph_ok {α : Type} {x : EStateM GraphError BranchGraph α} {a : α} {g : BranchGraph}
    (h : x r.branches = .ok a g) : onGraph x r = .ok a { r with branches := g } := focus_ok h

theorem onScheduler_ok {α : Type} {x : EStateM SchedulerError (VersionDeadlineScheduler PyFloat) α} {a : α}
    {q : VersionDeadlineScheduler PyFloat} (h : x r.scheduler = .ok a q) :
    onScheduler x r = .ok a { r with scheduler := q } := focus_ok h

theorem onSessions_ok {α : Type} {x : EStateM SessionError SessionManager α} {a : α}
    {m : SessionManager} (h : x r.sessions = .ok a m) :
    onSessions x r = .ok a { r with sessions := m } := focus_ok h

theorem onSessions_get {s : SessionId} {session : ConversationSession}
    (h : r.sessions.sessions.get? s = some session) :
    onSessions (SessionManager.get s) r = .ok session r := by
  have hg : SessionManager.get s r.sessions = .ok session r.sessions := by
    simp only [SessionManager.get,h]
  exact onSessions_ok hg

/-- The loop over the invalidated tasks returns and cancels those that are active. -/
theorem cancelInvalidated_ok (hengine : c.engine.NeverRaises) {ids : List TaskId}
    (hn : r.scheduler.Named) (hids : ∀ id ∈ ids, ∃ t, r.scheduler.tasks.get? id = some t) :
    ∃ next, cancelInvalidated c ids r = .ok () next ∧ next.revisions = r.revisions ∧
      next.sessions = r.sessions ∧ next.branches = r.branches ∧ next.gpuLoad = r.gpuLoad ∧
      next.scheduler.Named ∧ ∀ j, next.scheduler.tasks.get? j = (r.scheduler.tasks.get? j).map
        (fun t => if j ∈ ids then t.stop .cancelled .transcriptRevision else t) := by
  induction ids generalizing r with
  | nil => exact ⟨r,rfl,rfl,rfl,rfl,rfl,hn,fun j => by simp⟩
  | cons id rest ih =>
    obtain ⟨t,ht⟩ := hids id List.mem_cons_self
    obtain ⟨q,hcancel,hqn,hq⟩ := VersionDeadlineScheduler.cancel_ok hn ht .transcriptRevision
    obtain ⟨aborted,e,habort⟩ := hengine.abort id r.engine
    let mid : CueBeeRuntime S := { r with
      scheduler := q, engine := e, metrics := MetricRegistry.inc .tasksInvalidated 1 r.metrics }
    have hknown : ∀ j ∈ rest, ∃ t, mid.scheduler.tasks.get? j = some t := by
      intro j hj
      obtain ⟨u,hu⟩ := hids j (List.mem_cons_of_mem _ hj)
      show ∃ t, q.tasks.get? j = some t
      rw [hq j]
      by_cases he : j = id
      · exact ⟨_,if_pos he⟩
      · exact ⟨u,by rw [if_neg he,hu]⟩
    obtain ⟨next,hrun,hrev,hses,hbr,hgpu,hnamed,htasks⟩ := ih (r := mid) hqn hknown
    refine ⟨next,?_,hrev,hses,hbr,hgpu,hnamed,?_⟩
    · have h1 := onScheduler_ok hcancel
      have h2 : onEngine (c.engine.abort id) { r with scheduler := q } =
          .ok aborted { r with scheduler := q, engine := e } := focus_ok habort
      simp only [cancelInvalidated,bind_ok h1,bind_ok h2]
      exact hrun
    · intro j
      rw [htasks j]
      show (q.tasks.get? j).map _ = _
      rw [hq j]
      by_cases he : j = id
      · subst he
        rw [if_pos rfl,ht]
        by_cases hj : j ∈ rest
        · have hstop := t.stop_stop (show TaskStatus.cancelled.active = false from rfl) .transcriptRevision
          simp [hj,hstop]
        · simp [hj]
      · rw [if_neg he]
        simp [he]

def reviseBranch (event : STTEvent) (diff : TranscriptDiff) (_ : BranchId) (b : Branch) : Branch :=
  if BranchGraph.stale event.sessionId diff.changedRange diff.newVersion b = true then
    b.invalidate diff.newVersion
  else b

/-- The revision reaches the branch `id`. -/
def Reached (event : STTEvent) (diff : TranscriptDiff) (r : CueBeeRuntime S) (id : BranchId) : Prop :=
  ∃ b, r.branches.branches.get? id = some b ∧
    BranchGraph.stale event.sessionId diff.changedRange diff.newVersion b = true

instance (event : STTEvent) (diff : TranscriptDiff) (r : CueBeeRuntime S) (id : BranchId) :
    Decidable (Reached event diff r id) :=
  inferInstanceAs (Decidable (∃ b, r.branches.branches.get? id = some b ∧
    BranchGraph.stale event.sessionId diff.changedRange diff.newVersion b = true))

def reviseTask (event : STTEvent) (diff : TranscriptDiff) (r : CueBeeRuntime S) (j : TaskId)
    (t : AnalysisTask PyFloat) : AnalysisTask PyFloat :=
  if Reached event diff r (branchIdOf j) then t.stop .cancelled .transcriptRevision else t

theorem reached_iff {event : STTEvent} {diff : TranscriptDiff} {id : BranchId} {b : Branch}
    (hb : r.branches.branches.get? id = some b) : Reached event diff r id ↔
      BranchGraph.stale event.sessionId diff.changedRange diff.newVersion b = true := by
  constructor
  · rintro ⟨b',hb',hst⟩
    rw [hb] at hb'
    cases hb'
    exact hst
  · exact fun hst => ⟨b,hb,hst⟩

theorem reviseBranch_same (event : STTEvent) (diff : TranscriptDiff) (id : BranchId) (b : Branch) :
    SameBranch b (reviseBranch event diff id b) := by
  unfold reviseBranch SameBranch
  split <;> rfl

theorem reviseTask_same (event : STTEvent) (diff : TranscriptDiff) (r : CueBeeRuntime S) (j : TaskId)
    (t : AnalysisTask PyFloat) : SameTask t (reviseTask event diff r j t) := by
  unfold reviseTask
  split
  · exact t.stop_same _ _
  · exact .refl t

/-- A stale branch is of a kind that requires the current version. -/
theorem stale_requires {tok : Tokenizer} {event : STTEvent} {diff : TranscriptDiff}
    {m : SessionManager} {session : ConversationSession} {b : Branch}
    (hacc : Accepted tok event m session diff) (hg : Grounded m b)
    (hst : BranchGraph.stale event.sessionId diff.changedRange diff.newVersion b = true) :
    b.requiresCurrentVersion = true := by
  by_contra hr
  have hfalse : b.requiresCurrentVersion = false := by simpa using hr
  obtain ⟨before,hget,-,hstop⟩ := hg.session
  simp only [BranchGraph.stale,hfalse,TokenRange.intersects,Bool.false_and,Bool.false_or,
    Bool.and_eq_true,decide_eq_true_eq] at hst
  obtain ⟨⟨hsession,-⟩,-,-,hoverlap⟩ := hst
  rw [hsession] at hget
  have hfrontier := hacc.frontier_le
  rw [current_of_some hget] at hfrontier
  have := hstop hfalse
  omega

theorem stale_active {event : STTEvent} {diff : TranscriptDiff} {b : Branch}
    (hst : BranchGraph.stale event.sessionId diff.changedRange diff.newVersion b = true) :
    b.status.active = true := by
  simp only [BranchGraph.stale,Bool.and_eq_true] at hst
  exact hst.1.2

/-- The branch that a task id names is stale exactly when the loop reports the id. -/
theorem mem_invalidated {g : BranchGraph} (hn : g.Named) (p : Branch → Bool) (j : TaskId) :
    j ∈ (g.branches.values.filter p).map Branch.taskId ↔
      ∃ b, g.branches.get? (branchIdOf j) = some b ∧ p b = true := by
  constructor
  · intro hj
    obtain ⟨b,hb,rfl⟩ := List.mem_map.mp hj
    obtain ⟨hmem,hp⟩ := List.mem_filter.mp hb
    have hget := hn.get?_of_mem hmem
    exact ⟨b,(hn _ b hget).2 ▸ hget,hp⟩
  · rintro ⟨b,hget,hp⟩
    have hid := branchIdOf_injective (hn _ b hget).2
    exact List.mem_map.mpr ⟨b,List.mem_filter.mpr ⟨(Dict.mem_values_iff _ _).mpr ⟨_,hget⟩,hp⟩,hid.symm⟩

/-- How many tokens an accepted event prefills and rolls back, of `resident` ones. -/
def cacheCounts (policy : TentativePrefillPolicy) (load : PyFloat) (event : STTEvent)
    (diff : TranscriptDiff) (session : ConversationSession) (resident : ℕ) : ℕ × ℕ :=
  if isMetadata event.type then (0,0) else reviseCounts policy load event diff session resident

theorem updateCache_ok (hengine : c.engine.NeverRaises) (hs : r.kv.Sound) {event : STTEvent}
    {diff : TranscriptDiff} {m : SessionManager} {session : ConversationSession}
    (hacc : Accepted c.tokenizer event m session diff)
    (hinst : Installed m r.sessions event.sessionId session)
    (hagrees : Agrees (m.current event.sessionId) (r.kv.view.sessions event.sessionId)) :
    ∃ out next xs, updateCache c event diff r = .ok out next ∧ OnlyCache r next ∧
      next.kv.Sound ∧ next.kv.view = r.kv.view.putSession event.sessionId xs ∧
      Agrees session xs ∧
      xs.length + out.2 = (r.kv.view.sessions event.sessionId).length + out.1 ∧
      out = cacheCounts c.tentativePolicy r.gpuLoad event diff session
        (r.kv.view.sessions event.sessionId).length := by
  cases hacc with
  | metadata session hkind hversion hsame =>
    refine ⟨(0,0),r,r.kv.view.sessions event.sessionId,?_,.refl r,hs,?_,?_,rfl,?_⟩
    · have hskip : event.type = .speakerRelabel ∨ event.type = .sessionClose := hkind
      simp only [updateCache,if_pos hskip]
      rfl
    · rw [NaiveKV.putSession_self]
    · have hraised : Agrees (m.raised event) (r.kv.view.sessions event.sessionId) := hagrees
      exact hraised.of_same hsame
    · rw [cacheCounts,if_pos hkind]
  | transcript newTail hkind hopen hencode =>
    have hraised : Agrees (m.raised event) (r.kv.view.sessions event.sessionId) := hagrees
    obtain ⟨prefilled,rolledBack,next,xs,hrun,honly,hsound,hview,hnew,hcount,hout⟩ :=
      reviseCache_ok hengine hs m.guardTokens (m.current event.sessionId).version hraised hinst.self
    refine ⟨(prefilled,rolledBack),next,xs,?_,honly,hsound,hview,hnew,hcount,?_⟩
    · have hkeep : ¬(event.type = .speakerRelabel ∨ event.type = .sessionClose) := hkind
      simp only [updateCache,if_neg hkeep]
      exact hrun
    · rw [cacheCounts,if_neg hkind]
      exact hout

/-- `invalidate` marks the branches that the revision reaches and reports their tasks. -/
theorem invalidate_effect (h : InOrder r) (event : STTEvent) (diff : TranscriptDiff) :
    ∃ ids g, onGraph (BranchGraph.invalidate event.sessionId diff.changedRange
        diff.newVersion) r = .ok ids { r with branches := g } ∧
      (∀ j, j ∈ ids ↔ Reached event diff r (branchIdOf j)) ∧
      Restatused (reviseBranch event diff) (fun _ t => t) (Reached event diff r) r
        { r with branches := g } := by
  obtain ⟨g,hinv,hg⟩ := BranchGraph.invalidate_ok event.sessionId diff.changedRange
    diff.newVersion h.sound h.named
  have hrefs : ∀ id, g.kv.view.branches id =
      if Reached event diff r id then none else r.kv.view.branches id := by
    intro id
    have hiff : (∃ b ∈ r.branches.branches.values, b.branchId = id ∧
        BranchGraph.stale event.sessionId diff.changedRange diff.newVersion b = true) ↔
        Reached event diff r id := by
      constructor
      · rintro ⟨b,hb,rfl,hst⟩
        exact ⟨b,h.named.get?_of_mem hb,hst⟩
      · rintro ⟨b,hb,hst⟩
        exact ⟨b,(Dict.mem_values_iff _ _).mpr ⟨id,hb⟩,h.named.branchId_eq hb,hst⟩
    rw [hg.references id]
    simp only [hiff]
    rfl
  refine ⟨_,g,onGraph_ok hinv,fun j => mem_invalidated h.named _ j,⟨rfl,rfl,rfl,fun id => ?_,
    fun j => by simp,hg.sound,fun id hid => ?_,fun id hid => ?_⟩,hg.sessions⟩
  · show g.branches.get? id = _
    rw [hg.branches id]
    cases hb : r.branches.branches.get? id with
    | none => rfl
    | some b =>
      have hv : b ∈ r.branches.branches.values := (Dict.mem_values_iff _ _).mpr ⟨id,hb⟩
      simp [hv,reviseBranch]
  · show g.kv.view.branches id = none
    rw [hrefs,if_pos hid]
  · show g.kv.view.branches id = _
    rw [hrefs,if_neg hid]

/-- Branches and tasks after an accepted event: every reached branch belongs to a task that
the scheduler knows, so that the loop of cancellations returns. -/
theorem invalidation_ok (hengine : c.engine.NeverRaises) {event : STTEvent} {diff : TranscriptDiff}
    {m : SessionManager} {session : ConversationSession}
    (h : Coherent m r.branches r.scheduler) (hm : Progress m r.sessions)
    (hacc : Accepted c.tokenizer event m session diff) :
    ∃ ids mid next, onGraph (BranchGraph.invalidate event.sessionId diff.changedRange
        diff.newVersion) r = .ok ids mid ∧ cancelInvalidated c ids mid = .ok () next ∧
      (∀ j, j ∈ ids ↔ Reached event diff r (branchIdOf j)) ∧
      (∀ j ∈ ids, ∃ t, r.scheduler.tasks.get? j = some t) ∧
      Restatused (reviseBranch event diff) (reviseTask event diff r) (Reached event diff r) r
        next := by
  obtain ⟨ids,g,hinv,hmem,heffect⟩ := invalidate_effect (h.orderly.sessions hm) event diff
  have hknown : ∀ j ∈ ids, ∃ t, r.scheduler.tasks.get? j = some t := by
    intro j hj
    obtain ⟨b,hb,hst⟩ := (hmem j).mp hj
    have hreq := stale_requires hacc (h.grounded _ b hb) hst
    obtain ⟨t,ht⟩ := h.known _ b hb (stale_active hst) hreq
    rw [← branchIdOf_injective (h.named _ b hb).2] at ht
    exact ⟨t,ht⟩
  obtain ⟨next,hcancel,hrev,hses,hbr,hgpu,-,htasks⟩ :=
    cancelInvalidated_ok (r := { r with branches := g }) hengine h.tasksNamed hknown
  have hkv : next.kv = g.kv := congrArg BranchGraph.kv hbr
  refine ⟨ids,_,next,hinv,hcancel,hmem,hknown,⟨hrev,hses,hgpu,fun id => ?_,fun j => ?_,
    hkv ▸ heffect.sound,fun id hid => ?_,fun id hid => ?_⟩,?_⟩
  · rw [hbr]
    exact heffect.branches id
  · rw [htasks j]
    simp only [hmem j]
    rfl
  · rw [hkv]
    exact heffect.dropped id hid
  · rw [hkv]
    exact heffect.kept id hid
  · rw [hkv]
    exact heffect.reads

/-- What an accepted event does to branches, tasks and references. -/
def Revised (event : STTEvent) (diff : TranscriptDiff) (r next : CueBeeRuntime S) : Prop :=
  StatusChange (reviseBranch event diff) (reviseTask event diff r) (Reached event diff r) r next

theorem Revised.inv {event : STTEvent} {diff : TranscriptDiff} {m : SessionManager}
    (h : Revised event diff r next) (hbase : Coherent m r.branches r.scheduler)
    (hm : Progress m r.sessions)
    (hagrees : ∀ s, Agrees (r.sessions.current s) (next.kv.view.sessions s)) : Inv next := by
  refine StatusChange.inv h hbase hm hagrees
    (fun id b _ => ⟨reviseBranch_same event diff id b,fun ha => ?_⟩)
    (fun j t _ => reviseTask_same event diff r j t) (fun id b hb hid ha => ?_)
    (fun j t b ht hb hp => ?_)
  · unfold reviseBranch at ha
    split at ha
    · cases ha
    · exact ha
  · unfold reviseBranch
    rw [if_neg (fun hst => hid ⟨b,hb,hst⟩)]
    exact ha
  · unfold reviseBranch reviseTask
    simp only [reached_iff hb]
    by_cases hst : BranchGraph.stale event.sessionId diff.changedRange diff.newVersion b = true
    · rw [if_pos hst,if_pos hst]
      exact hp.stopped (stale_active hst) (Or.inl rfl) (Or.inr rfl)
    · rw [if_neg hst,if_neg hst]
      exact hp

/-- The reply to an accepted event, and what the cache holds after it. -/
structure Replies (policy : TentativePrefillPolicy) (event : STTEvent) (diff : TranscriptDiff)
    (session : ConversationSession) (outcome : EventOutcome) (r next : CueBeeRuntime S) : Prop where
  accepted : outcome.accepted = true
  duplicateOrStale : outcome.duplicateOrStale = false
  reported : outcome.diff = some diff
  counts : (outcome.prefilledTokens,outcome.rollbackTokens) = cacheCounts policy r.gpuLoad event
    diff session (r.kv.view.sessions event.sessionId).length
  resident : (next.kv.view.sessions event.sessionId).length + outcome.rollbackTokens =
    (r.kv.view.sessions event.sessionId).length + outcome.prefilledTokens
  others : ∀ s, s ≠ event.sessionId → next.kv.view.sessions s = r.kv.view.sessions s

/-- Once `apply` has returned, `handle_event` returns and the invariant holds again. -/
theorem afterApply_ok (hengine : c.engine.NeverRaises) {event : STTEvent} {diff : TranscriptDiff}
    {m : SessionManager} {session : ConversationSession}
    (h : Coherent m r.branches r.scheduler)
    (hacc : Accepted c.tokenizer event m session diff)
    (hinst : Installed m r.sessions event.sessionId session) :
    ∃ outcome next, afterApply c event diff r = .ok outcome next ∧ Inv next ∧
      Revised event diff r next ∧
      (∀ j, j ∈ outcome.invalidatedTasks ↔ Reached event diff r (branchIdOf j)) ∧
      (∀ j ∈ outcome.invalidatedTasks, ∃ t, r.scheduler.tasks.get? j = some t) ∧
      Replies c.tentativePolicy event diff session outcome r next := by
  have hprog := hinst.progress hacc.advances
  have hcount : (inc MetricName.sttEventsAccepted 1 : EStateM RuntimeError (CueBeeRuntime S) Unit) r =
      .ok () { r with metrics := MetricRegistry.inc .sttEventsAccepted 1 r.metrics } := rfl
  obtain ⟨ids,r1,r2,hinv,hcancel,hmem,hknown,heffect⟩ := invalidation_ok (r := { r with
    metrics := MetricRegistry.inc .sttEventsAccepted 1 r.metrics }) hengine h hprog hacc
  have hagrees2 : Agrees (m.current event.sessionId) (r2.kv.view.sessions event.sessionId) := by
    rw [heffect.reads]
    exact h.agrees event.sessionId
  obtain ⟨out,r3,xs,hrevise,honly,hs3,hview3,hagrees3,hcount3,hout⟩ := updateCache_ok (r := r2) hengine
    heffect.sound hacc (heffect.sessions ▸ hinst) hagrees2
  have hvalid : onKV VersionedKVManager.validateRefCounts r3 = .ok () r3 :=
    onKV_ok (validateRefCounts_spec hs3.ledger)
  have hrevised := heffect.toStatusChange.onlyCache honly hs3 (by
    rw [hview3]
    rfl)
  have hchange : Revised event diff r r3 := ⟨hrevised.revisions,hrevised.sessions,hrevised.gpuLoad,
    hrevised.branches,hrevised.tasks,hrevised.sound,hrevised.dropped,hrevised.kept⟩
  have hread : ∀ s, r2.kv.view.sessions s = r.kv.view.sessions s := congrFun heffect.reads
  have hload : r2.gpuLoad = r.gpuLoad := heffect.gpuLoad
  refine ⟨⟨true,false,some diff,ids,out.1,out.2⟩,r3,?_,?_,hchange,hmem,hknown,⟨rfl,rfl,rfl,?_,?_,?_⟩⟩
  · simp only [afterApply,bind_ok hcount,bind_ok hinv,bind_ok hcancel,bind_ok hrevise,bind_ok hvalid]
    rfl
  · refine hchange.inv h hprog (fun s => ?_)
    rw [hview3]
    by_cases he : s = event.sessionId
    · subst he
      rw [NaiveKV.sessions_putSession_self,hinst.current_self]
      exact hagrees3
    · rw [NaiveKV.sessions_putSession_ne _ he,hinst.current_ne he,hread]
      exact h.agrees s
  · rw [← hread,← hload]
    exact hout
  · rw [hview3,NaiveKV.sessions_putSession_self,← hread]
    exact hcount3
  · intro s he
    rw [hview3,NaiveKV.sessions_putSession_ne _ he,hread]

theorem handleEvent_dropped {event : STTEvent} {a : RevisionAdapter}
    (hnorm : r.revisions.normalize event = (none,a)) :
    handleEvent c event r = .ok ⟨false,true,none,[],0,0⟩ { r with
      revisions := a, metrics := MetricRegistry.inc .sttEventsDropped 1 r.metrics } := by
  have h1 : (normalizeEvent event : EStateM RuntimeError (CueBeeRuntime S) _) r =
      .ok none { r with revisions := a } := by
    simp only [normalizeEvent,hnorm]
  simp only [handleEvent,bind_ok h1]
  rfl

theorem handleEvent_rejected {event e : STTEvent} {a : RevisionAdapter} {error : SessionError}
    {m : SessionManager} (hnorm : r.revisions.normalize event = (some e,a))
    (happly : SessionManager.apply c.tokenizer e r.sessions = .error error m) :
    handleEvent c event r = .error (.session error) { r with revisions := a, sessions := m } := by
  have h1 : (normalizeEvent event : EStateM RuntimeError (CueBeeRuntime S) _) r =
      .ok (some e) { r with revisions := a } := by
    simp only [normalizeEvent,hnorm]
  have h2 : onSessions (SessionManager.apply c.tokenizer e) { r with revisions := a } =
      .error (.session error) { r with revisions := a, sessions := m } := focus_error happly
  simp only [handleEvent,bind_ok h1]
  exact bind_error h2

theorem handleEvent_accepted {event e : STTEvent} {a : RevisionAdapter} {diff : TranscriptDiff}
    {m : SessionManager} (hnorm : r.revisions.normalize event = (some e,a))
    (happly : SessionManager.apply c.tokenizer e r.sessions = .ok diff m) :
    handleEvent c event r = afterApply c e diff { r with revisions := a, sessions := m } := by
  have h1 : (normalizeEvent event : EStateM RuntimeError (CueBeeRuntime S) _) r =
      .ok (some e) { r with revisions := a } := by
    simp only [normalizeEvent,hnorm]
  have h2 : onSessions (SessionManager.apply c.tokenizer e) { r with revisions := a } =
      .ok diff { r with revisions := a, sessions := m } := focus_ok happly
  simp only [handleEvent,bind_ok h1]
  exact bind_ok h2

/-- The three ways through `handle_event`. -/
inductive Handled (c : Services S) (event : STTEvent) (r : CueBeeRuntime S) : Prop
  | dropped (a : RevisionAdapter) (hnorm : r.revisions.normalize event = (none,a))
      (hrun : handleEvent c event r = .ok ⟨false,true,none,[],0,0⟩ { r with
        revisions := a, metrics := MetricRegistry.inc .sttEventsDropped 1 r.metrics })
  | rejected (e : STTEvent) (a : RevisionAdapter) (error : SessionError) (m : SessionManager)
      (hnorm : r.revisions.normalize event = (some e,a))
      (happly : SessionManager.apply c.tokenizer e r.sessions = .error error m)
      (hrun : handleEvent c event r = .error (.session error) { r with
        revisions := a, sessions := m })
  | accepted (e : STTEvent) (a : RevisionAdapter) (diff : TranscriptDiff) (m : SessionManager)
      (hnorm : r.revisions.normalize event = (some e,a))
      (happly : SessionManager.apply c.tokenizer e r.sessions = .ok diff m)
      (hrun : handleEvent c event r =
        afterApply c e diff { r with revisions := a, sessions := m })

theorem handled (c : Services S) (event : STTEvent) (r : CueBeeRuntime S) : Handled c event r := by
  cases hnorm : r.revisions.normalize event with
  | mk normalized a =>
    cases normalized with
    | none => exact .dropped a hnorm (handleEvent_dropped hnorm)
    | some e =>
      cases happly : SessionManager.apply c.tokenizer e r.sessions with
      | error error m => exact .rejected e a error m hnorm happly (handleEvent_rejected hnorm happly)
      | ok diff m => exact .accepted e a diff m hnorm happly (handleEvent_accepted hnorm happly)

theorem sameTranscript_rejected {tok : Tokenizer} {event : STTEvent} {m next : SessionManager}
    {e : SessionError} (h : SessionManager.apply tok event m = .error e next) (s : SessionId) :
    SameTranscript (m.current s) (next.current s) := by
  rcases apply_error h with hinst | hinst
  · by_cases hs : s = event.sessionId
    · rw [hs,hinst.current_self]
      exact .refl _
    · rw [hinst.current_ne hs]
      exact .refl _
  · by_cases hs : s = event.sessionId
    · rw [hs,hinst.current_self]
      exact ⟨rfl,rfl,rfl,rfl⟩
    · rw [hinst.current_ne hs]
      exact .refl _

theorem keeps_handleEvent (hengine : c.engine.NeverRaises) (event : STTEvent) :
    Keeps Inv (handleEvent c event) := by
  refine keeps_iff.mpr (fun r h => ?_)
  cases handled c event r with
  | dropped a hnorm hrun => exact Ensures.of_ok hrun h
  | rejected e a error m hnorm happly hrun =>
    have hprog := apply_progress c.tokenizer e r.sessions
    rw [after_error happly] at hprog
    exact Ensures.of_error hrun (Coherent.sessions h hprog (sameTranscript_rejected happly))
  | accepted e a diff m hnorm happly hrun =>
    obtain ⟨-,session,hacc,hinst⟩ := apply_ok happly
    obtain ⟨outcome,next,hafter,hnext,-,-⟩ := afterApply_ok
      (r := { r with revisions := a, sessions := m }) hengine h hacc hinst
    exact Ensures.of_ok (hrun.trans hafter) hnext

end CueBeeRuntime
end CueBee.Runtime
