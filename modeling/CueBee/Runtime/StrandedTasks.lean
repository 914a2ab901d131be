import CueBee.Runtime.OrderlyRuns

/-! # Tasks that a failed generation leaves running

`run_next` has moved the task and its branch to running when it calls the engine, and has
no handler for an exception. `NoneStranded` says that a later `run_next` can pick whoever is
active: a running task is never picked, a stale one is swept, and none is picked while the
score of a queued task overflows.
-/
namespace CueBee.Runtime
open Cache Transcript Raising PyStr SessionManager

namespace VersionDeadlineScheduler
variable {start q : VersionDeadlineScheduler PyFloat}

/-- `P` holds of every task. -/
def EachTask (P : TaskId → AnalysisTask PyFloat → Prop) (q : VersionDeadlineScheduler PyFloat) :
    Prop :=
  ∀ id task, q.tasks.get? id = some task → P id task

section EachTask
variable {P : TaskId → AnalysisTask PyFloat → Prop}

theorem EachTask.store (h : EachTask P q) {task : AnalysisTask PyFloat}
    (htask : P task.taskId task) : EachTask P (q.store task) := by
  intro id t hget
  rw [get?_store] at hget
  by_cases hid : id = task.taskId
  · rw [if_pos hid,Option.some.injEq] at hget
    rw [hid,← hget]
    exact htask
  · rw [if_neg hid] at hget
    exact h id t hget

/-- What holds of the ended tasks survives `cancel` and `shed_load`. -/
theorem eachTask_cancel (hP : ∀ id task, task.status.active = false → P id task) (id : TaskId)
    (reason : CancelReason) : Keeps (EachTask P) (cancel id reason) := by
  have hget : Keeps (EachTask P) (VersionDeadlineScheduler.get id) := by
    refine keeps_iff.mpr (fun q hq => ?_)
    unfold Ensures VersionDeadlineScheduler.get
    cases q.tasks.get? id with
    | none => exact hq
    | some task => exact hq
  refine keeps_bind hget (fun task => keeps_ite (fun _ => ?_) (fun _ => keeps_pure _))
  exact keeps_bind (keeps_modify (fun q hq => hq.store (hP _ _ rfl))) (fun _ => keeps_pure _)

theorem eachTask_shedLoop (hP : ∀ id task, task.status.active = false → P id task)
    (targetActive : ℤ) (queue : List (AnalysisTask PyFloat)) (h : EachTask P q) :
    EachTask P (shedLoop targetActive queue q).2 := by
  induction queue generalizing q with
  | nil => exact h
  | cons task rest ih =>
    rw [shedLoop]
    split
    · exact ih (h.store (hP _ _ rfl))
    · exact h

theorem eachTask_shedLoad (hP : ∀ id task, task.status.active = false → P id task)
    (targetActive : ℤ) : Keeps (EachTask P) (shedLoad targetActive) := by
  refine keeps_iff.mpr (fun q hq => ?_)
  unfold Ensures shedLoad
  by_cases htarget : targetActive < 0
  · rw [if_pos htarget]
    exact hq
  · rw [if_neg htarget]
    exact eachTask_shedLoop hP targetActive _ hq

end EachTask

/-- The active tasks are active tasks of `start`, unchanged. -/
def ActiveFrom (start : VersionDeadlineScheduler PyFloat) :
    VersionDeadlineScheduler PyFloat → Prop :=
  EachTask (fun id task => task.status.active = true → start.tasks.get? id = some task)

theorem activeFrom_of_ended (start : VersionDeadlineScheduler PyFloat) (id : TaskId)
    (task : AnalysisTask PyFloat) (hended : task.status.active = false)
    (hactive : task.status.active = true) : start.tasks.get? id = some task := by
  rw [hended] at hactive
  cases hactive

/-- The task of that id has ended, if there is one. -/
def Ended (j : TaskId) : VersionDeadlineScheduler PyFloat → Prop :=
  EachTask (fun id task => id = j → task.status.active = false)

theorem cancel_ended (hn : q.Named) (id : TaskId) (reason : CancelReason) :
    Ensures (cancel id reason) q (fun _ next => next.Named ∧ Ended id next)
      (fun _ _ => True) := by
  cases hget : q.tasks.get? id with
  | none =>
    have hunknown : VersionDeadlineScheduler.get id q = .error (.unknownTask id) q := by
      simp only [VersionDeadlineScheduler.get,hget]
    exact Ensures.of_error (bind_error hunknown) trivial
  | some task =>
    obtain ⟨next,hrun,hnamed,htasks⟩ := cancel_ok hn hget reason
    refine Ensures.of_ok hrun ⟨hnamed,?_⟩
    rintro _ t ht rfl
    rw [htasks,if_pos rfl,Option.some.injEq] at ht
    rw [← ht]
    exact task.stop_inactive (by decide) reason

end VersionDeadlineScheduler

namespace CueBeeRuntime
open VersionDeadlineScheduler (cancelStale staleBase Convertible ActiveFrom Ended)
variable {S : Type} {c : Services S} {r next : CueBeeRuntime S}

/-- A later `run_next` can pick the task: `pop_next` finds it among the candidates and can score
them all, and the branch can be marked running. -/
structure Pickable (r : CueBeeRuntime S) (task : AnalysisTask PyFloat) : Prop where
  candidate : task ∈ r.scheduler.candidates r.currentVersions
  scorable : r.scheduler.Scorable r.currentVersions
  branch : ∃ branch, r.branches.branches.get? (branchIdOf task.taskId) = some branch ∧
    branch.status = .queued

def NoneStranded (r : CueBeeRuntime S) : Prop :=
  ∀ id task, r.scheduler.tasks.get? id = some task → task.status.active = true → Pickable r task

/-- The task is back in the queue, or it has ended and its references are released. -/
inductive Recovered (r : CueBeeRuntime S) (taskId : TaskId) : Prop
  | requeued (task : AnalysisTask PyFloat) (branch : Branch)
      (htask : r.scheduler.tasks.get? taskId = some task)
      (hbranch : r.branches.branches.get? (branchIdOf taskId) = some branch)
      (hqueued : task.status = .queued) (hqueued' : branch.status = .queued)
  | ended (task : AnalysisTask PyFloat) (branch : Branch)
      (htask : r.scheduler.tasks.get? taskId = some task)
      (hbranch : r.branches.branches.get? (branchIdOf taskId) = some branch)
      (hended : task.status.active = false) (hended' : branch.status.active = false)
      (hreleased : r.kv.view.branches (branchIdOf taskId) = none)

/-- The prompt of the task that `run_next` selects is encoded, and the engine answers it. -/
def Answered (c : Services S) (now : PyFloat) (r : CueBeeRuntime S) : Prop :=
  ∀ task q, VersionDeadlineScheduler.popNext r.currentVersions now r.scheduler =
      .ok (some task) q →
    ∀ branch session, r.branches.branches.get? (branchIdOf task.taskId) = some branch →
    r.sessions.sessions.get? task.sessionId = some session →
    ∃ promptTokens result e,
      c.tokenizer.encode (promptOf task branch session) = some promptTokens ∧
      c.engine.generate (newRequest task (promptOf task branch session) promptTokens) r.engine =
        .ok result e

/-- No generation fails, and the integers of a task that is submitted fit into floats. -/
def AnsweredCall (c : Services S) : Call → CueBeeRuntime S → Prop
  | .runNext now, r => Answered c now r
  | .submitTask a, r => ∀ task, outcome (submitTask c a) r = .ok task → Convertible task
  | _, _ => True

/-- An event is handled to the end, or no queued task depends on the version of its session. -/
def Undisturbed (c : Services S) : Call → CueBeeRuntime S → Prop
  | .handleEvent event, r => (∃ o, outcome (handleEvent c event) r = .ok o) ∨
      ∀ id task, r.scheduler.tasks.get? id = some task → task.status = .queued →
        task.sessionId = event.sessionId → task.requiresCurrentVersion = false
  | _, _ => True

/-- An active task waits for `run_next`, which neither sweeps it nor fails on it. -/
def Ready (currentVersions : SessionId → Option ℕ) (task : AnalysisTask PyFloat) : Prop :=
  task.status.active = true →
    task.status = .queued ∧ staleBase currentVersions task = false ∧ Convertible task

def AllReady (r : CueBeeRuntime S) : Prop :=
  ∀ id task, r.scheduler.tasks.get? id = some task → Ready r.currentVersions task

theorem noneStranded_iff (h : InOrder r) : NoneStranded r ↔ AllReady r := by
  constructor
  · intro hn id task ht ha
    have hpick := hn id task ht ha
    obtain ⟨hget,hqueued,hfresh⟩ :=
      (VersionDeadlineScheduler.mem_candidates_iff h.tasksNamed).mp hpick.candidate
    exact ⟨hqueued,hfresh,hpick.scorable _ task hget hqueued hfresh⟩
  · intro hready id task ht ha
    obtain ⟨hqueued,hfresh,-⟩ := hready id task ht ha
    have hid : task.taskId = id := h.tasksNamed id task ht
    obtain ⟨branch,hb,-,hbq⟩ := Orderly.queued_branch h ht hqueued hfresh
    refine ⟨(VersionDeadlineScheduler.mem_candidates_iff h.tasksNamed).mpr
      ⟨by rw [hid]; exact ht,hqueued,hfresh⟩,fun j t hj hq _ => ?_,branch,by rw [hid]; exact hb,hbq⟩
    exact (hready j t hj (by rw [hq]; rfl)).2.2

/-- The tasks that stay active stay ready as long as no version moves that they require. -/
theorem AllReady.activeFrom (h : AllReady r) (hfrom : ActiveFrom r.scheduler next.scheduler)
    (hversions : ∀ id task, next.scheduler.tasks.get? id = some task → task.status = .queued →
      task.requiresCurrentVersion = true →
      next.currentVersions task.sessionId = r.currentVersions task.sessionId) :
    AllReady next := by
  intro id task ht ha
  obtain ⟨hqueued,hfresh,hconv⟩ := h id task (hfrom id task ht ha) ha
  refine ⟨hqueued,?_,hconv⟩
  cases hreq : task.requiresCurrentVersion with
  | false => simp [staleBase,hreq]
  | true =>
    rw [staleBase,hversions id task ht hqueued hreq]
    exact hfresh

/-- A task that `pop_next` does not pick stays ready. -/
theorem ready_popTask {popped : Option TaskId} {j : TaskId} {t : AnalysisTask PyFloat}
    (hj : popped ≠ some j) (ht : Ready r.currentVersions t) :
    Ready r.currentVersions (popTask r.currentVersions popped j t) := by
  unfold popTask
  rw [if_neg hj]
  unfold cancelStale
  split
  · exact fun ha => by cases ha
  · exact ht

/-- The task that was popped is left running. -/
theorem Popping.left_running {task : AnalysisTask PyFloat} {branch : Branch}
    {session : ConversationSession} (h : Popping task branch session r next) :
    ∃ t, next.scheduler.tasks.get? task.taskId = some t ∧ t.status = .running := by
  obtain ⟨before,hget,-,-⟩ := h.source
  refine ⟨popTask r.currentVersions (some task.taskId) task.taskId before,?_,?_⟩
  · rw [h.effect.tasks,hget]
    rfl
  · rw [popTask,if_pos rfl]

theorem Popping.not_recovered {task : AnalysisTask PyFloat} {branch : Branch}
    {session : ConversationSession} (h : Popping task branch session r next) (e : S) :
    ¬Recovered { next with engine := e } task.taskId := by
  obtain ⟨t,ht,hrunning⟩ := h.left_running
  rintro (⟨t',b,ht',hb,hqueued,-⟩ | ⟨t',b,ht',hb,hended,-,-⟩)
  · rw [Option.some.inj (ht.symm.trans ht')] at hrunning
    rw [hrunning] at hqueued
    cases hqueued
  · rw [Option.some.inj (ht.symm.trans ht')] at hrunning
    rw [hrunning] at hended
    cases hended

theorem Popping.not_ready {task : AnalysisTask PyFloat} {branch : Branch}
    {session : ConversationSession} (h : Popping task branch session r next) : ¬AllReady next := by
  intro hready
  obtain ⟨t,ht,hrunning⟩ := h.left_running
  obtain ⟨hqueued,-,-⟩ := hready _ t ht (by rw [hrunning]; rfl)
  rw [hrunning] at hqueued
  cases hqueued

/-- `pop_next` scores all candidates when they are ready. -/
theorem AllReady.scorable (h : AllReady r) : r.scheduler.Scorable r.currentVersions :=
  fun id task ht hqueued _ => (h id task ht (by rw [hqueued]; rfl)).2.2

/-- A call of `run_next` leaves every active task ready exactly if its task is answered. -/
theorem ready_runNext_iff (h : InOrder r) (hready : AllReady r) (now : PyFloat) :
    AllReady (after (runNext c now) r) ↔ Answered c now r := by
  have hsessions : (after (runNext c now) r).sessions = r.sessions := by
    have haloof : Aloof (fun t : CueBeeRuntime S => t.sessions = r.sessions) :=
      ⟨fun _ _ h => h,fun _ _ h => h,fun _ _ h => h,fun _ _ h => h⟩
    exact haloof.frame.steps.runNext now r rfl
  cases ran c now h with
  | overflow q hpop heffect hrun =>
    exact absurd hready.scorable
      ((VersionDeadlineScheduler.popNext_overflow_iff h.tasksNamed now).mp ⟨_,_,hpop⟩)
  | idle q hpop heffect hrun =>
    rw [after_ok hrun]
    refine iff_of_true (fun id task ht => ?_) (fun task q' hpop' => ?_)
    · obtain ⟨t,ht',rfl⟩ := Option.map_eq_some_iff.mp ((heffect.tasks id).symm.trans ht)
      exact ready_popTask (by simp) (hready id t ht')
    · rw [hpop] at hpop'
      cases hpop'
  | unencodable task q branch session next hpop hpopping hencode hrun =>
    rw [after_error hrun]
    refine iff_of_false hpopping.not_ready (fun hans => ?_)
    obtain ⟨promptTokens,result,e,he,-⟩ := hans task q hpop branch session hpopping.found
      hpopping.session
    rw [hencode] at he
    cases he
  | failed task q branch session promptTokens error e next hpop hpopping hencode hgen hrun =>
    rw [after_error hrun]
    refine iff_of_false hpopping.not_ready (fun hans => ?_)
    obtain ⟨promptTokens',result,e',he,hgen'⟩ := hans task q hpop branch session hpopping.found
      hpopping.session
    rw [hencode] at he
    cases he
    rw [hgen] at hgen'
    cases hgen'
  | landed task q branch session promptTokens result e mid outcome next hpop hpopping hencode hgen
      hsince hlanded hothers hrun =>
    rw [after_ok hrun] at hsessions ⊢
    refine iff_of_true (fun id t ht ha => ?_) (fun task' q' hpop' branch' session' hb hs => ?_)
    · have hid : id ≠ task.taskId := by
        rintro rfl
        rw [hlanded t ht] at ha
        cases ha
      rw [hothers id hid,hpopping.effect.tasks] at ht
      obtain ⟨t',ht',rfl⟩ := Option.map_eq_some_iff.mp ht
      have hkept := ready_popTask (fun he => hid (Option.some.inj he).symm) (hready id t' ht') ha
      unfold currentVersions at hkept ⊢
      rwa [hsessions]
    · rw [hpop] at hpop'
      cases hpop'
      rw [hpopping.found] at hb
      rw [hpopping.session] at hs
      cases hb
      cases hs
      exact ⟨promptTokens,result,e,hencode,hgen⟩

/-- A submission leaves every active task ready exactly if its own task can be scored. -/
theorem ready_submitTask_iff (a : Submission) (h : InOrder r) (hready : AllReady r) :
    AllReady (after (submitTask c a) r) ↔
      ∀ task, outcome (submitTask c a) r = .ok task → Convertible task := by
  have hnot : ∀ {e : RuntimeError} {next : CueBeeRuntime S}, submitTask c a r = .error e next →
      next.sessions = r.sessions → next.scheduler = r.scheduler →
      (AllReady (after (submitTask c a) r) ↔
        ∀ task, outcome (submitTask c a) r = .ok task → Convertible task) := by
    intro e next hrun hsessions htasks
    rw [after_error hrun,outcome_error hrun]
    refine iff_of_true ?_ (fun task ho => by cases ho)
    unfold AllReady currentVersions
    rw [hsessions,htasks]
    exact hready
  cases submitted c a h with
  | unknownSession hget hrun | branchExists session branch hget hbranch hrun =>
    exact hnot hrun rfl rfl
  | abandoned session e tokens next hget hnew hfail he hadded htasks hrun
  | refused session e next hget hnew hadded htasks hrun =>
    exact hnot hrun hadded.sessions htasks
  | accepted session promptTokens deadline next hget hnew hencode hadded hdeadline htasks hrun =>
    rw [after_ok hrun,outcome_ok hrun]
    have hversions : next.currentVersions = r.currentVersions := by
      unfold currentVersions
      rw [hadded.sessions]
    have hself : next.scheduler.tasks.get? (resolvedTaskId a) =
        some (newTask a session (submittedBranch a session) deadline) := by
      rw [htasks,VersionDeadlineScheduler.get?_store]
      exact if_pos rfl
    constructor
    · intro hnext task ho
      cases ho
      exact (hnext _ _ hself rfl).2.2
    · intro hconv id t ht
      rw [htasks,VersionDeadlineScheduler.get?_store] at ht
      by_cases hid : id = resolvedTaskId a
      · subst hid
        obtain rfl : newTask a session (submittedBranch a session) deadline = t :=
          Option.some.inj ((if_pos rfl).symm.trans ht)
        refine fun _ => ⟨rfl,?_,hconv _ rfl⟩
        simp [staleBase,newTask,submittedBranch,currentVersions,hadded.sessions,hget]
      · rw [hversions]
        exact hready id t ((if_neg hid).symm.trans ht)

section Events
variable {event : STTEvent} {diff : TranscriptDiff} {m : SessionManager}
  {session : ConversationSession}

/-- The loop of cancellations, when it returns, has ended every task of its list. -/
theorem cancelInvalidated_ended (ids : List TaskId) (hn : r.scheduler.Named) :
    Ensures (cancelInvalidated c ids) r (fun _ next => ∀ j ∈ ids, Ended j next.scheduler)
      (fun _ _ => True) := by
  induction ids generalizing r with
  | nil => exact Ensures.of_ok rfl (fun j hj => by cases hj)
  | cons id rest ih =>
    have hended : ∀ (j : TaskId) (task : AnalysisTask PyFloat), task.status.active = false →
        (j = id → task.status.active = false) := fun _ _ hended _ => hended
    have hrest : Keeps (fun t : CueBeeRuntime S => Ended id t.scheduler)
        (cancelInvalidated c rest) :=
      tasks_cancelInvalidated (VersionDeadlineScheduler.eachTask_cancel hended) rest
    have habort : Keeps (fun t : CueBeeRuntime S => t.scheduler.Named ∧ Ended id t.scheduler)
        (onEngine (c.engine.abort id)) := keeps_onEngine (fun _ _ h => h) _
    have hcancel : Ensures (onScheduler (VersionDeadlineScheduler.cancel id .transcriptRevision)) r
        (fun _ t => t.scheduler.Named ∧ Ended id t.scheduler) (fun _ _ => True) :=
      ensures_focus.mpr (VersionDeadlineScheduler.cancel_ended hn id _)
    refine Ensures.bind hcancel (fun _ r1 h1 => ?_)
    have hcount : Keeps (fun t : CueBeeRuntime S => t.scheduler.Named ∧ Ended id t.scheduler)
        (inc .tasksInvalidated 1) := keeps_modify (fun _ h => h)
    refine Ensures.bind ((keeps_iff.mp habort r1 h1).mono (fun _ _ h => h) (fun _ _ _ => trivial))
      (fun _ r2 h2 => ?_)
    refine Ensures.bind ((keeps_iff.mp hcount r2 h2).mono (fun _ _ h => h) (fun _ _ _ => trivial))
      (fun _ r3 h3 => ?_)
    cases hrun : cancelInvalidated c rest r3 with
    | error e r4 => exact Ensures.of_error hrun trivial
    | ok u r4 =>
      refine Ensures.of_ok hrun (fun j hj => ?_)
      rcases List.mem_cons.mp hj with rfl | hj
      · exact hrest.ok h3.2 hrun
      · exact (ih h3.1).ok hrun j hj

/-- An event that is handled to the end has ended the tasks of the branches that it reaches. -/
theorem afterApply_ended (h : InOrder r) (event : STTEvent) (diff : TranscriptDiff) :
    Ensures (afterApply c event diff) r
      (fun _ next => ∀ j, Reached event diff r (branchIdOf j) → Ended j next.scheduler)
      (fun _ _ => True) := by
  have hcount : (inc MetricName.sttEventsAccepted 1 : EStateM RuntimeError (CueBeeRuntime S) Unit) r =
      .ok () { r with metrics := MetricRegistry.inc .sttEventsAccepted 1 r.metrics } := rfl
  obtain ⟨ids,g,hrun,hmem,-⟩ := invalidate_effect (r := { r with
    metrics := MetricRegistry.inc .sttEventsAccepted 1 r.metrics }) h event diff
  have hcache : CacheFrame (fun t : CueBeeRuntime S => ∀ j ∈ ids, Ended j t.scheduler) :=
    cacheFrame_of (fun _ _ hr => hr) (fun _ _ hr => hr) (fun _ _ hr => hr)
  have hvalidate : Keeps (fun t : CueBeeRuntime S => ∀ j ∈ ids, Ended j t.scheduler)
      (onKV VersionedKVManager.validateRefCounts) := keeps_onKV (fun _ _ hr => hr) _
  refine ensures_bind.mpr (Ensures.of_ok hcount (ensures_bind.mpr (Ensures.of_ok hrun ?_)))
  refine Ensures.bind (cancelInvalidated_ended ids h.tasksNamed) (fun _ r1 h1 => ?_)
  refine Ensures.bind ((keeps_iff.mp (hcache.updateCache event diff) r1 h1).mono
    (fun _ _ h => h) (fun _ _ _ => trivial)) (fun out r2 h2 => ?_)
  refine Ensures.bind ((keeps_iff.mp hvalidate r2 h2).mono (fun _ _ h => h) (fun _ _ _ => trivial))
    (fun _ r3 h3 => ?_)
  exact Ensures.of_ok rfl (fun j hj => h3 j ((hmem j).mpr hj))

/-- The branch of a ready task that requires the version of its session is reached. -/
theorem reached_of_ready (h : InOrder r) (hacc : Accepted c.tokenizer event r.sessions session diff)
    {id : TaskId} {task : AnalysisTask PyFloat} (ht : r.scheduler.tasks.get? id = some task)
    (hqueued : task.status = .queued) (hfresh : staleBase r.currentVersions task = false)
    (hreq : task.requiresCurrentVersion = true) (hsid : task.sessionId = event.sessionId) :
    Reached event diff r (branchIdOf id) := by
  obtain ⟨branch,hb,ha,hbq⟩ := Orderly.queued_branch h ht hqueued hfresh
  obtain ⟨before,hget,-,-⟩ := (h.grounded _ branch hb).session
  have hbase : task.baseVersion = before.version := by
    rw [← ha.sessionId] at hget
    simp [staleBase,hqueued,hreq,currentVersions,hget] at hfresh
    exact hfresh.symm
  have hnew : diff.newVersion = (r.sessions.current event.sessionId).version + 1 :=
    hacc.version_eq.2.trans hacc.version_eq.1
  rw [← ha.sessionId,hsid] at hget
  rw [current_of_some hget] at hnew
  have hne : branch.baseVersion ≠ diff.newVersion := by
    rw [← ha.baseVersion,hbase,hnew]
    exact (Nat.lt_succ_self _).ne
  refine ⟨branch,hb,?_⟩
  simp [BranchGraph.stale,← ha.sessionId,hsid,hbq,← ha.requiresCurrentVersion,hreq,hne,
    BranchStatus.active]

/-- `handle_event` leaves the other sessions. -/
theorem handleEvent_others (event : STTEvent) {s : SessionId} (hs : s ≠ event.sessionId) :
    (after (handleEvent c event) r).sessions.sessions.get? s = r.sessions.sessions.get? s := by
  have hsid : ∀ {e : STTEvent} {a : RevisionAdapter},
      r.revisions.normalize event = (some e,a) → s ≠ e.sessionId := by
    intro e a hnorm
    obtain ⟨-,-,hrelabel,-⟩ := RevisionAdapter.normalize_some hnorm
    rw [hrelabel]
    exact hs
  cases handled c event r with
  | dropped a hnorm hrun => rw [after_ok hrun]
  | rejected e a error m hnorm happly hrun =>
    rw [after_error hrun]
    rcases apply_error happly with hinst | hinst
    all_goals exact (hinst.sessions s).trans (if_neg (hsid hnorm))
  | accepted e a diff m hnorm happly hrun =>
    obtain ⟨-,session,-,hinst⟩ := apply_ok happly
    have haloof : Aloof (fun t : CueBeeRuntime S => t.sessions = m) :=
      ⟨fun _ _ h => h,fun _ _ h => h,fun _ _ h => h,fun _ _ h => h⟩
    have hsessions : (after (handleEvent c event) r).sessions = m := by
      rw [after,hrun]
      exact haloof.afterApply e diff _ rfl
    rw [hsessions]
    exact (hinst.sessions s).trans (if_neg (hsid hnorm))

theorem ready_handleEvent (event : STTEvent) (h : InOrder r) (hready : AllReady r)
    (hevent : Undisturbed c (.handleEvent event) r) :
    AllReady (after (handleEvent c event) r) := by
  have hfrom : ActiveFrom r.scheduler (after (handleEvent c event) r).scheduler :=
    tasks_handleEvent (VersionDeadlineScheduler.eachTask_cancel
      (VersionDeadlineScheduler.activeFrom_of_ended r.scheduler)) event r (fun _ _ ht _ => ht)
  refine hready.activeFrom hfrom (fun id task ht hqueued hreq => ?_)
  have hold := hfrom id task ht (by rw [hqueued]; rfl)
  obtain ⟨-,hfresh,-⟩ := hready id task hold (by rw [hqueued]; rfl)
  by_cases hsid : task.sessionId = event.sessionId
  · rcases hevent with ⟨o,ho⟩ | hnone
    · cases handled c event r with
      | dropped a hnorm hrun =>
        rw [after_ok hrun]
        rfl
      | rejected e a error m hnorm happly hrun =>
        rw [outcome_error hrun] at ho
        cases ho
      | accepted e a diff m hnorm happly hrun =>
        obtain ⟨-,-,hrelabel,-⟩ := RevisionAdapter.normalize_some hnorm
        obtain ⟨-,session,hacc,hinst⟩ := apply_ok happly
        have hreached := reached_of_ready h hacc hold hqueued hfresh hreq
          (hsid.trans (by rw [hrelabel]; rfl))
        cases hafter : afterApply c e diff { r with revisions := a, sessions := m } with
        | error error next =>
          rw [outcome_error (hrun.trans hafter)] at ho
          cases ho
        | ok o' next =>
          have hended := (afterApply_ended (c := c) (r := { r with revisions := a, sessions := m })
            (Orderly.sessions h (hinst.progress hacc.advances)) e diff).ok hafter id hreached
          rw [after_ok (hrun.trans hafter)] at ht
          have hstopped := hended id task ht rfl
          rw [hqueued] at hstopped
          cases hstopped
    · rw [hnone id task hold hqueued hsid] at hreq
      cases hreq
  · exact congrArg (Option.map ConversationSession.version) (handleEvent_others event hsid)

end Events

/-- One call keeps every active task pickable exactly if nothing fails in it. -/
theorem ready_exec_iff (call : Call) (h : InOrder r) (hready : AllReady r)
    (hcall : Undisturbed c call r) :
    AllReady (after (exec c call) r) ↔ AnsweredCall c call r := by
  cases call with
  | handleEvent event =>
    rw [exec,after_discard]
    exact iff_of_true (ready_handleEvent event h hready hcall) trivial
  | submitTask a =>
    rw [exec,after_discard]
    exact ready_submitTask_iff a h hready
  | runNext now =>
    rw [exec,after_discard]
    exact ready_runNext_iff h hready now
  | shedLoad targetActive =>
    have haloof : Aloof (fun t : CueBeeRuntime S => t.sessions = r.sessions) :=
      ⟨fun _ _ h => h,fun _ _ h => h,fun _ _ h => h,fun _ _ h => h⟩
    have hsessions := haloof.frame (c := c) |>.steps.shedLoad targetActive r rfl
    have hfrom : ActiveFrom r.scheduler (after (shedLoad targetActive) r).scheduler :=
      tasks_shedLoad (VersionDeadlineScheduler.eachTask_shedLoad
        (VersionDeadlineScheduler.activeFrom_of_ended r.scheduler)) targetActive r
        (fun _ _ ht _ => ht)
    rw [exec,after_discard]
    refine iff_of_true (hready.activeFrom hfrom (fun id task _ _ _ => ?_)) trivial
    rw [currentVersions,hsessions,currentVersions]
  | setGpuLoad load => exact iff_of_true hready trivial

/-- Nothing fails that could strand a task. -/
theorem answered_of_total (htok : c.tokenizer.Total) (hengine : c.engine.NeverRaises) (now : PyFloat)
    (r : CueBeeRuntime S) : Answered c now r := by
  intro task q _ branch session _ _
  obtain ⟨promptTokens,hencode⟩ :=
    Option.ne_none_iff_exists'.mp (htok (promptOf task branch session))
  obtain ⟨result,e,hgen⟩ := hengine.generate
    (newRequest task (promptOf task branch session) promptTokens) r.engine
  exact ⟨promptTokens,result,e,hencode,hgen⟩

theorem convertible_of_outcome {x : EStateM RuntimeError (CueBeeRuntime S) (AnalysisTask PyFloat)}
    (hx : (outcome x r).map (fun task => decide (Convertible task)) = .ok true)
    (task : AnalysisTask PyFloat) (ho : outcome x r = .ok task) : Convertible task := by
  rw [ho] at hx
  exact of_decide_eq_true (by injection hx)

end CueBeeRuntime
open CueBeeRuntime

/-- Part one is about a single generation, part two about the events and generations of a run. -/
theorem failed_generations_strand {S : Type} (c : Services S) (blockSize : ℕ)
    (hblock : 0 < blockSize) (admissionCap : ℕ) (hcap : 0 < admissionCap) (e : S)
    (calls : List Call) :
    let start := init blockSize hblock admissionCap hcap e
    (∀ now error next,
      runNext c now (runAll (exec c) calls start) = .error (.engine error) next →
      ∃ task q, VersionDeadlineScheduler.popNext (runAll (exec c) calls start).currentVersions now
        (runAll (exec c) calls start).scheduler = .ok (some task) q ∧
        ¬Recovered next task.taskId) ∧
    (RunMeets (exec c) (Undisturbed c) calls start →
      (RunMeets (exec c) (fun call r => NoneStranded (after (exec c call) r)) calls start ↔
        RunMeets (exec c) (AnsweredCall c) calls start)) := by
  intro start
  have hstart : InOrder start := inOrder_init blockSize hblock admissionCap hcap e
  refine ⟨fun now error next hrun => ?_,fun hevents => ?_⟩
  · have h : InOrder (runAll (exec c) calls start) := (since_run calls hstart).inOrder
    cases ran c now h with
    | failed task q branch session promptTokens error' e' mid hpop hpopping hencode hgen hrun' =>
      rw [hrun] at hrun'
      cases hrun'
      exact ⟨task,q,hpop,hpopping.not_recovered e'⟩
    | overflow q hpop heffect hrun' | idle q hpop heffect hrun' =>
      rw [hrun] at hrun'
      cases hrun'
    | unencodable task q branch session mid hpop hpopping hencode hrun' =>
      rw [hrun] at hrun'
      cases hrun'
    | landed task q branch session promptTokens result e' mid outcome last hpop hpopping hencode
        hgen hsince hlanded hothers hrun' =>
      rw [hrun] at hrun'
      cases hrun'
  · have horder : ∀ {call : Call} {r : CueBeeRuntime S}, InOrder r → InOrder (after (exec c call) r) :=
      fun {call r} h => (since_exec call r (.refl h)).inOrder
    refine runMeets_congr_of (I := fun r => InOrder r ∧ AllReady r)
      (fun call r hr hcall => (noneStranded_iff (horder hr.1)).trans
        (ready_exec_iff call hr.1 hr.2 hcall))
      (fun call r hr _ hn => ⟨horder hr.1,(noneStranded_iff (horder hr.1)).mp hn⟩) calls
      ⟨hstart,fun id task ht => by cases ht⟩ hevents

/-- With an engine that answers, no task is stranded. -/
theorem failed_generations_strand_answered :
    let c := quietServices lenientTokenizer
    RunMeets (exec c) (fun call r => NoneStranded (after (exec c call) r))
      [.handleEvent (heard "g" 0 .commitFinal "hi" (by decide) (by decide)),
        .submitTask (asked "first" .userQuery (lit "why")),
        .submitTask (asked "hint" .proactiveHint (lit "?")),.runNext (.fin 1),
        .handleEvent (heard "h" 0 .commitFinal "there" (by decide) (by decide))]
      (init 4 (by decide) 2 (by decide) ()) := by
  intro c
  refine ((failed_generations_strand c 4 (by decide) 2 (by decide) () _).2 ?_).mpr ?_
  · refine ⟨Or.inr (fun _ _ ht => by cases ht),trivial,trivial,trivial,Or.inl ?_,trivial⟩
    refine (exists_of_outcome (f := EventOutcome.accepted) (b := true) ?_).imp
      (fun o ⟨_,hrun,_⟩ => outcome_ok hrun)
    decide +kernel
  · exact ⟨trivial,convertible_of_outcome (by decide +kernel),
      convertible_of_outcome (by decide +kernel),
      answered_of_total lenientTokenizer_total quietEngine_neverRaises _ _,trivial,trivial⟩

/-- An engine that fails every generation. -/
def failingEngine : Engine Unit :=
  { quietEngine with generate := fun _ => throw ⟨lit "inference request failed"⟩ }

/-- The failed query is left running and fills the only slot. -/
theorem failed_query_stranded :
    let c : Services Unit := { quietServices utf8Tokenizer with engine := failingEngine }
    let r := runAll (exec c) [.handleEvent (heard "g" 0 .commitFinal "hi" (by decide) (by decide)),
      .submitTask (asked "first" .userQuery (lit "why"))] (init 4 (by decide) 1 (by decide) ())
    let next := after (runNext c (.fin 1)) r
    outcome (runNext c (.fin 1)) r = .error (.engine ⟨lit "inference request failed"⟩) ∧
    ¬Recovered next (lit "first") ∧ ¬NoneStranded next ∧
    outcome (runNext c (.fin 2)) next = .ok none ∧
    outcome (submitTask c (asked "second" .userQuery (lit "how"))) (after (runNext c (.fin 2)) next) =
      .error (.scheduler .admissionCap) := by
  intro c r next
  have hrunning : (next.scheduler.tasks.get? (lit "first")).map AnalysisTask.status =
      some .running := by decide +kernel
  obtain ⟨task,ht,hs⟩ := Option.map_eq_some_iff.mp hrunning
  refine ⟨by decide +kernel,?_,fun hn => ?_,by decide +kernel,by decide +kernel⟩
  · rintro (⟨t,b,ht',hb,hqueued,-⟩ | ⟨t,b,ht',hb,hended,-,-⟩)
    · rw [ht] at ht'
      cases ht'
      rw [hs] at hqueued
      cases hqueued
    · rw [ht] at ht'
      cases ht'
      rw [hs] at hended
      cases hended
  · have hcandidate := (hn _ task ht (by rw [hs]; rfl)).candidate
    have hqueued : task.status = .queued := by
      simpa using (List.mem_filter.mp hcandidate).2
    rw [hs] at hqueued
    cases hqueued

end CueBee.Runtime
