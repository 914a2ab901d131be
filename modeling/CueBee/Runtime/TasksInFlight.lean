import CueBee.Runtime.OrderlyRuns

/-! # Tasks in flight

A task whose output is being generated stays in flight through every method that other callers
run, whether the method returns or raises: its record is kept, and its branch runs until an event
invalidates it. This needs no more than the order of `OrderlyRuns`.
-/
namespace CueBee.Runtime
open Cache Transcript Raising ConversationSession SessionManager

namespace VersionDeadlineScheduler
variable {q : VersionDeadlineScheduler PyFloat} {j : TaskId}

/-- No task has the id `j`. -/
def Absent (j : TaskId) (q : VersionDeadlineScheduler PyFloat) : Prop := q.Named ∧ q.tasks.get? j = none

theorem absent_cancel (id : TaskId) (reason : CancelReason) : Keeps (Absent j) (cancel id reason) := by
  refine keeps_iff.mpr (fun q hq => ?_)
  cases hget : q.tasks.get? id with
  | none =>
    have hunknown : VersionDeadlineScheduler.get id q = .error (.unknownTask id) q := by
      simp only [VersionDeadlineScheduler.get,hget]
    exact Ensures.of_error (bind_error hunknown) hq
  | some task =>
    obtain ⟨next,hrun,hnamed,htasks⟩ := cancel_ok hq.1 hget reason
    have hj : j ≠ id := by
      rintro rfl
      rw [hq.2] at hget
      cases hget
    exact Ensures.of_ok hrun ⟨hnamed,by rw [htasks,if_neg hj,hq.2]⟩

theorem absent_shedLoad (targetActive : ℤ) : Keeps (Absent j) (shedLoad targetActive) := by
  refine keeps_iff.mpr (fun q hq => ?_)
  by_cases htarget : targetActive < 0
  · exact Ensures.of_error (shedLoad_negative htarget) hq
  · obtain ⟨dropped,next,hrun,hshed⟩ := shedLoad_ok hq.1 (not_lt.mp htarget)
    exact Ensures.of_ok hrun ⟨hshed.named,by rw [hshed.tasks,hq.2]; rfl⟩

end VersionDeadlineScheduler

namespace CueBeeRuntime
variable {S : Type} {c : Services S} {start r next : CueBeeRuntime S} {flight : Flight}
  {fb : BranchId → Branch → Branch} {ft : TaskId → AnalysisTask PyFloat → AnalysisTask PyFloat}
  {released : BranchId → Prop}

theorem InFlight.congr (h : InFlight r flight)
    (hb : next.branches.branches = r.branches.branches) (hq : next.scheduler = r.scheduler) :
    InFlight next flight where
  branchId := h.branchId
  task := hq ▸ h.task
  branch := hb ▸ h.branch
  runs := by
    rw [hb,hq]
    exact h.runs

/-- A task stays in flight as long as it is not touched and its running branch is only ever
invalidated. -/
theorem InFlight.lasting (h : InFlight r flight) (hl : Lasting r next)
    (htask : next.scheduler.tasks.get? flight.task.taskId =
      r.scheduler.tasks.get? flight.task.taskId)
    (hrunning : ∀ b b', r.branches.branches.get? flight.branchId = some b →
      next.branches.branches.get? flight.branchId = some b' → b.status = .running →
      b'.status = .running ∨ b'.status = .invalidated) : InFlight next flight where
  branchId := h.branchId
  task := htask ▸ h.task
  branch := by
    obtain ⟨b,hb,hstatus⟩ := h.branch
    obtain ⟨b',hb',-,hlater⟩ := hl.branches _ b hb
    refine ⟨b',hb',?_⟩
    rcases hstatus with hr | hi
    · exact hrunning b b' hb hb' hr
    · exact Or.inr ((hlater.final (by rw [hi]; rfl)).trans hi)
  runs t b' ht hb' hr' := by
    obtain ⟨b,hb,hstatus⟩ := h.branch
    obtain ⟨last,hlast,-,hlater⟩ := hl.branches _ b hb
    rw [hb',Option.some.injEq] at hlast
    subst hlast
    rw [htask] at ht
    rcases hstatus with hr | hi
    · exact h.runs t b ht hb hr
    · -- an invalidated branch does not run again
      rw [hlater.final (by rw [hi]; rfl),hi] at hr'
      cases hr'

theorem InFlight.statusChange (h : InFlight r flight) (hc : StatusChange fb ft released r next)
    (hl : Lasting r next)
    (hft : ∀ t, r.scheduler.tasks.get? flight.task.taskId = some t → t.status ≠ .queued →
      ft flight.task.taskId t = t)
    (hfb : ∀ b, r.branches.branches.get? flight.branchId = some b → b.status = .running →
      (fb flight.branchId b).status = .running ∨ (fb flight.branchId b).status = .invalidated) :
    InFlight next flight := by
  refine h.lasting hl ?_ (fun b b' hb hb' hr => ?_)
  · obtain ⟨t,ht,-,hstarted⟩ := h.task
    rw [hc.tasks,ht,Option.map_some,hft t ht hstarted]
  · rw [hc.branches,hb,Option.map_some,Option.some.injEq] at hb'
    exact hb' ▸ hfb b hb hr

theorem InFlight.branchAdded {branch : Branch} {xs : Option (List Token)} (h : InFlight r flight)
    (hadded : BranchAdded r next branch xs) (hl : Lasting r next)
    (hnew : r.branches.branches.get? branch.branchId = none)
    (htasks : next.scheduler.tasks.get? flight.task.taskId =
      r.scheduler.tasks.get? flight.task.taskId) : InFlight next flight := by
  refine h.lasting hl htasks (fun b b' hb hb' hr => ?_)
  have hne : flight.branchId ≠ branch.branchId := by
    intro he
    rw [he,hnew] at hb
    cases hb
  rw [hadded.branches,if_neg hne,hb,Option.some.injEq] at hb'
  exact Or.inl (hb' ▸ hr)

/-- A task in flight is not queued, so that no call takes it from the queue. -/
theorem InFlight.not_queued (h : InFlight r flight) {task : AnalysisTask PyFloat}
    (ht : r.scheduler.tasks.get? flight.task.taskId = some task) : task.status ≠ .queued := by
  obtain ⟨t,ht',-,hstarted⟩ := h.task
  rw [ht,Option.some.injEq] at ht'
  exact ht' ▸ hstarted

theorem InFlight.popped {popped : Option TaskId} (h : InFlight r flight)
    (hqueued : ∀ id, popped = some id →
      ∃ task, r.scheduler.tasks.get? id = some task ∧ task.status = .queued)
    (hc : StatusChange (popBranch popped) (popTask r.currentVersions popped) released r next)
    (hl : Lasting r next) : InFlight next flight := by
  refine h.statusChange hc hl (fun t _ hstarted => ?_) (fun b _ hr => ?_)
  · have hne : popped ≠ some flight.task.taskId := by
      intro hp
      obtain ⟨task,hget,hq⟩ := hqueued _ hp
      exact h.not_queued hget hq
    rw [popTask,if_neg hne,VersionDeadlineScheduler.cancelStale,if_neg]
    simp [VersionDeadlineScheduler.staleBase,hstarted]
  · unfold popBranch
    split
    · exact Or.inl rfl
    · exact Or.inl hr

/-- Another task in flight finishes. -/
theorem InFlight.completed {other : Flight} (h : InFlight r flight) (ho : InFlight r other)
    (hne : flight.task.taskId ≠ other.task.taskId)
    (hc : StatusChange (completeBranch other.branchId) (completeTask other.task.taskId) released r
      next) (hl : Lasting r next) : InFlight next flight := by
  refine h.statusChange hc hl (fun t _ _ => if_neg hne) (fun b _ hr => Or.inl ?_)
  unfold completeBranch
  rw [h.branchId,if_neg (ho.branchId_ne hne)]
  exact hr

theorem InFlight.cancelled {other : Flight} {reason : CancelReason} (h : InFlight r flight)
    (ho : InFlight r other) (hne : flight.task.taskId ≠ other.task.taskId)
    (hc : StatusChange (cancelBranch other.branchId) (dropTask reason other.task.taskId) released r
      next) (hl : Lasting r next) : InFlight next flight := by
  refine h.statusChange hc hl (fun t _ _ => if_neg hne) (fun b _ hr => Or.inl ?_)
  unfold cancelBranch
  rw [h.branchId,if_neg (ho.branchId_ne hne)]
  exact hr

/-- The state may have been reached from `start`, and the task is still in flight. -/
def Carries (start : CueBeeRuntime S) (flight : Flight) (r : CueBeeRuntime S) : Prop :=
  Since start r ∧ InFlight r flight

theorem inFlight_inc (name : MetricName) (amount : ℕ) :
    Keeps (fun r : CueBeeRuntime S => InFlight r flight) (inc name amount) :=
  keeps_modify (fun _ h => h.congr rfl rfl)

theorem inFlight_engine {α : Type} (x : EStateM EngineError S α) :
    Keeps (fun r : CueBeeRuntime S => InFlight r flight) (onEngine x) :=
  keeps_onEngine (fun _ _ h => h.congr rfl rfl) x

/-- The cache part of `handle_event` touches neither branches nor tasks. -/
theorem cacheFrame_inFlight : CacheFrame (fun r : CueBeeRuntime S => InFlight r flight) :=
  cacheFrame_of (fun _ _ h => h.congr rfl rfl) (fun _ _ h => h.congr rfl rfl)
    (fun _ _ h => h.congr rfl rfl)

/-- The task of a branch that has ended is cancelled. -/
theorem inFlight_cancelTask {id : TaskId} (horder : InOrder r) (h : InFlight r flight)
    (hended : ∀ b, r.branches.branches.get? (branchIdOf id) = some b → b.status.active = false)
    (reason : CancelReason) :
    InFlight (after (onScheduler (VersionDeadlineScheduler.cancel id reason)) r) flight := by
  cases hget : r.scheduler.tasks.get? id with
  | none =>
    have hunknown : VersionDeadlineScheduler.get id r.scheduler =
        .error (.unknownTask id) r.scheduler := by
      simp only [VersionDeadlineScheduler.get,hget]
    have hcancel : onScheduler (VersionDeadlineScheduler.cancel id reason) r =
        .error (.scheduler (.unknownTask id)) r := focus_error (bind_error hunknown)
    rwa [after_error hcancel]
  | some task =>
    obtain ⟨q,hcancel,-,htasks⟩ :=
      VersionDeadlineScheduler.cancel_ok horder.tasksNamed hget reason
    rw [after_ok (onScheduler_ok hcancel)]
    by_cases hid : flight.task.taskId = id
    · subst hid
      obtain ⟨t,ht,hsame,hstarted⟩ := h.task
      rw [hget,Option.some.injEq] at ht
      subst ht
      refine ⟨h.branchId,⟨_,(htasks _).trans (if_pos rfl),hsame.trans (task.stop_same _ _),?_⟩,
        h.branch,fun _ b _ hb hr => ?_⟩
      · unfold AnalysisTask.stop
        split
        · intro hqueued
          cases hqueued
        · exact hstarted
      · have hactive := hended b (h.branchId ▸ hb)
        rw [hr] at hactive
        cases hactive
    · have hkept : q.tasks.get? flight.task.taskId =
          r.scheduler.tasks.get? flight.task.taskId := by
        rw [htasks,if_neg hid]
      refine ⟨h.branchId,?_,h.branch,?_⟩
      · show ∃ t, q.tasks.get? flight.task.taskId = some t ∧ _
        rw [hkept]
        exact h.task
      · show ∀ t b, q.tasks.get? flight.task.taskId = some t → _
        rw [hkept]
        exact h.runs

/-- The branches of the invalidated tasks have ended before the loop over the tasks begins. -/
theorem inFlight_cancelInvalidated {ids : List TaskId}
    (hids : ∀ j ∈ ids, ∃ b, start.branches.branches.get? (branchIdOf j) = some b ∧
      b.status.active = false) :
    Keeps (Carries start flight) (cancelInvalidated c ids) := by
  induction ids with
  | nil => exact keeps_pure _
  | cons j rest ih =>
    obtain ⟨b,hb,hended⟩ := hids j List.mem_cons_self
    have hcancel : Keeps (Carries start flight)
        (onScheduler (VersionDeadlineScheduler.cancel j .transcriptRevision)) := by
      refine fun r hr => ⟨since_cancelTask j _ r hr.1,
        inFlight_cancelTask hr.1.inOrder hr.2 (fun b' hb' => ?_) _⟩
      obtain ⟨last,hlast,hstatus⟩ := hr.1.lasting.branch_final hb hended
      rw [hb',Option.some.injEq] at hlast
      rw [hlast,hstatus]
      exact hended
    refine keeps_bind hcancel (fun _ => keeps_bind
      (fun r hr => ⟨since_engine _ r hr.1,inFlight_engine _ r hr.2⟩) (fun _ => keeps_bind
      (fun r hr => ⟨since_inc _ _ r hr.1,inFlight_inc _ _ r hr.2⟩) (fun _ => ih ?_)))
    exact fun i hi => hids i (List.mem_cons_of_mem _ hi)

theorem inFlight_afterApply {event : STTEvent} {diff : TranscriptDiff} {m : SessionManager}
    {session : ConversationSession} (hbase : Orderly m r.branches r.scheduler)
    (hacc : Accepted c.tokenizer event m session diff)
    (hinst : Installed m r.sessions event.sessionId session) (hf : InFlight r flight) :
    InFlight (after (afterApply c event diff) r) flight := by
  have hcount : (inc MetricName.sttEventsAccepted 1 : EStateM RuntimeError (CueBeeRuntime S) Unit) r =
      .ok () { r with metrics := MetricRegistry.inc .sttEventsAccepted 1 r.metrics } := rfl
  have hr : Since r { r with metrics := MetricRegistry.inc .sttEventsAccepted 1 r.metrics } :=
    Since.congr (Since.refl (hbase.sessions (hinst.progress hacc.advances))) rfl rfl rfl
  obtain ⟨ids,g,hrun,hmem,heffect⟩ := invalidate_effect hr.inOrder event diff
  have hmid := (since_invalidate (.refl hr.inOrder) hbase hacc hinst).ok hrun
  have hcounted : InFlight { r with
      metrics := MetricRegistry.inc .sttEventsAccepted 1 r.metrics } flight := hf.congr rfl rfl
  have hflight := hcounted.statusChange heffect.toStatusChange hmid.lasting (fun t _ _ => rfl)
    (fun b _ hb => by
      unfold reviseBranch
      split
      · exact Or.inr rfl
      · exact Or.inl hb)
  have hids : ∀ j ∈ ids, ∃ b, g.branches.get? (branchIdOf j) = some b ∧
      b.status.active = false := by
    intro j hj
    obtain ⟨b,hb,hst⟩ := (hmem j).mp hj
    refine ⟨_,(heffect.branches (branchIdOf j)).trans (by rw [hb]; rfl),?_⟩
    rw [reviseBranch,if_pos hst]
    rfl
  refine Ensures.after (I := fun t => InFlight t flight) (ensures_bind.mpr (Ensures.of_ok hcount
    (ensures_bind.mpr (Ensures.of_ok hrun ?_))))
  have hloop := keeps_iff.mp (inFlight_cancelInvalidated (c := c) hids) _
    ⟨Since.refl hmid.inOrder,hflight⟩
  refine ensures_bind.mpr (hloop.mono (fun _ r2 h2 => ?_) (fun _ _ h2 => h2.2))
  exact keeps_iff.mp (keeps_bind (cacheFrame_inFlight.updateCache event diff) (fun _ =>
    keeps_bind (keeps_onKV (fun _ _ h => h.congr rfl rfl) _) (fun _ => keeps_pure _))) r2 h2.2

theorem inFlight_handleEvent (event : STTEvent) (h : InOrder r) (hf : InFlight r flight) :
    InFlight (after (handleEvent c event) r) flight := by
  cases handled c event r with
  | dropped a hnorm hrun =>
    rw [after_ok hrun]
    exact hf.congr rfl rfl
  | rejected e a error m hnorm happly hrun =>
    rw [after_error hrun]
    exact hf.congr rfl rfl
  | accepted e a diff m hnorm happly hrun =>
    obtain ⟨-,session,hacc,hinst⟩ := apply_ok happly
    have hafter := inFlight_afterApply (r := { r with revisions := a, sessions := m }) h hacc hinst
      (hf.congr rfl rfl)
    unfold after at hafter ⊢
    rwa [hrun]

theorem inFlight_submitTask (a : Submission) (h : InOrder r) (hf : InFlight r flight) :
    InFlight (after (submitTask c a) r) flight := by
  have hlast := lasting_submitTask (c := c) a h
  cases submitted c a h with
  | unknownSession hget hrun | branchExists session branch hget hbranch hrun =>
    rwa [after_error hrun]
  | abandoned session e tokens next hget hnew hfail he hadded htasks hrun
  | refused session e next hget hnew hadded htasks hrun =>
    rw [after_error hrun] at hlast ⊢
    exact hf.branchAdded hadded hlast hnew (by rw [htasks])
  | accepted session promptTokens deadline next hget hnew hencode hadded hdeadline htasks hrun =>
    rw [after_ok hrun] at hlast ⊢
    refine hf.branchAdded hadded hlast hnew ?_
    rw [htasks,VersionDeadlineScheduler.get?_store,taskId_newTask,if_neg]
    intro he
    obtain ⟨t,ht,-⟩ := hf.task
    rw [he,h.unscheduled hnew] at ht
    cases ht

theorem inFlight_shedLoad (targetActive : ℤ) (h : InOrder r) (hf : InFlight r flight) :
    InFlight (after (shedLoad targetActive) r) flight := by
  cases loadShed h targetActive with
  | negative htarget hrun => rwa [after_error hrun]
  | shed dropped next hqueued heffect hrun =>
    rw [after_ok hrun]
    have hnot : flight.task.taskId ∉ dropped := by
      intro hmem
      obtain ⟨task,ht,hstatus⟩ := hqueued _ hmem
      exact hf.not_queued ht hstatus
    refine hf.statusChange heffect.toStatusChange (lasting_shed hqueued heffect)
      (fun t _ _ => if_neg hnot) (fun b _ hrunning => Or.inl ?_)
    rw [cancelBranches,hf.branchId,if_neg (mt branchIdOf_mem_map.mp hnot)]
    exact hrunning

end CueBeeRuntime
end CueBee.Runtime
