import CueBee.Runtime.EventHandling

/-! # submit_task keeps the invariant

`Submitted` lists the ways through the method, with the state that each way leaves. What
is said about submissions elsewhere is derived from it.
-/
namespace CueBee.Runtime
open Cache Transcript Raising ConversationSession SessionManager VersionedKVManager

namespace CueBeeRuntime
variable {S : Type} {c : Services S} {r next : CueBeeRuntime S}

/-- One branch is new, and the cache holds `xs` for it. -/
structure BranchAdded (r next : CueBeeRuntime S) (branch : Branch) (xs : Option (List Token)) :
    Prop where
  revisions : next.revisions = r.revisions
  sessions : next.sessions = r.sessions
  gpuLoad : next.gpuLoad = r.gpuLoad
  engine : next.engine = r.engine
  branches : ∀ id, next.branches.branches.get? id =
    if id = branch.branchId then some branch else r.branches.branches.get? id
  sound : next.kv.Sound
  view : next.kv.view = r.kv.view.putBranch branch.branchId xs

/-- The branch of a submission to `session`. -/
def submittedBranch (a : Submission) (session : ConversationSession) : Branch :=
  BranchGraph.newBranch (resolvedTaskId a) a.sessionId a.kind session.version
    session.commitFrontier session.totalTokens none

/-- The tokens of the session that the branch of a submission takes over. -/
def sharedTokens (a : Submission) (r : CueBeeRuntime S) : List Token :=
  NaiveKV.forked a.kind.currentVersion (r.kv.view.sessions a.sessionId)

/-- Between the fork and the scheduler nothing fails: the prompt is encoded, and the deadline is
not too large for a float. -/
structure Preparable (c : Services S) (a : Submission) : Prop where
  prompt : c.tokenizer.encode (taskPrompt a.kind a.prompt) ≠ none
  deadline : deadlineAt a ≠ none

theorem deadlineAt_eq_none {a : Submission} :
    deadlineAt a = none ↔ PyFloat.intLimit ≤ a.deadlineMs.natAbs := by
  rw [deadlineAt,Option.map_eq_none_iff,PyFloat.ofInt_eq_none]

theorem deadlineAt_ne_none {a : Submission} :
    deadlineAt a ≠ none ↔ a.deadlineMs.natAbs < PyFloat.intLimit := by
  rw [ne_eq,deadlineAt_eq_none,not_le]

/-- The ways through `submit_task`. -/
inductive Submitted (c : Services S) (a : Submission) (r : CueBeeRuntime S) : Prop
  | unknownSession (hget : r.sessions.sessions.get? a.sessionId = none)
      (hrun : submitTask c a r = .error (.session (.unknownSession a.sessionId)) r)
  | branchExists (session : ConversationSession) (branch : Branch)
      (hget : r.sessions.sessions.get? a.sessionId = some session)
      (hbranch : r.branches.branches.get? (branchIdOf (resolvedTaskId a)) = some branch)
      (hrun : submitTask c a r = .error (.graph (.branchExists (resolvedTaskId a))) r)
  | abandoned (session : ConversationSession) (e : RuntimeError) (tokens : List Token)
      (next : CueBeeRuntime S) (hget : r.sessions.sessions.get? a.sessionId = some session)
      (hnew : r.branches.branches.get? (branchIdOf (resolvedTaskId a)) = none)
      (hfail : ¬Preparable c a) (he : e = .encode ∨ e = .overflow)
      (hadded : BranchAdded r next (submittedBranch a session) (some tokens))
      (htasks : next.scheduler = r.scheduler)
      (hrun : submitTask c a r = .error e next)
  | refused (session : ConversationSession) (e : SchedulerError) (next : CueBeeRuntime S)
      (hget : r.sessions.sessions.get? a.sessionId = some session)
      (hnew : r.branches.branches.get? (branchIdOf (resolvedTaskId a)) = none)
      (hadded : BranchAdded r next { submittedBranch a session with status := .cancelled } none)
      (htasks : next.scheduler = r.scheduler)
      (hrun : submitTask c a r = .error (.scheduler e) next)
  | accepted (session : ConversationSession) (promptTokens : List Token) (deadline : PyFloat)
      (next : CueBeeRuntime S) (hget : r.sessions.sessions.get? a.sessionId = some session)
      (hnew : r.branches.branches.get? (branchIdOf (resolvedTaskId a)) = none)
      (hencode : c.tokenizer.encode (taskPrompt a.kind a.prompt) = some promptTokens)
      (hadded : BranchAdded r next (submittedBranch a session)
        (some (sharedTokens a r ++ promptTokens)))
      (hdeadline : deadlineAt a = some deadline)
      (htasks : next.scheduler =
        r.scheduler.store (newTask a session (submittedBranch a session) deadline))
      (hrun : submitTask c a r = .ok (newTask a session (submittedBranch a session) deadline) next)

namespace BranchAdded
variable {branch : Branch} {xs : Option (List Token)}

theorem references_ne (h : BranchAdded r next branch xs) {id : BranchId}
    (hid : id ≠ branch.branchId) : next.kv.view.branches id = r.kv.view.branches id := by
  rw [h.view]
  exact NaiveKV.branches_putBranch_ne _ hid _

theorem references_self (h : BranchAdded r next branch xs) :
    next.kv.view.branches branch.branchId = xs := by
  rw [h.view]
  exact NaiveKV.branches_putBranch_self ..

theorem self (h : BranchAdded r next branch xs) :
    next.branches.branches.get? branch.branchId = some branch := by
  rw [h.branches,if_pos rfl]

/-- The prompt goes to the references of the new branch. -/
theorem prompted {tokens : List Token} (h : BranchAdded r next branch (some tokens))
    (hq : branch.status = .queued) (promptTokens : List Token) (version : ℤ) :
    ∃ k, onGraph (BranchGraph.appendPrivatePrompt branch.branchId promptTokens version) next =
        .ok () (next.withKV k) ∧
      BranchAdded r (next.withKV k) branch (some (tokens ++ promptTokens)) := by
  obtain ⟨k,hrun,hsound,hview⟩ := BranchGraph.appendPrivatePrompt_ok (g := next.branches)
    h.sound h.self hq h.references_self promptTokens version
  refine ⟨k,onGraph_ok hrun,h.revisions,h.sessions,h.gpuLoad,h.engine,h.branches,hsound,?_⟩
  have hnext : next.branches.kv.view = r.kv.view.putBranch branch.branchId (some tokens) := h.view
  rw [kv_withKV,hview,hnext,NaiveKV.putBranch,NaiveKV.putBranch]
  exact congrArg _ (Function.update_idem _ _ _)

/-- The new branch is cancelled, and nothing but its record remains. -/
theorem cancelled (h : BranchAdded r next branch xs) (ha : branch.status.active = true) :
    ∃ last, onGraph (BranchGraph.cancel branch.branchId) next = .ok () last ∧
      last.scheduler = next.scheduler ∧
      BranchAdded r last { branch with status := .cancelled } none := by
  obtain ⟨k,hrun,hsound,hview⟩ := BranchGraph.cancel_ok (g := next.branches) h.sound h.self ha
  refine ⟨_,onGraph_ok hrun,rfl,h.revisions,h.sessions,h.gpuLoad,h.engine,fun id => ?_,hsound,?_⟩
  · have hstored := BranchGraph.get?_store { next.branches with kv := k }
      { branch with status := .cancelled } id
    refine hstored.trans ?_
    show (if id = branch.branchId then _ else next.branches.branches.get? id) = _
    rw [h.branches]
    by_cases hid : id = branch.branchId <;> simp [hid]
  · have hnext : next.branches.kv.view = r.kv.view.putBranch branch.branchId xs := h.view
    show k.view = _
    rw [hview,hnext,NaiveKV.putBranch,NaiveKV.putBranch]
    exact congrArg _ (Function.update_idem _ _ _)

end BranchAdded

/-- The fork of a submission. -/
theorem branch_created (a : Submission) (h : InOrder r) (session : ConversationSession)
    (hnew : r.branches.branches.get? (branchIdOf (resolvedTaskId a)) = none) :
    ∃ next, onGraph (BranchGraph.create (resolvedTaskId a) a.sessionId a.kind session.version
        session.commitFrontier session.totalTokens none) r =
        .ok (submittedBranch a session) next ∧ next.scheduler = r.scheduler ∧
      BranchAdded r next (submittedBranch a session) (some (sharedTokens a r)) := by
  obtain ⟨k,hrun,hsound,hview⟩ := BranchGraph.create_ok h.sound (resolvedTaskId a)
    a.sessionId a.kind session.version session.commitFrontier session.totalTokens none hnew
    (h.unheld hnew)
  exact ⟨_,onGraph_ok hrun,rfl,rfl,rfl,rfl,rfl,
    BranchGraph.get?_store { r.branches with kv := k } (submittedBranch a session),hsound,hview⟩

/-- The scheduler takes the task. -/
theorem admitted {mid : CueBeeRuntime S} {task : AnalysisTask PyFloat} {q : VersionDeadlineScheduler PyFloat}
    (hsubmit : VersionDeadlineScheduler.submit task mid.scheduler = .ok () q) (branchId : BranchId) :
    admitOrCancel task branchId mid = .ok () { mid with scheduler := q } := by
  have hs := onScheduler_ok (r := mid) hsubmit
  simp only [admitOrCancel,hs]

/-- The scheduler refuses the task, and the branch is cancelled before the exception passes on. -/
theorem turnedAway {branch : Branch} {xs : Option (List Token)} {mid : CueBeeRuntime S}
    (h : BranchAdded r mid branch xs) (ha : branch.status.active = true) {task : AnalysisTask PyFloat}
    {e : SchedulerError} {q : VersionDeadlineScheduler PyFloat}
    (hsubmit : VersionDeadlineScheduler.submit task mid.scheduler = .error e q) :
    ∃ last, admitOrCancel task branch.branchId mid = .error (.scheduler e) last ∧
      last.scheduler = mid.scheduler ∧
      BranchAdded r last { branch with status := .cancelled } none := by
  have hq := VersionDeadlineScheduler.submit_error hsubmit
  subst hq
  have hs : onScheduler (VersionDeadlineScheduler.submit task) mid = .error (.scheduler e) mid :=
    focus_error hsubmit
  obtain ⟨last,hcancel,hsched,hadded⟩ := h.cancelled ha
  refine ⟨last,?_,hsched,hadded⟩
  simp only [admitOrCancel,hs,hcancel]

/-- A submission up to its deadline. -/
theorem submitTask_prompted {a : Submission} (h : InOrder r) {session : ConversationSession}
    (hget : r.sessions.sessions.get? a.sessionId = some session)
    (hnew : r.branches.branches.get? (branchIdOf (resolvedTaskId a)) = none)
    {promptTokens : List Token}
    (hencode : c.tokenizer.encode (taskPrompt a.kind a.prompt) = some promptTokens) :
    ∃ mid, mid.scheduler = r.scheduler ∧
      BranchAdded r mid (submittedBranch a session) (some (sharedTokens a r ++ promptTokens)) ∧
      (deadlineAt a = none → submitTask c a r = .error .overflow mid) ∧
      ∀ deadline, deadlineAt a = some deadline → submitTask c a r = (do
        admitOrCancel (newTask a session (submittedBranch a session) deadline)
          (submittedBranch a session).branchId
        inc .tasksSubmitted 1
        return newTask a session (submittedBranch a session) deadline) mid := by
  obtain ⟨r1,hcreate,hsched,hadded⟩ := branch_created a h session hnew
  obtain ⟨k,hprompt,hadded2⟩ := hadded.prompted rfl promptTokens session.version
  refine ⟨r1.withKV k,hsched,hadded2,fun hdeadline => ?_,fun deadline hdeadline => ?_⟩
  · simp only [submitTask,bind_ok (onSessions_get hget),bind_ok hcreate,hencode,bind_ok hprompt,
      hdeadline]
    rfl
  · simp only [submitTask,bind_ok (onSessions_get hget),bind_ok hcreate,hencode,bind_ok hprompt,
      hdeadline]

theorem submitTask_unknown {a : Submission} (hget : r.sessions.sessions.get? a.sessionId = none) :
    submitTask c a r = .error (.session (.unknownSession a.sessionId)) r := by
  have hg : SessionManager.get a.sessionId r.sessions =
      .error (.unknownSession a.sessionId) r.sessions := by
    simp only [SessionManager.get,hget]
  exact bind_error (focus_error hg)

theorem submitTask_exists {a : Submission} {session : ConversationSession} {branch : Branch}
    (hget : r.sessions.sessions.get? a.sessionId = some session)
    (hbranch : r.branches.branches.get? (branchIdOf (resolvedTaskId a)) = some branch) :
    submitTask c a r = .error (.graph (.branchExists (resolvedTaskId a))) r := by
  simp only [submitTask,bind_ok (onSessions_get hget)]
  exact bind_error (focus_error (BranchGraph.create_exists a.sessionId a.kind session.version
    session.commitFrontier session.totalTokens none hbranch))

theorem submitted (c : Services S) (a : Submission) (h : InOrder r) : Submitted c a r := by
  cases hget : r.sessions.sessions.get? a.sessionId with
  | none => exact .unknownSession hget (submitTask_unknown hget)
  | some session =>
    have hstate := onSessions_get hget
    cases hnew : r.branches.branches.get? (branchIdOf (resolvedTaskId a)) with
    | some branch => exact .branchExists session branch hget hnew (submitTask_exists hget hnew)
    | none =>
      -- the branch is created before the prompt is encoded
      obtain ⟨r1,hcreate,hsched1,hadded1⟩ := branch_created a h session hnew
      cases hencode : c.tokenizer.encode (taskPrompt a.kind a.prompt) with
      | none =>
        refine .abandoned session .encode _ r1 hget hnew (fun h => h.prompt hencode) (.inl rfl)
          hadded1 hsched1 ?_
        simp only [submitTask,bind_ok hstate,bind_ok hcreate,hencode]
        rfl
      | some promptTokens =>
        obtain ⟨mid,hsched,hadded,hlate,hrun⟩ := submitTask_prompted h hget hnew hencode
        cases hdeadline : deadlineAt a with
        | none =>
          exact .abandoned session .overflow _ mid hget hnew (fun h => h.deadline hdeadline)
            (.inr rfl) hadded hsched (hlate hdeadline)
        | some deadline =>
          have hrun := hrun deadline hdeadline
          cases hsubmit : VersionDeadlineScheduler.submit
              (newTask a session (submittedBranch a session) deadline) mid.scheduler with
          | ok u q =>
            obtain ⟨-,-,rfl⟩ := VersionDeadlineScheduler.submit_eq hsubmit
            refine .accepted session promptTokens deadline { mid with
              scheduler :=
                mid.scheduler.store (newTask a session (submittedBranch a session) deadline)
              metrics := MetricRegistry.inc .tasksSubmitted 1 mid.metrics } hget hnew hencode
              ⟨hadded.revisions,hadded.sessions,hadded.gpuLoad,hadded.engine,hadded.branches,
                hadded.sound,hadded.view⟩ hdeadline ?_ (hrun.trans (bind_ok (admitted hsubmit _)))
            rw [hsched]
          | error e q =>
            obtain ⟨last,hrefuse,hsched3,hadded3⟩ := turnedAway hadded rfl hsubmit
            exact .refused session e last hget hnew hadded3 (hsched3.trans hsched)
              (hrun.trans (bind_error hrefuse))

/-- A submission that returns was accepted. -/
theorem submitted_of_ok {a : Submission} {task : AnalysisTask PyFloat} (h : InOrder r)
    (hrun : submitTask c a r = .ok task next) :
    ∃ session promptTokens deadline, r.sessions.sessions.get? a.sessionId = some session ∧
      c.tokenizer.encode (taskPrompt a.kind a.prompt) = some promptTokens ∧
      BranchAdded r next (submittedBranch a session) (some (sharedTokens a r ++ promptTokens)) ∧
      next.scheduler = r.scheduler.store task ∧
      task = newTask a session (submittedBranch a session) deadline := by
  cases submitted c a h with
  | unknownSession hget hrun' | branchExists session branch hget hbranch hrun'
  | abandoned session e tokens last hget hnew hfail he hadded htasks hrun'
  | refused session e last hget hnew hadded htasks hrun' =>
    rw [hrun'] at hrun
    cases hrun
  | accepted session promptTokens deadline last hget hnew hencode hadded hdeadline htasks hrun' =>
    rw [hrun'] at hrun
    cases hrun
    exact ⟨session,promptTokens,deadline,hget,hencode,hadded,htasks,rfl⟩

@[simp] theorem taskId_newTask (a : Submission) (session : ConversationSession) (branch : Branch)
    (deadline : PyFloat) : (newTask a session branch deadline).taskId = resolvedTaskId a := rfl

theorem grounded_submitted {a : Submission} {session : ConversationSession} {m : SessionManager}
    (hget : m.sessions.get? a.sessionId = some session) : Grounded m (submittedBranch a session) where
  tentative := rfl
  session := by
    refine ⟨session,hget,le_rfl,fun hr => ?_⟩
    have hk : a.kind.currentVersion = false := hr
    simp [submittedBranch,BranchGraph.newBranch,hk]

/-- The task that a submission adds is new, and it is paired with its branch. -/
theorem paired_submitted (a : Submission) (session : ConversationSession) (deadline : PyFloat) :
    Paired (newTask a session (submittedBranch a session) deadline) (submittedBranch a session) where
  branchId := rfl
  sessionId := rfl
  kind := rfl
  baseVersion := rfl
  dependency := rfl
  requiresCurrentVersion := rfl
  statuses := .bothQueued

namespace BranchAdded
variable {branch : Branch} {xs : Option (List Token)}

/-- A branch that is added without a task: it must be inactive or need no task. -/
theorem inv_alone (h : BranchAdded r next branch xs) (hinv : Inv r)
    (hnew : r.branches.branches.get? branch.branchId = none)
    (hid : branch.branchId = branchIdOf branch.taskId) (hground : Grounded r.sessions branch)
    (hxs : xs ≠ none → branch.status.active = true) (htasks : next.scheduler = r.scheduler)
    (hneeds : branch.status.active = true → branch.requiresCurrentVersion = false) : Inv next := by
  have hnone : next.scheduler.tasks.get? branch.taskId = none := by
    rw [htasks]
    exact hinv.inOrder.unscheduled (hid ▸ hnew)
  have hsess : next.kv.view.sessions = r.kv.view.sessions := by
    rw [h.view]
    rfl
  unfold Inv
  rw [h.sessions]
  refine Coherent.addBranch hinv hnew hid hground h.branches h.sound hsess
    (fun id hne => h.references_ne hne) (fun hne => hxs (h.references_self ▸ hne))
    (fun j _ => by rw [htasks]) (fun t ht => ?_) (fun ha hr => ?_)
  · rw [hnone] at ht
    cases ht
  · rw [hneeds ha] at hr
    cases hr

end BranchAdded

/-- No submission of a kind that requires the current version is abandoned after its fork. -/
def SafeSubmission (c : Services S) (a : Submission) (r : CueBeeRuntime S) : Prop :=
  a.kind.currentVersion = true → Preparable c a ∨
    r.sessions.sessions.get? a.sessionId = none ∨
    r.branches.branches.get? (branchIdOf (resolvedTaskId a)) ≠ none

theorem inv_submitTask {a : Submission} (h : Inv r) (hsafe : SafeSubmission c a r) :
    Inv (after (submitTask c a) r) := by
  cases submitted c a h.inOrder with
  | unknownSession hget hrun =>
    rw [after_error hrun]
    exact h
  | branchExists session branch hget hbranch hrun =>
    rw [after_error hrun]
    exact h
  | abandoned session e tokens next hget hnew hfail he hadded htasks hrun =>
    rw [after_error hrun]
    refine hadded.inv_alone h hnew rfl (grounded_submitted hget) (fun _ => rfl) htasks (fun _ => ?_)
    by_contra hr
    rcases hsafe (by simpa [submittedBranch,BranchGraph.newBranch] using hr) with hp | hs | hb
    · exact hfail hp
    · rw [hget] at hs
      cases hs
    · exact hb hnew
  | refused session e next hget hnew hadded htasks hrun =>
    rw [after_error hrun]
    have hground : Grounded r.sessions { submittedBranch a session with status := .cancelled } :=
      ⟨(grounded_submitted hget).tentative,(grounded_submitted hget).session⟩
    exact hadded.inv_alone h hnew rfl hground (fun hx => absurd rfl hx) htasks (fun ha => by cases ha)
  | accepted session promptTokens deadline next hget hnew hsome hadded hdeadline htasks hrun =>
    rw [after_ok hrun]
    have htask : next.scheduler.tasks.get? (resolvedTaskId a) =
        some (newTask a session (submittedBranch a session) deadline) := by
      rw [htasks,VersionDeadlineScheduler.get?_store]
      exact if_pos rfl
    have hsess : next.kv.view.sessions = r.kv.view.sessions := by
      rw [hadded.view]
      rfl
    unfold Inv
    rw [hadded.sessions]
    refine Coherent.addBranch h hnew rfl (grounded_submitted hget) hadded.branches hadded.sound hsess
      (fun id hne => hadded.references_ne hne) (fun _ => rfl) (fun j hj => ?_) (fun t ht => ?_)
      (fun _ _ => ⟨_,htask⟩)
    · rw [htasks,VersionDeadlineScheduler.get?_store]
      exact if_neg hj
    · have hsame := htask.symm.trans ht
      cases hsame
      exact ⟨rfl,paired_submitted a session deadline⟩

end CueBeeRuntime
end CueBee.Runtime
