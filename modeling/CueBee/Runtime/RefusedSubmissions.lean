import CueBee.Runtime.OrderlyRuns

/-! # Submissions that fail

`submit_task` creates a branch, encodes the prompt, computes the deadline and then asks the
scheduler. Its only handler cancels the branch, which stays in the graph under the id of the
task; a prompt that is not encoded and a deadline that is too large for a float leave even the
queued branch with its references.
-/
namespace CueBee.Runtime
open Cache Transcript Raising PyStr

namespace CueBeeRuntime
variable {S : Type} {c : Services S} {a : Submission} {r next : CueBeeRuntime S}

/-- Branch graph, branch table of the cache, reference counts and scheduler are as before. -/
structure Undone (r next : CueBeeRuntime S) : Prop where
  branches : next.branches.branches = r.branches.branches
  table : next.kv.branches = r.kv.branches
  counts : ∀ block, (next.kv.pool.blocks.get? block).map PhysicalBlock.refCount =
    (r.kv.pool.blocks.get? block).map PhysicalBlock.refCount
  scheduler : next.scheduler = r.scheduler

theorem Undone.refl (r : CueBeeRuntime S) : Undone r r := ⟨rfl,rfl,fun _ => rfl,rfl⟩

/-- No call of the list submits the task id. -/
def Spares (taskId : TaskId) (calls : List Call) : Prop :=
  ∀ a, .submitTask a ∈ calls → resolvedTaskId a ≠ taskId

/-- A failed submission is undone, and one that only the cap refuses succeeds later, once
fewer tasks are active. -/
structure FailsCleanly (c : Services S) (a : Submission) (r : CueBeeRuntime S) : Prop where
  undone : ∀ e next, submitTask c a r = .error e next → Undone r next
  resubmit : ∀ next, submitTask c a r = .error (.scheduler .admissionCap) next →
    ∀ calls, Spares (resolvedTaskId a) calls →
      (runAll (exec c) calls next).scheduler.activeCount <
        (runAll (exec c) calls next).scheduler.admissionCap →
      ∃ task last, submitTask c a (runAll (exec c) calls next) = .ok task last

/-- The submission is refused before it has created a branch, or it is not refused. -/
def Undoable (c : Services S) (a : Submission) (r : CueBeeRuntime S) : Prop :=
  r.sessions.sessions.get? a.sessionId = none ∨
  r.branches.branches.get? (branchIdOf (resolvedTaskId a)) ≠ none ∨
  (c.tokenizer.encode (taskPrompt a.kind a.prompt) ≠ none ∧
    a.deadlineMs.natAbs < PyFloat.intLimit ∧ r.scheduler.activeCount < r.scheduler.admissionCap)

variable {session : ConversationSession} {promptTokens : List Token} {deadline : PyFloat}

theorem submitTask_ok (h : InOrder r) (hget : r.sessions.sessions.get? a.sessionId = some session)
    (hnew : r.branches.branches.get? (branchIdOf (resolvedTaskId a)) = none)
    (hencode : c.tokenizer.encode (taskPrompt a.kind a.prompt) = some promptTokens)
    (hdeadline : deadlineAt a = some deadline) (hroom : r.scheduler.activeCount < r.scheduler.admissionCap) :
    ∃ next, submitTask c a r = .ok (newTask a session (submittedBranch a session) deadline) next := by
  obtain ⟨mid,hsched,-,-,hrun⟩ := submitTask_prompted h hget hnew hencode
  have hnone : mid.scheduler.tasks.get? (newTask a session (submittedBranch a session) deadline).taskId =
      none := by
    rw [hsched]
    exact h.unscheduled hnew
  have hsubmit := VersionDeadlineScheduler.submit_ok hnone (by rw [hsched]; exact hroom)
  exact ⟨_,(hrun deadline hdeadline).trans (bind_ok (admitted hsubmit _))⟩

/-- The deadline is too large for a float, and the branch is left queued. -/
theorem submitTask_endless (h : InOrder r)
    (hget : r.sessions.sessions.get? a.sessionId = some session)
    (hnew : r.branches.branches.get? (branchIdOf (resolvedTaskId a)) = none)
    (hencode : c.tokenizer.encode (taskPrompt a.kind a.prompt) = some promptTokens)
    (hdeadline : deadlineAt a = none) :
    ∃ next, submitTask c a r = .error .overflow next ∧ BranchAdded r next (submittedBranch a session)
      (some (sharedTokens a r ++ promptTokens)) := by
  obtain ⟨mid,-,hadded,hoverflow,-⟩ := submitTask_prompted h hget hnew hencode
  exact ⟨mid,hoverflow hdeadline,hadded⟩

/-- The cap refuses the task, and its branch is left cancelled. -/
theorem submitTask_full (h : InOrder r) (hget : r.sessions.sessions.get? a.sessionId = some session)
    (hnew : r.branches.branches.get? (branchIdOf (resolvedTaskId a)) = none)
    (hencode : c.tokenizer.encode (taskPrompt a.kind a.prompt) = some promptTokens)
    (hdeadline : deadlineAt a = some deadline) (hfull : r.scheduler.admissionCap ≤ r.scheduler.activeCount) :
    ∃ next, submitTask c a r = .error (.scheduler .admissionCap) next ∧
      BranchAdded r next { submittedBranch a session with status := .cancelled } none := by
  obtain ⟨mid,hsched,hadded,-,hrun⟩ := submitTask_prompted h hget hnew hencode
  have hnone : mid.scheduler.tasks.get? (newTask a session (submittedBranch a session) deadline).taskId =
      none := by
    rw [hsched]
    exact h.unscheduled hnew
  have hsubmit := VersionDeadlineScheduler.submit_full hnone (by rw [hsched]; exact hfull)
  obtain ⟨last,hrefuse,-,hlast⟩ := turnedAway hadded rfl hsubmit
  exact ⟨last,(hrun deadline hdeadline).trans (bind_error hrefuse),hlast⟩

/-- The prompt is not encoded, and its branch is left queued. -/
theorem submitTask_unencodable (h : InOrder r)
    (hget : r.sessions.sessions.get? a.sessionId = some session)
    (hnew : r.branches.branches.get? (branchIdOf (resolvedTaskId a)) = none)
    (hencode : c.tokenizer.encode (taskPrompt a.kind a.prompt) = none) :
    ∃ next, submitTask c a r = .error .encode next ∧
      BranchAdded r next (submittedBranch a session) (some (sharedTokens a r)) := by
  obtain ⟨mid,hcreate,-,hadded⟩ := branch_created a h session hnew
  refine ⟨mid,?_,hadded⟩
  simp only [submitTask,bind_ok (onSessions_get hget),bind_ok hcreate,hencode]
  rfl

/-- A branch that is left behind keeps a failed submission from being undone. -/
theorem not_undone {branch : Branch} {xs : Option (List Token)}
    (hadded : BranchAdded r next branch xs)
    (hnew : r.branches.branches.get? branch.branchId = none) : ¬Undone r next := by
  intro hu
  have hself := hadded.self
  rw [hu.branches,hnew] at hself
  cases hself

theorem failsCleanly_iff (h : InOrder r) : FailsCleanly c a r ↔ Undoable c a r := by
  cases hget : r.sessions.sessions.get? a.sessionId with
  | none =>
    refine ⟨fun _ => Or.inl hget,fun _ => ?_⟩
    have hrun := submitTask_unknown (c := c) hget
    refine ⟨fun e next he => ?_,fun next he => ?_⟩ <;> rw [hrun] at he <;> cases he
    exact .refl r
  | some session =>
    cases hbranch : r.branches.branches.get? (branchIdOf (resolvedTaskId a)) with
    | some branch =>
      refine ⟨fun _ => Or.inr (Or.inl (by rw [hbranch]; simp)),fun _ => ?_⟩
      have hrun := submitTask_exists (c := c) hget hbranch
      refine ⟨fun e next he => ?_,fun next he => ?_⟩ <;> rw [hrun] at he <;> cases he
      exact .refl r
    | none =>
      -- the branch is created; whether it is left behind depends on the prompt and the cap
      have hknown : ¬(r.sessions.sessions.get? a.sessionId = none ∨
          r.branches.branches.get? (branchIdOf (resolvedTaskId a)) ≠ none) := by
        simp [hget,hbranch]
      cases hencode : c.tokenizer.encode (taskPrompt a.kind a.prompt) with
      | none =>
        obtain ⟨last,hrun,hadded⟩ := submitTask_unencodable h hget hbranch hencode
        refine iff_of_false (fun hc => not_undone hadded hbranch (hc.undone _ _ hrun)) ?_
        rintro (hs | hb | ⟨he,-⟩)
        · exact hknown (Or.inl hs)
        · exact hknown (Or.inr hb)
        · exact he hencode
      | some promptTokens =>
        cases hdeadline : deadlineAt a with
        | none =>
          obtain ⟨last,hrun,hadded⟩ := submitTask_endless h hget hbranch hencode hdeadline
          refine iff_of_false (fun hc => not_undone hadded hbranch (hc.undone _ _ hrun)) ?_
          rintro (hs | hb | ⟨-,hfits,-⟩)
          · exact hknown (Or.inl hs)
          · exact hknown (Or.inr hb)
          · exact not_le.mpr hfits (deadlineAt_eq_none.mp hdeadline)
        | some deadline =>
          have hfits : a.deadlineMs.natAbs < PyFloat.intLimit :=
            deadlineAt_ne_none.mp (by rw [hdeadline]; simp)
          by_cases hroom : r.scheduler.activeCount < r.scheduler.admissionCap
          · obtain ⟨last,hrun⟩ := submitTask_ok h hget hbranch hencode hdeadline hroom
            refine iff_of_true ⟨fun e next he => ?_,fun next he => ?_⟩
              (Or.inr (Or.inr ⟨by rw [hencode]; simp,hfits,hroom⟩)) <;> rw [hrun] at he <;> cases he
          · obtain ⟨last,hrun,hadded⟩ :=
              submitTask_full h hget hbranch hencode hdeadline (not_lt.mp hroom)
            refine iff_of_false (fun hc => not_undone hadded hbranch (hc.undone _ _ hrun)) ?_
            rintro (hs | hb | ⟨-,-,hr⟩)
            · exact hknown (Or.inl hs)
            · exact hknown (Or.inr hb)
            · exact hroom hr

/-- A submission that cannot be undone fails and leaves the branch of its task. -/
theorem leaves_branch (h : InOrder r) (hnot : ¬Undoable c a r) :
    ∃ e next branch, submitTask c a r = .error e next ∧
      next.branches.branches.get? (branchIdOf (resolvedTaskId a)) = some branch := by
  rw [Undoable,not_or,not_or,not_not,not_and] at hnot
  obtain ⟨hknown,hnew,hroom⟩ := hnot
  obtain ⟨session,hget⟩ := Option.ne_none_iff_exists'.mp hknown
  cases hencode : c.tokenizer.encode (taskPrompt a.kind a.prompt) with
  | none =>
    obtain ⟨last,hrun,hadded⟩ := submitTask_unencodable h hget hnew hencode
    exact ⟨_,last,_,hrun,hadded.self⟩
  | some promptTokens =>
    cases hdeadline : deadlineAt a with
    | none =>
      obtain ⟨last,hrun,hadded⟩ := submitTask_endless h hget hnew hencode hdeadline
      exact ⟨_,last,_,hrun,hadded.self⟩
    | some deadline =>
      have hfits := deadlineAt_ne_none.mp (by rw [hdeadline]; simp)
      have hfull := not_lt.mp (not_and.mp (hroom (by rw [hencode]; simp)) hfits)
      obtain ⟨last,hrun,hadded⟩ := submitTask_full h hget hnew hencode hdeadline hfull
      exact ⟨_,last,_,hrun,hadded.self⟩

/-- Its task id is refused ever after. -/
theorem refused_ever_after (h : InOrder r) (hnot : ¬Undoable c a r) (calls : List Call) :
    outcome (submitTask c a) (runAll (exec c) calls (after (submitTask c a) r)) =
      .error (.graph (.branchExists (resolvedTaskId a))) := by
  obtain ⟨session,hget⟩ := Option.ne_none_iff_exists'.mp (not_or.mp hnot).1
  obtain ⟨e,next,branch,hrun,hbranch⟩ := leaves_branch h hnot
  have hnext : Since r next := keeps_iff.mp (since_submitTask a) r (.refl h) |>.error hrun
  have hlater : Since next (runAll (exec c) calls next) := since_run calls hnext.inOrder
  obtain ⟨session',hget',-⟩ := (hnext.trans hlater).lasting.sessions _ session hget
  obtain ⟨branch',hbranch',-⟩ := hlater.lasting.branches _ branch hbranch
  rw [after_error hrun]
  exact outcome_error (submitTask_exists hget' hbranch')

end CueBeeRuntime
open CueBeeRuntime

theorem failed_submissions_undone {S : Type} (c : Services S) (blockSize : ℕ)
    (hblock : 0 < blockSize) (admissionCap : ℕ) (hcap : 0 < admissionCap) (e : S)
    (calls : List Call) :
    let r := runAll (exec c) calls (init blockSize hblock admissionCap hcap e)
    ∀ a, FailsCleanly c a r ↔ Undoable c a r := by
  intro r a
  have h : Since (init blockSize hblock admissionCap hcap e) r :=
    since_run calls (inOrder_init blockSize hblock admissionCap hcap e)
  exact failsCleanly_iff h.inOrder

/-- A session of one final whose second task meets a full queue. -/
theorem failed_submissions_undone_room :
    let c := quietServices utf8Tokenizer
    let r := runAll (exec c) [.handleEvent (heard "g" 0 .commitFinal "hi" (by decide) (by decide)),
      .submitTask (asked "first" .userQuery (lit "why"))] (init 4 (by decide) 2 (by decide) ())
    FailsCleanly c (asked "second" .userQuery (lit "how")) r := by
  intro c r
  refine (failed_submissions_undone c 4 (by decide) 2 (by decide) () _ _).mpr ?_
  exact Or.inr (Or.inr (by decide +kernel))

/-- The task that the cap refused is refused again after the queue has drained. -/
theorem refused_submission_not_undone :
    let c := quietServices utf8Tokenizer
    let r := runAll (exec c) [.handleEvent (heard "g" 0 .commitFinal "hi" (by decide) (by decide)),
      .submitTask (asked "first" .userQuery (lit "why"))] (init 4 (by decide) 1 (by decide) ())
    let a := asked "second" .userQuery (lit "how")
    let later := runAll (exec c) [.runNext (.fin 1)] (after (submitTask c a) r)
    outcome (submitTask c a) r = .error (.scheduler .admissionCap) ∧
    ¬Undone r (after (submitTask c a) r) ∧
    later.scheduler.activeCount = 0 ∧
    outcome (submitTask c a) later = .error (.graph (.branchExists (lit "second"))) := by
  intro c r a later
  refine ⟨by decide +kernel,fun hu => ?_,by decide +kernel,by decide +kernel⟩
  have hold : r.branches.branches.get? (branchIdOf (lit "second")) = none := by decide +kernel
  have hleft : (after (submitTask c a) r).branches.branches.get? (branchIdOf (lit "second")) ≠ none := by
    decide +kernel
  rw [hu.branches] at hleft
  exact hleft hold

end CueBee.Runtime
