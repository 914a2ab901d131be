import CueBee.Runtime.OutputFreshness
import CueBee.Runtime.TasksInFlight
import CueBee.Transcript.TextTokens

/-! # The transcript that the engine reads

`submit_task` fixes the version and the dependency range of a task, and `run_next` builds
its prompt from the text of the session when the task starts. A task that requires the
current version reads what it depends on; any other reads whatever is committed by then.
-/
namespace CueBee.Runtime
open Cache Transcript Raising ConversationSession SessionManager PyStr

open VersionDeadlineScheduler (Absent Popped staleBase)

namespace CueBeeRuntime
variable {S : Type} {c : Services S} {start r next : CueBeeRuntime S}

theorem absent_runNext {j : TaskId} (h : InOrder r) (hj : r.scheduler.tasks.get? j = none)
    (now : PyFloat) : (after (runNext c now) r).scheduler.tasks.get? j = none := by
  have hpopped : ∀ {task : AnalysisTask PyFloat} {branch : Branch} {session : ConversationSession}
      {next : CueBeeRuntime S}, Popping task branch session r next →
      next.scheduler.tasks.get? j = none := by
    intro task branch session next hpopping
    rw [hpopping.effect.tasks,hj]
    rfl
  cases ran c now h with
  | overflow q hpop heffect hrun =>
    rw [after_error hrun,heffect.tasks,hj]
    rfl
  | idle q hpop heffect hrun =>
    rw [after_ok hrun,heffect.tasks,hj]
    rfl
  | unencodable task q branch session next hpop hpopping hencode hrun =>
    rw [after_error hrun]
    exact hpopped hpopping
  | failed task q branch session promptTokens error e next hpop hpopping hencode hgen hrun =>
    rw [after_error hrun]
    show next.scheduler.tasks.get? j = none
    exact hpopped hpopping
  | landed task q branch session promptTokens result e mid outcome next hpop hpopping hencode hgen
      hsince hlanded hothers hrun =>
    have hne : j ≠ task.taskId := by
      rintro rfl
      obtain ⟨before,hget,-⟩ := hpopping.source
      rw [hj] at hget
      cases hget
    rw [after_ok hrun,hothers j hne]
    exact hpopped hpopping

/-- Only an accepted submission adds a task. -/
theorem absent_exec {j : TaskId} (h : InOrder r) (hj : r.scheduler.tasks.get? j = none)
    (call : Call) : (after (exec c call) r).scheduler.tasks.get? j = none ∨
      ∃ a task next, call = .submitTask a ∧ submitTask c a r = .ok task next ∧ task.taskId = j := by
  have habsent : Absent j r.scheduler := ⟨h.tasksNamed,hj⟩
  cases call with
  | handleEvent event =>
    rw [exec,after_discard]
    exact Or.inl
      (tasks_handleEvent VersionDeadlineScheduler.absent_cancel event r habsent).2
  | runNext now =>
    rw [exec,after_discard]
    exact Or.inl (absent_runNext h hj now)
  | shedLoad targetActive =>
    rw [exec,after_discard]
    exact Or.inl
      (tasks_shedLoad VersionDeadlineScheduler.absent_shedLoad targetActive r habsent).2
  | setGpuLoad load => exact Or.inl hj
  | submitTask a =>
    rw [exec,after_discard]
    cases submitted c a h with
    | unknownSession hget hrun | branchExists session branch hget hbranch hrun =>
      rw [after_error hrun]
      exact Or.inl hj
    | abandoned session e tokens next hget hnew hfail he hadded htasks hrun
    | refused session e next hget hnew hadded htasks hrun =>
      rw [after_error hrun,htasks]
      exact Or.inl hj
    | accepted session promptTokens deadline next hget hnew hencode hadded hdeadline htasks hrun =>
      rw [after_ok hrun,htasks,VersionDeadlineScheduler.get?_store]
      by_cases hid : j = resolvedTaskId a
      · exact Or.inr ⟨a,_,next,rfl,hrun,hid.symm⟩
      · exact Or.inl ((if_neg hid).trans hj)

/-- What an accepted submission leaves. -/
theorem submitTask_returned {a : Submission} {task : AnalysisTask PyFloat} (h : InOrder r)
    (hrun : submitTask c a r = .ok task next) :
    ∃ session promptTokens deadline, r.sessions.sessions.get? a.sessionId = some session ∧
      c.tokenizer.encode (taskPrompt a.kind a.prompt) = some promptTokens ∧
      task = newTask a session (submittedBranch a session) deadline ∧ next.sessions = r.sessions ∧
      next.scheduler.tasks.get? task.taskId = some task ∧
      next.branches.branches.get? (branchIdOf task.taskId) = some (submittedBranch a session) := by
  obtain ⟨session,promptTokens,deadline,hget,hencode,hadded,htasks,rfl⟩ := submitted_of_ok h hrun
  refine ⟨session,promptTokens,deadline,hget,hencode,rfl,hadded.sessions,?_,hadded.self⟩
  rw [htasks,VersionDeadlineScheduler.get?_store,if_pos rfl]

/-- `a` is accepted in the state `r`, where its session is `session`, as the task `taskId`. -/
structure SubmittedAt (c : Services S) (r : CueBeeRuntime S) (a : Submission)
    (session : ConversationSession) (taskId : TaskId) : Prop where
  session : r.sessions.sessions.get? a.sessionId = some session
  accepted : ∃ task next, submitTask c a r = .ok task next ∧ task.taskId = taskId

/-- Every task of a run has been submitted in it. -/
theorem exists_submittedAt (h : InOrder start) {j : TaskId}
    (hj : start.scheduler.tasks.get? j = none) {calls : List Call} {task : AnalysisTask PyFloat}
    (ht : (runAll (exec c) calls start).scheduler.tasks.get? j = some task) :
    ∃ before a between session, calls = before ++ .submitTask a :: between ∧
      SubmittedAt c (runAll (exec c) before start) a session j := by
  induction calls generalizing start with
  | nil =>
    rw [runAll_nil,hj] at ht
    cases ht
  | cons call rest ih =>
    rcases absent_exec (c := c) h hj call with hnone | ⟨a,task,next,rfl,hrun,hid⟩
    · have hnext : InOrder (after (exec c call) start) := (since_exec call start (.refl h)).inOrder
      obtain ⟨before,a,between,session,rfl,hsub⟩ := ih hnext hnone ht
      exact ⟨call :: before,a,between,session,rfl,hsub⟩
    · obtain ⟨session,-,-,hsession,-⟩ := submitTask_returned h hrun
      exact ⟨[],a,rest,session,rfl,hsession,task,next,hrun,hid⟩

/-- The task of a flight was queued and not stale; its prompt is built from the session. -/
theorem startNext_flight {now : PyFloat} {flight : Flight} (h : InOrder r)
    (hrun : startNext c now r = .ok (some flight) next) :
    ∃ before branch session, r.scheduler.tasks.get? flight.task.taskId = some before ∧
      SameTask before flight.task ∧ before.status = .queued ∧
      staleBase r.currentVersions before = false ∧
      r.branches.branches.get? (branchIdOf flight.task.taskId) = some branch ∧
      r.sessions.sessions.get? flight.task.sessionId = some session ∧
      c.tokenizer.encode (promptOf flight.task branch session) =
        some flight.request.promptTokenIds ∧
      flight.request = newRequest flight.task (promptOf flight.task branch session)
        flight.request.promptTokenIds := by
  cases hpop : VersionDeadlineScheduler.popNext r.currentVersions now r.scheduler with
  | error e q =>
    rw [(startNext_overflow c h hpop).2] at hrun
    cases hrun
  | ok popped q =>
    cases popped with
    | none =>
      rw [(startNext_idle c h hpop).2] at hrun
      cases hrun
    | some task =>
      obtain ⟨branch,session,mid,hpopping,-,hraise,hreturn⟩ := startNext_popped c h hpop
      obtain ⟨before,hget,hqueued,hfresh,htask⟩ :=
        (VersionDeadlineScheduler.popped_of_ok h.tasksNamed hpop).source task rfl
      cases hencode : c.tokenizer.encode (promptOf task branch session) with
      | none =>
        rw [hraise hencode] at hrun
        cases hrun
      | some promptTokens =>
        rw [hreturn promptTokens hencode] at hrun
        cases hrun
        exact ⟨before,branch,session,hget,by rw [htask]; rfl,hqueued,hfresh,hpopping.found,
          hpopping.session,hencode,rfl⟩

/-- The request carries the version of `session`, and the transcript of `session` on the
dependency range of the task before the prompt of the task. -/
structure SeesClaimed (c : Services S) (flight : Flight) (session : ConversationSession) : Prop where
  version : flight.request.baseVersion = session.version
  tokens : ∃ promptTokens,
    c.tokenizer.encode (taskPrompt flight.task.kind flight.task.prompt) = some promptTokens ∧
    flight.request.promptTokenIds =
      slice flight.task.dependency session.allTokens ++ promptTokens
  text : c.tokenizer.encode flight.request.prompt = some flight.request.promptTokenIds

/-- The dependency of a submission in the terms of its kind. -/
theorem slice_submitted (a : Submission) (session : ConversationSession) :
    slice (submittedBranch a session).dependency session.allTokens =
      if a.kind.currentVersion = true then session.allTokens else session.committedTokens := by
  by_cases hkind : a.kind.currentVersion = true
  · have hdep : (submittedBranch a session).dependency = ⟨0,session.totalTokens,Nat.zero_le _⟩ := by
      simp [submittedBranch,BranchGraph.newBranch,hkind]
    rw [hdep,slice_all,if_pos hkind]
  · have hdep : (submittedBranch a session).dependency =
        ⟨0,session.commitFrontier,Nat.zero_le _⟩ := by
      simp [submittedBranch,BranchGraph.newBranch,hkind]
    rw [hdep,slice_committed,if_neg hkind]

section Submitted
variable {a : Submission} {claimed : ConversationSession} {flight : Flight} {now : PyFloat}

/-- The prompt of a task that is started in `r`, after its submission in `start`. -/
structure Prompted (c : Services S) (a : Submission) (claimed : ConversationSession)
    (flight : Flight) (session : ConversationSession) (promptTokens : List Token) : Prop where
  advances : Advances claimed session
  current : a.kind.currentVersion = true → session.version = claimed.version
  version : flight.request.baseVersion = claimed.version
  dependency : flight.task.dependency = (submittedBranch a claimed).dependency
  prompt : c.tokenizer.encode (taskPrompt flight.task.kind flight.task.prompt) = some promptTokens
  text : c.tokenizer.encode flight.request.prompt = some flight.request.promptTokenIds
  tokens : flight.request.promptTokenIds =
    (if a.kind.currentVersion = true then session.allTokens else session.committedTokens) ++
      promptTokens

theorem startNext_prompted (htok : c.tokenizer.Piecewise) (h : InOrder start)
    (hsub : SubmittedAt c start a claimed flight.task.taskId)
    (hencoded : r.sessions.Encoded c.tokenizer)
    (hsince : Since (after (exec c (.submitTask a)) start) r)
    (hrun : startNext c now r = .ok (some flight) next) :
    ∃ session promptTokens, r.sessions.sessions.get? a.sessionId = some session ∧
      Prompted c a claimed flight session promptTokens := by
  obtain ⟨task,mid,hsubmit,hid⟩ := hsub.accepted
  obtain ⟨claimed',promptTokens,deadline,hclaimed,hprompt,rfl,hsessions,htask,hbranch⟩ :=
    submitTask_returned h hsubmit
  rw [hsub.session,Option.some.injEq] at hclaimed
  subst hclaimed
  rw [exec,after_discard,after_ok hsubmit] at hsince
  rw [hid] at htask hbranch
  obtain ⟨before,branch,session,hget,hsame,hqueued,hfresh,hfound,hsession,hencode,hrequest⟩ :=
    startNext_flight hsince.inOrder hrun
  -- the task and its branch are those of the submission but for their statuses
  obtain ⟨task',ht',hsame',-⟩ := hsince.lasting.tasks _ _ htask
  obtain ⟨branch',hb',hsameb,-⟩ := hsince.lasting.branches _ _ hbranch
  rw [hget,Option.some.injEq] at ht'
  rw [hfound,Option.some.injEq] at hb'
  subst ht'
  subst hb'
  have hflight : SameTask (newTask a claimed (submittedBranch a claimed) deadline) flight.task :=
    hsame'.trans hsame
  have hkind : flight.task.kind = a.kind := by rw [hflight]; rfl
  have hsay : flight.task.prompt = a.prompt := by rw [hflight]; rfl
  have hsid : flight.task.sessionId = a.sessionId := by rw [hflight]; rfl
  have hbase : flight.task.baseVersion = claimed.version := by rw [hflight]; rfl
  have htentative : branch.includesTentative = a.kind.currentVersion := by rw [hsameb]; rfl
  rw [hsid] at hsession
  rw [← hkind,← hsay] at hprompt
  have hwhole := htok.concatenates.concat
    ((hencoded _ session hsession).encode_transcriptText htok.concatenates branch.includesTentative) hprompt
  refine ⟨session,promptTokens,hsession,?_,fun hcurrent => ?_,?_,by rw [hflight]; rfl,hprompt,?_,?_⟩
  · obtain ⟨session',hsession',hadv⟩ := hsince.lasting.sessions a.sessionId claimed
      (by rw [hsessions]; exact hsub.session)
    rw [hsession,Option.some.injEq] at hsession'
    exact hsession' ▸ hadv
  · -- a queued task that requires the current version and is not stale
    have hreq : before.requiresCurrentVersion = true := by rw [hsame']; exact hcurrent
    have hbefore : before.baseVersion = claimed.version := by rw [hsame']; rfl
    have hbsid : before.sessionId = a.sessionId := by rw [hsame']; rfl
    simpa [staleBase,hqueued,hreq,currentVersions,hbsid,hsession,hbefore] using hfresh
  · rw [hrequest]
    exact hbase
  · rw [hrequest]
    exact hencode
  · rw [promptOf,hwhole,Option.some.injEq,htentative] at hencode
    exact hencode.symm

/-- A task that is started after its submission reads what it claims, or what is committed
by then. -/
theorem seesClaimed_iff (htok : c.tokenizer.Piecewise) (h : InOrder start)
    (hsub : SubmittedAt c start a claimed flight.task.taskId)
    (hencoded : r.sessions.Encoded c.tokenizer)
    (hsince : Since (after (exec c (.submitTask a)) start) r)
    (hrun : startNext c now r = .ok (some flight) next) :
    SeesClaimed c flight claimed ↔ a.kind.currentVersion = true ∨
      (r.sessions.current a.sessionId).commitFrontier = claimed.commitFrontier := by
  obtain ⟨session,promptTokens,hsession,hp⟩ :=
    startNext_prompted htok h hsub hencoded hsince hrun
  have hslice := slice_submitted a claimed
  rw [current_of_some hsession,← hp.dependency] at *
  constructor
  · rintro ⟨-,⟨promptTokens',hprompt',htokens'⟩,-⟩
    rw [hp.prompt,Option.some.injEq] at hprompt'
    subst hprompt'
    by_cases hkind : a.kind.currentVersion = true
    · exact Or.inl hkind
    · refine Or.inr ?_
      rw [hp.tokens,hslice,if_neg hkind,if_neg hkind] at htokens'
      exact congrArg List.length (List.append_cancel_right htokens')
  · intro hcase
    refine ⟨hp.version,⟨promptTokens,hp.prompt,?_⟩,hp.text⟩
    rw [hp.tokens,hslice]
    by_cases hkind : a.kind.currentVersion = true
    · have hsame := hp.advances.same (hp.current hkind).symm
      rw [if_pos hkind,if_pos hkind,allTokens,allTokens,hsame.committedTokens,hsame.tentativeTokens]
    · have hlen := hcase.resolve_left hkind
      rw [if_neg hkind,if_neg hkind,hp.advances.committed.eq_of_length hlen.symm]

theorem seesClaimed_run_iff (htok : c.tokenizer.Piecewise) (h : InOrder start)
    (hencoded : start.sessions.Encoded c.tokenizer) (before between : List Call)
    (hsub : SubmittedAt c (runAll (exec c) before start) a claimed flight.task.taskId)
    (hrun : startNext c now (runAll (exec c) (before ++ .submitTask a :: between) start) =
      .ok (some flight) next) :
    SeesClaimed c flight claimed ↔ a.kind.currentVersion = true ∨
      ((runAll (exec c) (before ++ .submitTask a :: between) start).sessions.current
        a.sessionId).commitFrontier = claimed.commitFrontier := by
  have hbefore : InOrder (runAll (exec c) before start) := (since_run before h).inOrder
  refine seesClaimed_iff htok hbefore hsub
    (runAll_keeps (sessions_exec (encoded_apply htok.concatenates)) _ hencoded) ?_ hrun
  rw [runAll_append,runAll_cons]
  exact since_run between (since_exec _ _ (.refl hbefore)).inOrder

end Submitted

theorem encoded_init (tok : Tokenizer) (blockSize : ℕ) (hblock : 0 < blockSize) (admissionCap : ℕ)
    (hcap : 0 < admissionCap) (e : S) :
    (init blockSize hblock admissionCap hcap e).sessions.Encoded tok := fun _ _ hget => by cases hget

end CueBeeRuntime
open CueBeeRuntime

theorem engine_sees_claimed {S : Type} (c : Services S) (htok : c.tokenizer = utf8Tokenizer)
    (blockSize : ℕ) (hblock : 0 < blockSize) (admissionCap : ℕ) (hcap : 0 < admissionCap) (e : S)
    (calls : List Call) :
    let start := init blockSize hblock admissionCap hcap e
    let r := runAll (exec c) calls start
    ∀ now flight next, startNext c now r = .ok (some flight) next →
      (∃ before a between claimed, calls = before ++ .submitTask a :: between ∧
        SubmittedAt c (runAll (exec c) before start) a claimed flight.task.taskId) ∧
      ∀ before a between claimed, calls = before ++ .submitTask a :: between →
        SubmittedAt c (runAll (exec c) before start) a claimed flight.task.taskId →
        (SeesClaimed c flight claimed ↔ a.kind.currentVersion = true ∨
          (r.sessions.current a.sessionId).commitFrontier = claimed.commitFrontier) := by
  intro start r now flight next hrun
  have hpiece : c.tokenizer.Piecewise := htok ▸ utf8Tokenizer_piecewise
  have hstart : InOrder start := inOrder_init blockSize hblock admissionCap hcap e
  have hr : Since start r := since_run calls hstart
  constructor
  · obtain ⟨task,branch,session,hget,-⟩ := startNext_flight hr.inOrder hrun
    exact exists_submittedAt hstart rfl hget
  · rintro before a between claimed rfl hsub
    exact seesClaimed_run_iff hpiece hstart (encoded_init _ _ hblock _ hcap e) before between hsub hrun

/-- A hint that is started before the next event. -/
theorem engine_sees_claimed_hint :
    let c := quietServices utf8Tokenizer
    let start := init 4 (by decide) 8 (by decide) ()
    let before : List Call := [.handleEvent (heard "g" 0 .appendPartial "hi" (by decide) (by decide))]
    let a := asked "t" .proactiveHint (lit "why")
    let claimed := (runAll (exec c) before start).sessions.current (lit "s")
    ∃ flight next, startNext c (.fin 1) (runAll (exec c) (before ++ [.submitTask a]) start) =
        .ok (some flight) next ∧ SeesClaimed c flight claimed := by
  intro c start before a claimed
  obtain ⟨started,next,hrun,hid⟩ := exists_of_outcome (b := some (lit "t"))
    (show (outcome (startNext c (.fin 1)) (runAll (exec c) (before ++ [.submitTask a]) start)).map
      (Option.map (fun flight => flight.task.taskId)) = _ by decide +kernel)
  obtain ⟨flight,rfl,hflight⟩ := Option.map_eq_some_iff.mp hid
  obtain ⟨task,mid,hsubmit,htask⟩ := exists_of_outcome (b := lit "t")
    (show (outcome (submitTask c a) (runAll (exec c) before start)).map AnalysisTask.taskId = _ by
      decide +kernel)
  refine ⟨flight,next,hrun,?_⟩
  exact ((engine_sees_claimed c rfl 4 (by decide) 8 (by decide) () _ (.fin 1) flight next hrun).2
    before a [] claimed rfl ⟨by decide +kernel,task,mid,hsubmit,htask.trans hflight.symm⟩).mpr
    (Or.inl rfl)

/-- A final between the submission of a query and its start: the request carries the version
of the first final and the text of both. -/
theorem query_reads_later_final :
    let c := quietServices utf8Tokenizer
    let start := init 4 (by decide) 8 (by decide) ()
    let before : List Call := [.handleEvent (heard "g" 0 .commitFinal "hi" (by decide) (by decide))]
    let a := asked "t" .userQuery (lit "why")
    let later : List Call := [.handleEvent (heard "h" 0 .commitFinal "yo" (by decide) (by decide))]
    let claimed := (runAll (exec c) before start).sessions.current (lit "s")
    ∃ flight next, SubmittedAt c (runAll (exec c) before start) a claimed flight.task.taskId ∧
      startNext c (.fin 1) (runAll (exec c) (before ++ .submitTask a :: later) start) =
        .ok (some flight) next ∧ ¬SeesClaimed c flight claimed := by
  intro c start before a later claimed
  obtain ⟨started,next,hrun,hid⟩ := exists_of_outcome (b := some (lit "t"))
    (show (outcome (startNext c (.fin 1))
      (runAll (exec c) (before ++ .submitTask a :: later) start)).map
      (Option.map (fun flight => flight.task.taskId)) = _ by decide +kernel)
  obtain ⟨flight,rfl,hflight⟩ := Option.map_eq_some_iff.mp hid
  obtain ⟨task,mid,hsubmit,htask⟩ := exists_of_outcome (b := lit "t")
    (show (outcome (submitTask c a) (runAll (exec c) before start)).map AnalysisTask.taskId = _ by
      decide +kernel)
  have hsub : SubmittedAt c (runAll (exec c) before start) a claimed flight.task.taskId :=
    ⟨by decide +kernel,task,mid,hsubmit,htask.trans hflight.symm⟩
  refine ⟨flight,next,hsub,hrun,?_⟩
  rw [seesClaimed_run_iff utf8Tokenizer_piecewise (inOrder_init 4 (by decide) 8 (by decide) ())
    (encoded_init _ _ _ _ _ _) before later hsub hrun]
  decide +kernel

end CueBee.Runtime
