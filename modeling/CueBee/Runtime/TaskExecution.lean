import CueBee.Runtime.TaskHandling

/-! # run_next and shed_load keep the invariant

Both only change statuses and release references; each way through the two halves of
`run_next` and through `shed_load` is described by a `Restatused`.
-/
namespace CueBee.Runtime
open Cache Transcript Raising ConversationSession SessionManager VersionedKVManager
open VersionDeadlineScheduler (Popped staleBase cancelStale)

/-- The branch after `cancel`; a branch that is not active stays. -/
def Branch.cancel (branch : Branch) : Branch :=
  if branch.status.active = true then { branch with status := .cancelled } else branch

theorem Branch.cancel_same (branch : Branch) : SameBranch branch branch.cancel := by
  unfold Branch.cancel SameBranch
  split <;> rfl

theorem Branch.cancel_cancel (branch : Branch) : branch.cancel.cancel = branch.cancel := by
  unfold Branch.cancel
  split <;> simp_all [BranchStatus.active]

theorem Branch.cancel_inactive (branch : Branch) : branch.cancel.status.active = false := by
  unfold Branch.cancel
  by_cases ha : branch.status.active = true
  · rw [if_pos ha]
    rfl
  · rw [if_neg ha]
    simpa using ha

theorem cancelStale_same (currentVersions : SessionId → Option ℕ) (task : AnalysisTask PyFloat) :
    SameTask task (cancelStale currentVersions task) := by
  unfold cancelStale SameTask
  split <;> rfl

namespace CueBeeRuntime
variable {S : Type} {c : Services S} {r next : CueBeeRuntime S}

def popBranch (popped : Option TaskId) (id : BranchId) (branch : Branch) : Branch :=
  if popped.map branchIdOf = some id then { branch with status := .running } else branch

def popTask (currentVersions : SessionId → Option ℕ) (popped : Option TaskId) (j : TaskId)
    (task : AnalysisTask PyFloat) : AnalysisTask PyFloat :=
  if popped = some j then { task with status := .running } else cancelStale currentVersions task

/-- The text that is sent to the engine. -/
def promptOf (task : AnalysisTask PyFloat) (branch : Branch) (session : ConversationSession) : PyStr :=
  session.transcriptText branch.includesTentative ++ taskPrompt task.kind task.prompt

/-- `task` has been taken from the queue. -/
structure Popping (task : AnalysisTask PyFloat) (branch : Branch) (session : ConversationSession)
    (r next : CueBeeRuntime S) : Prop where
  source : ∃ before, r.scheduler.tasks.get? task.taskId = some before ∧
    before.status = .queued ∧ task = { before with status := .running }
  found : r.branches.branches.get? (branchIdOf task.taskId) = some branch
  queued : branch.status = .queued
  session : r.sessions.sessions.get? task.sessionId = some session
  effect : Restatused (popBranch (some task.taskId))
    (popTask r.currentVersions (some task.taskId)) (fun _ => False) r next

/-- The ways through the first half of `run_next`. -/
inductive Started (c : Services S) (now : PyFloat) (r : CueBeeRuntime S) : Prop
  | overflow (next : CueBeeRuntime S)
      (heffect : Restatused (popBranch none) (popTask r.currentVersions none) (fun _ => False)
        r next)
      (hrun : startNext c now r = .error (.scheduler .overflow) next)
  | idle (next : CueBeeRuntime S)
      (heffect : Restatused (popBranch none) (popTask r.currentVersions none) (fun _ => False)
        r next)
      (hrun : startNext c now r = .ok none next)
  | unencodable (task : AnalysisTask PyFloat) (branch : Branch) (session : ConversationSession)
      (next : CueBeeRuntime S) (hpop : Popping task branch session r next)
      (hencode : c.tokenizer.encode (promptOf task branch session) = none)
      (hrun : startNext c now r = .error .encode next)
  | started (task : AnalysisTask PyFloat) (branch : Branch) (session : ConversationSession)
      (promptTokens : List Token) (next : CueBeeRuntime S)
      (hpop : Popping task branch session r next)
      (hencode : c.tokenizer.encode (promptOf task branch session) = some promptTokens)
      (hrun : startNext c now r = .ok (some ⟨task,branchIdOf task.taskId,
        newRequest task (promptOf task branch session) promptTokens⟩) next)

theorem popped_tasks {popped : Option (AnalysisTask PyFloat)} {s q : VersionDeadlineScheduler PyFloat}
    {currentVersions : SessionId → Option ℕ} (h : Popped currentVersions popped s q) (j : TaskId) :
    q.tasks.get? j =
      (s.tasks.get? j).map (popTask currentVersions (popped.map AnalysisTask.taskId) j) := by
  rw [h.tasks j]
  by_cases hj : popped.map AnalysisTask.taskId = some j
  · obtain ⟨task,hpopped,hid⟩ := Option.map_eq_some_iff.mp hj
    obtain ⟨before,hget,-,-,htask⟩ := h.source task hpopped
    rw [hid] at hget
    rw [if_pos hj,hget,Option.map_some,popTask,if_pos hj,hpopped,htask]
  · rw [if_neg hj]
    unfold popTask
    simp only [if_neg hj]

theorem swept_effect (h : InOrder r) {q : VersionDeadlineScheduler PyFloat}
    (hpopped : Popped r.currentVersions none r.scheduler q) :
    Restatused (popBranch none) (popTask r.currentVersions none) (fun _ => False)
      r { r with scheduler := q } := by
  refine ⟨⟨rfl,rfl,rfl,fun id => ?_,popped_tasks hpopped,h.sound,fun _ hf => hf.elim,
    fun _ _ => rfl⟩,rfl⟩
  unfold popBranch
  simp

/-- Nothing is queued. -/
theorem startNext_idle (c : Services S) {now : PyFloat} (h : InOrder r)
    {q : VersionDeadlineScheduler PyFloat}
    (hpop : VersionDeadlineScheduler.popNext r.currentVersions now r.scheduler = .ok none q) :
    Restatused (popBranch none) (popTask r.currentVersions none) (fun _ => False)
      r { r with scheduler := q } ∧ startNext c now r = .ok none { r with scheduler := q } := by
  refine ⟨swept_effect h (VersionDeadlineScheduler.popped_of_ok h.tasksNamed hpop),?_⟩
  have h1 : onScheduler (VersionDeadlineScheduler.popNext r.currentVersions now) r =
      .ok none { r with scheduler := q } := onScheduler_ok hpop
  simp only [startNext,bind_ok (get_apply r),bind_ok h1]
  rfl

/-- A score overflows. -/
theorem startNext_overflow (c : Services S) {now : PyFloat} (h : InOrder r) {e : SchedulerError}
    {q : VersionDeadlineScheduler PyFloat}
    (hpop : VersionDeadlineScheduler.popNext r.currentVersions now r.scheduler = .error e q) :
    Restatused (popBranch none) (popTask r.currentVersions none) (fun _ => False)
      r { r with scheduler := q } ∧
      startNext c now r = .error (.scheduler .overflow) { r with scheduler := q } := by
  obtain ⟨rfl,hpopped⟩ := VersionDeadlineScheduler.popped_of_error h.tasksNamed hpop
  refine ⟨swept_effect h hpopped,?_⟩
  have h1 : onScheduler (VersionDeadlineScheduler.popNext r.currentVersions now) r =
      .error (.scheduler .overflow) { r with scheduler := q } := focus_error hpop
  simp only [startNext,bind_ok (get_apply r)]
  exact bind_error h1

/-- The popped task runs, and its prompt is built. -/
theorem startNext_popped (c : Services S) {now : PyFloat} (h : InOrder r)
    {task : AnalysisTask PyFloat} {q : VersionDeadlineScheduler PyFloat}
    (hpop : VersionDeadlineScheduler.popNext r.currentVersions now r.scheduler = .ok (some task) q) :
    ∃ branch session next, Popping task branch session r next ∧ next.engine = r.engine ∧
      (c.tokenizer.encode (promptOf task branch session) = none →
        startNext c now r = .error .encode next) ∧
      ∀ promptTokens, c.tokenizer.encode (promptOf task branch session) = some promptTokens →
        startNext c now r = .ok (some ⟨task,branchIdOf task.taskId,
          newRequest task (promptOf task branch session) promptTokens⟩) next := by
  have hpopped := VersionDeadlineScheduler.popped_of_ok h.tasksNamed hpop
  have h1 : onScheduler (VersionDeadlineScheduler.popNext r.currentVersions now) r =
      .ok (some task) { r with scheduler := q } := onScheduler_ok hpop
  obtain ⟨before,hget,hqueued,hfresh,htask⟩ := hpopped.source task rfl
  obtain ⟨branch,hbranch,hpair,hbq⟩ := h.queued_branch hget hqueued hfresh
  have hname := h.named _ branch hbranch
  obtain ⟨session,hsession,-⟩ := (h.grounded _ branch hbranch).session
  rw [← hpair.sessionId,show before.sessionId = task.sessionId by rw [htask]] at hsession
  let g := r.branches.store { branch with status := .running }
  have h2 : onGraph (BranchGraph.forTask task.taskId) { r with scheduler := q } =
      .ok branch { r with scheduler := q } := onGraph_ok (BranchGraph.get_ok hbranch)
  have h3 : onGraph (BranchGraph.markRunning branch.branchId) { r with scheduler := q } =
      .ok () { r with scheduler := q, branches := g } := by
    refine onGraph_ok (BranchGraph.markRunning_ok ?_ hbq)
    rw [hname.1]
    exact hbranch
  have h4 : onSessions (SessionManager.get task.sessionId)
      { r with scheduler := q, branches := g } =
      .ok session { r with scheduler := q, branches := g } := onSessions_get hsession
  refine ⟨branch,session,{ r with scheduler := q, branches := g },?_,rfl,fun hencode => ?_,
    fun promptTokens hencode => ?_⟩
  · refine ⟨⟨before,hget,hqueued,htask⟩,hbranch,hbq,hsession,⟨rfl,rfl,rfl,fun id => ?_,
      popped_tasks hpopped,h.sound,fun _ hf => hf.elim,fun _ _ => rfl⟩,rfl⟩
    show (r.branches.store { branch with status := .running }).branches.get? id = _
    rw [BranchGraph.get?_store]
    unfold popBranch
    by_cases hid : id = branchIdOf task.taskId
    · subst hid
      simp [hname.1,hbranch]
    · simp [hname.1,hid,Ne.symm hid]
  · simp only [startNext,bind_ok (get_apply r),bind_ok h1,bind_ok h2,bind_ok h3,bind_ok h4]
    rw [← promptOf,hencode]
    rfl
  · simp only [startNext,bind_ok (get_apply r),bind_ok h1,bind_ok h2,bind_ok h3,bind_ok h4]
    rw [← promptOf,hencode]
    rw [← hname.1]
    rfl

theorem started (c : Services S) (now : PyFloat) (h : InOrder r) : Started c now r := by
  cases hpop : VersionDeadlineScheduler.popNext r.currentVersions now r.scheduler with
  | error e q =>
    obtain ⟨heffect,hrun⟩ := startNext_overflow c h hpop
    exact .overflow _ heffect hrun
  | ok popped q =>
    cases popped with
    | none =>
      obtain ⟨heffect,hrun⟩ := startNext_idle c h hpop
      exact .idle _ heffect hrun
    | some task =>
      obtain ⟨branch,session,next,hpopping,-,hraise,hreturn⟩ := startNext_popped c h hpop
      cases hencode : c.tokenizer.encode (promptOf task branch session) with
      | none => exact .unencodable task branch session next hpopping hencode (hraise hencode)
      | some promptTokens =>
        exact .started task branch session promptTokens next hpopping hencode
          (hreturn promptTokens hencode)

/-- Cancelling stale tasks and running the popped one keeps the invariant. -/
theorem inv_popped {popped : Option TaskId} (h : Inv r)
    (hqueued : ∀ id, popped = some id →
      ∃ task, r.scheduler.tasks.get? id = some task ∧ task.status = .queued)
    (heffect : Restatused (popBranch popped) (popTask r.currentVersions popped) (fun _ => False)
      r next) : Inv next := by
  refine heffect.inv h ?_ ?_ ?_ ?_
  · intro id b hb
    unfold popBranch
    split
    · rename_i hid
      obtain ⟨taskId,hpopped,rfl⟩ := Option.map_eq_some_iff.mp hid
      obtain ⟨task,ht,hq⟩ := hqueued taskId hpopped
      obtain ⟨b',hb',hp⟩ := h.paired _ task ht
      have hsame : b' = b := Option.some.inj (hb'.symm.trans hb)
      refine ⟨rfl,fun _ => ?_⟩
      rw [← hsame,hp.statuses.queued hq]
      rfl
    · exact ⟨.refl b,fun ha => ha⟩
  · intro j t ht
    unfold popTask
    split
    · rfl
    · exact cancelStale_same _ t
  · intro id b hb _ ha
    unfold popBranch
    split
    · rfl
    · exact ha
  · intro j t b ht hb hp
    unfold popTask popBranch
    by_cases hj : popped = some j
    · rw [if_pos hj,if_pos (map_branchIdOf_eq_some.mpr hj)]
      exact .bothRunning
    · rw [if_neg hj,if_neg (mt map_branchIdOf_eq_some.mp hj)]
      unfold cancelStale
      split
      · rename_i hst
        -- a stale task was queued, and so was its branch
        simp only [staleBase,Bool.and_eq_true,decide_eq_true_eq] at hst
        have hbq := hp.queued hst.1.1
        rw [hbq]
        exact .staleQueued
      · exact hp

theorem Popping.inv {task : AnalysisTask PyFloat} {branch : Branch} {session : ConversationSession}
    (h : Popping task branch session r next) (hinv : Inv r) : Inv next := by
  refine inv_popped hinv (fun id hid => ?_) h.effect
  cases hid
  obtain ⟨before,hget,hq,-⟩ := h.source
  exact ⟨before,hget,hq⟩

/-- What the runtime still knows of a task while its output is generated. -/
structure InFlight (r : CueBeeRuntime S) (flight : Flight) : Prop where
  branchId : flight.branchId = branchIdOf flight.task.taskId
  task : ∃ task, r.scheduler.tasks.get? flight.task.taskId = some task ∧
    SameTask flight.task task ∧ task.status ≠ .queued
  branch : ∃ branch, r.branches.branches.get? flight.branchId = some branch ∧
    (branch.status = .running ∨ branch.status = .invalidated)
  runs : ∀ task branch, r.scheduler.tasks.get? flight.task.taskId = some task →
    r.branches.branches.get? flight.branchId = some branch → branch.status = .running →
    task.status = .running

theorem InFlight.branchId_ne {flight : Flight} (h : InFlight r flight) {j : TaskId}
    (hj : j ≠ flight.task.taskId) : branchIdOf j ≠ flight.branchId := by
  rw [h.branchId]
  exact branchIdOf_ne hj

theorem Popping.inFlight {task : AnalysisTask PyFloat} {branch : Branch} {session : ConversationSession}
    (h : Popping task branch session r next) (request : EngineRequest) :
    InFlight next ⟨task,branchIdOf task.taskId,request⟩ where
  branchId := rfl
  task := by
    obtain ⟨before,hget,-,htask⟩ := h.source
    refine ⟨_,by rw [h.effect.tasks,hget]; rfl,?_⟩
    rw [popTask,if_pos rfl,htask]
    exact ⟨rfl,nofun⟩
  branch := by
    refine ⟨_,by rw [h.effect.branches,h.found]; rfl,Or.inl ?_⟩
    unfold popBranch
    exact congrArg Branch.status (if_pos rfl)
  runs t _ ht _ _ := by
    obtain ⟨before,hget,-,-⟩ := h.source
    rw [h.effect.tasks,hget,Option.map_some,popTask,if_pos rfl] at ht
    cases ht
    rfl

def completeBranch (branchId id : BranchId) (branch : Branch) : Branch :=
  if id = branchId then { branch with status := .completed } else branch

def completeTask (taskId j : TaskId) (task : AnalysisTask PyFloat) : AnalysisTask PyFloat :=
  if j = taskId then { task with status := .completed } else task

def cancelBranch (branchId id : BranchId) (branch : Branch) : Branch :=
  if id = branchId then branch.cancel else branch

def dropTask (reason : CancelReason) (taskId j : TaskId) (task : AnalysisTask PyFloat) :
    AnalysisTask PyFloat :=
  if j = taskId then task.stop .dropped reason else task

/-- The two ways through the second half of `run_next`. -/
inductive Finished (flight : Flight) (result : EngineResult) (r : CueBeeRuntime S) : Prop
  | allowed (branch : Branch) (session : ConversationSession) (next : CueBeeRuntime S)
      (hbranch : r.branches.branches.get? flight.branchId = some branch)
      (hrunning : branch.status = .running)
      (hsession : r.sessions.sessions.get? flight.task.sessionId = some session)
      (hallow : evaluate flight.task branch session = .allow)
      (heffect : Restatused (completeBranch flight.branchId) (completeTask flight.task.taskId)
        (fun id => id = flight.branchId) r next)
      (hrun : finishNext flight result r = .ok ⟨flight.task.taskId,.allow,some result⟩ next)
  | refused (branch : Branch) (session : ConversationSession) (reason : CancelReason)
      (next : CueBeeRuntime S)
      (hbranch : r.branches.branches.get? flight.branchId = some branch)
      (hsession : r.sessions.sessions.get? flight.task.sessionId = some session)
      (hrefuse : evaluate flight.task branch session ≠ .allow)
      (heffect : Restatused (cancelBranch flight.branchId) (dropTask reason flight.task.taskId)
        (fun id => id = flight.branchId) r next)
      (hrun : finishNext flight result r =
        .ok ⟨flight.task.taskId,evaluate flight.task branch session,none⟩ next)

/-- A branch is stored with its last status, and its references are released. -/
theorem ended_effect {id : BranchId} {branch : Branch} {ended : Branch} {k : VersionedKVManager}
    {fb : BranchId → Branch → Branch} (hb : r.branches.branches.get? id = some branch)
    (hid : ended.branchId = id) (hself : fb id branch = ended)
    (hother : ∀ i b, i ≠ id → fb i b = b) (hsound : k.Sound)
    (hview : k.view = r.kv.view.putBranch id none) :
    Restatused fb (fun _ t => t) (fun i => i = id) r
      { r with branches := BranchGraph.store ended { r.branches with kv := k } } where
  revisions := rfl
  sessions := rfl
  gpuLoad := rfl
  branches i := by
    show (BranchGraph.store ended { r.branches with kv := k }).branches.get? i = _
    rw [BranchGraph.get?_store,hid]
    by_cases hi : i = id
    · subst hi
      rw [if_pos rfl,hb,Option.map_some,hself]
    · rw [if_neg hi]
      cases r.branches.branches.get? i with
      | none => rfl
      | some b => rw [Option.map_some,hother i b hi]
  tasks j := by simp
  sound := hsound
  dropped i hi := by
    show k.view.branches i = none
    rw [hi,hview]
    exact NaiveKV.branches_putBranch_self ..
  kept i hi := by
    show k.view.branches i = _
    rw [hview]
    exact NaiveKV.branches_putBranch_ne _ hi _
  reads := by
    show k.view.sessions = _
    rw [hview]
    rfl

/-- Only active branches hold references. -/
def HeldActive (r : CueBeeRuntime S) : Prop :=
  ∀ id, r.kv.view.branches id ≠ none →
    ∃ branch, r.branches.branches.get? id = some branch ∧ branch.status.active = true

/-- `BranchGraph.cancel` on any branch. -/
theorem cancel_effect (hs : r.kv.Sound) (hnamed : r.branches.Named) (hheld : HeldActive r)
    {id : BranchId} {branch : Branch} (hb : r.branches.branches.get? id = some branch) :
    ∃ g, onGraph (BranchGraph.cancel id) r = .ok () { r with branches := g } ∧
      Restatused (cancelBranch id) (fun _ t => t) (fun i => i = id) r { r with branches := g } := by
  have hother : ∀ i b, i ≠ id → cancelBranch id i b = b := fun i b hi => if_neg hi
  by_cases ha : branch.status.active = true
  · obtain ⟨k,hcancel,hsound,hview⟩ := BranchGraph.cancel_ok hs hb ha
    refine ⟨_,onGraph_ok hcancel,ended_effect hb (hnamed _ branch hb).1 ?_ hother hsound hview⟩
    rw [cancelBranch,if_pos rfl,Branch.cancel,if_pos ha]
  · have hnone : r.kv.view.branches id = none := by
      by_contra hne
      obtain ⟨b,hb',hactive⟩ := hheld id hne
      rw [hb] at hb'
      cases hb'
      exact ha hactive
    refine ⟨r.branches,onGraph_ok (BranchGraph.cancel_inactive hb (by simpa using ha)),
      ⟨rfl,rfl,rfl,fun i => ?_,fun j => by simp,hs,fun i hi => hi ▸ hnone,fun _ _ => rfl⟩,rfl⟩
    show r.branches.branches.get? i = _
    by_cases hi : i = id
    · subst hi
      rw [hb,Option.map_some,cancelBranch,if_pos rfl,Branch.cancel,if_neg ha]
    · cases r.branches.branches.get? i with
      | none => rfl
      | some b => rw [Option.map_some,hother i b hi]

/-- `BranchGraph.complete` on a running branch. -/
theorem complete_effect (h : InOrder r) {id : BranchId} {branch : Branch}
    (hb : r.branches.branches.get? id = some branch) (hrunning : branch.status = .running) :
    ∃ g, onGraph (BranchGraph.complete id) r = .ok () { r with branches := g } ∧
      Restatused (completeBranch id) (fun _ t => t) (fun i => i = id) r { r with branches := g } := by
  obtain ⟨k,hcomplete,hsound,hview⟩ := BranchGraph.complete_ok h.sound hb hrunning
  exact ⟨_,onGraph_ok hcomplete,ended_effect hb (h.named _ branch hb).1 (if_pos rfl)
    (fun i b hi => if_neg hi) hsound hview⟩

/-- `VersionDeadlineScheduler.complete` on a running task. -/
theorem completeTask_effect (h : InOrder r) {id : TaskId} {task : AnalysisTask PyFloat}
    (ht : r.scheduler.tasks.get? id = some task) (hrunning : task.status = .running) :
    ∃ q, VersionDeadlineScheduler.complete id r.scheduler = .ok () q ∧
      ∀ j, q.tasks.get? j = (r.scheduler.tasks.get? j).map (completeTask id j) := by
  have htaskId := h.tasksNamed _ task ht
  refine ⟨_,VersionDeadlineScheduler.complete_ok ht hrunning,fun j => ?_⟩
  rw [VersionDeadlineScheduler.get?_store]
  unfold completeTask
  by_cases hj : j = id
  · subst hj
    simp [htaskId,ht]
  · simp [htaskId,hj]

theorem drop_effect (h : InOrder r) {id : TaskId} {task : AnalysisTask PyFloat}
    (ht : r.scheduler.tasks.get? id = some task) (reason : CancelReason) :
    ∃ q, VersionDeadlineScheduler.drop id reason r.scheduler = .ok () q ∧
      ∀ j, q.tasks.get? j = (r.scheduler.tasks.get? j).map (dropTask reason id j) := by
  obtain ⟨q,hdrop,-,htasks⟩ := VersionDeadlineScheduler.drop_ok h.tasksNamed ht reason
  refine ⟨q,hdrop,fun j => ?_⟩
  rw [htasks j]
  unfold dropTask
  by_cases hj : j = id
  · subst hj
    simp [ht]
  · simp [hj]

theorem finished (h : InOrder r) {flight : Flight} (hf : InFlight r flight)
    (result : EngineResult) : Finished flight result r := by
  obtain ⟨task,ht,hsame,-⟩ := hf.task
  obtain ⟨branch,hb,hstatus⟩ := hf.branch
  obtain ⟨b,hb',hpair⟩ := h.attached _ task ht
  rw [← hf.branchId,hb,Option.some.injEq] at hb'
  subst hb'
  obtain ⟨session,hsession,-⟩ := (h.grounded _ branch hb).session
  rw [← hpair.sessionId,show task.sessionId = flight.task.sessionId by rw [hsame]] at hsession
  have h1 : onGraph (BranchGraph.get flight.branchId) r = .ok branch r :=
    onGraph_ok (BranchGraph.get_ok hb)
  have h2 := onSessions_get hsession
  by_cases hallow : evaluate flight.task branch session = .allow
  · -- the branch was not invalidated, so that it runs and the task does too
    have hrunning : branch.status = .running := by
      rcases hstatus with hr | hi
      · exact hr
      · exact absurd hi (evaluate_allow.mp hallow).1.2
    obtain ⟨g,hcomplete,heffect⟩ := complete_effect h hb hrunning
    obtain ⟨q,hdone,htasks⟩ := completeTask_effect h ht (hf.runs task branch ht hb hrunning)
    have h4 : onScheduler (VersionDeadlineScheduler.complete flight.task.taskId)
        { r with branches := g } = .ok () { r with branches := g, scheduler := q } :=
      onScheduler_ok hdone
    refine .allowed branch session { r with
      branches := g
      scheduler := q
      metrics := MetricRegistry.inc .outputsAllowed 1 r.metrics } hb hrunning hsession hallow
      ⟨⟨rfl,rfl,rfl,heffect.branches,htasks,heffect.sound,heffect.dropped,heffect.kept⟩,
        heffect.reads⟩ ?_
    simp only [finishNext,bind_ok h1,bind_ok h2,if_pos hallow,bind_ok hcomplete]
    rw [bind_ok h4]
    rfl
  · obtain ⟨g,hcancel,heffect⟩ := cancel_effect h.sound h.named h.held hb
    generalize hreason : (if evaluate flight.task branch session = .restart then
      CancelReason.freshnessRestart else .freshnessDrop) = reason
    obtain ⟨q,hdrop,htasks⟩ := drop_effect h ht reason
    have h4 : onScheduler (VersionDeadlineScheduler.drop flight.task.taskId reason)
        { r with branches := g } = .ok () { r with branches := g, scheduler := q } :=
      onScheduler_ok hdrop
    refine .refused branch session reason { r with
      branches := g
      scheduler := q
      metrics := MetricRegistry.inc .staleOutputsPrevented 1 r.metrics } hb hsession hallow
      ⟨⟨rfl,rfl,rfl,heffect.branches,htasks,heffect.sound,heffect.dropped,heffect.kept⟩,
        heffect.reads⟩ ?_
    simp only [finishNext,bind_ok h1,bind_ok h2,if_neg hallow,bind_ok hcancel,hreason]
    rw [bind_ok h4]
    rfl

theorem completeBranch_same (branchId id : BranchId) (branch : Branch) :
    SameBranch branch (completeBranch branchId id branch) := by
  unfold completeBranch SameBranch
  split <;> rfl

theorem completeTask_same (taskId j : TaskId) (task : AnalysisTask PyFloat) :
    SameTask task (completeTask taskId j task) := by
  unfold completeTask SameTask
  split <;> rfl

theorem cancelBranch_same (branchId id : BranchId) (branch : Branch) :
    SameBranch branch (cancelBranch branchId id branch) := by
  unfold cancelBranch
  split
  · exact branch.cancel_same
  · exact .refl branch

theorem dropTask_same (reason : CancelReason) (taskId j : TaskId) (task : AnalysisTask PyFloat) :
    SameTask task (dropTask reason taskId j task) := by
  unfold dropTask
  split
  · exact task.stop_same _ _
  · exact .refl task

/-- A task that was stopped together with its branch. -/
theorem StatusesAgree.ended {task : AnalysisTask PyFloat} {branch : Branch} {reason : CancelReason}
    (h : StatusesAgree task.status branch.status) :
    StatusesAgree (task.stop .dropped reason).status branch.cancel.status := by
  by_cases ha : branch.status.active = true
  · have hend : branch.cancel.status = .cancelled := by
      unfold Branch.cancel
      rw [if_pos ha]
    exact h.stopped ha (Or.inr rfl) (Or.inl hend)
  · have hb : branch.cancel = branch := by
      unfold Branch.cancel
      rw [if_neg ha]
    have ht : task.stop .dropped reason = task := by
      unfold AnalysisTask.stop
      refine if_neg (fun hactive => ha ?_)
      cases hs : task.status with
      | queued =>
        rw [h.queued hs]
        rfl
      | running =>
        rw [h.running.mp hs]
        rfl
      | completed | cancelled | dropped =>
        rw [hs] at hactive
        cases hactive
    rw [hb,ht]
    exact h

theorem inv_allowed {flight : Flight} (h : Inv r) (hf : InFlight r flight)
    (heffect : Restatused (completeBranch flight.branchId) (completeTask flight.task.taskId)
      (fun id => id = flight.branchId) r next) : Inv next := by
  refine heffect.inv h (fun id b hid => ⟨completeBranch_same _ id b,fun ha => ?_⟩)
    (fun j t _ => completeTask_same _ j t) (fun id b _ hid ha => ?_) (fun j t b ht hbj hp => ?_)
  · unfold completeBranch at ha
    split at ha
    · cases ha
    · exact ha
  · unfold completeBranch
    rw [if_neg hid]
    exact ha
  · unfold completeBranch completeTask
    by_cases hj : j = flight.task.taskId
    · rw [if_pos hj,if_pos (by rw [hj,hf.branchId])]
      exact .bothCompleted
    · rw [if_neg hj,if_neg (hf.branchId_ne hj)]
      exact hp

theorem inv_refused {flight : Flight} {reason : CancelReason} (h : Inv r) (hf : InFlight r flight)
    (heffect : Restatused (cancelBranch flight.branchId) (dropTask reason flight.task.taskId)
      (fun id => id = flight.branchId) r next) : Inv next := by
  refine heffect.inv h (fun id b hid => ⟨cancelBranch_same _ id b,fun ha => ?_⟩)
    (fun j t _ => dropTask_same _ _ j t) (fun id b _ hid ha => ?_) (fun j t b ht hbj hp => ?_)
  · unfold cancelBranch at ha
    split at ha
    · rw [b.cancel_inactive] at ha
      cases ha
    · exact ha
  · unfold cancelBranch
    rw [if_neg hid]
    exact ha
  · unfold cancelBranch dropTask
    by_cases hj : j = flight.task.taskId
    · rw [if_pos hj,if_pos (by rw [hj,hf.branchId])]
      exact StatusesAgree.ended hp
    · rw [if_neg hj,if_neg (hf.branchId_ne hj)]
      exact hp

/-- The second half of `run_next` returns and keeps the invariant. -/
theorem finishNext_ok (h : Inv r) {flight : Flight} (hf : InFlight r flight) (result : EngineResult) :
    ∃ outcome next, finishNext flight result r = .ok outcome next ∧ Inv next ∧
      outcome.taskId = flight.task.taskId := by
  cases finished h.inOrder hf result with
  | allowed branch session next hbranch hrunning hsession hallow heffect hrun =>
    exact ⟨_,next,hrun,inv_allowed h hf heffect,rfl⟩
  | refused branch session reason next hbranch hsession hrefuse heffect hrun =>
    exact ⟨_,next,hrun,inv_refused h hf heffect,rfl⟩

/-- An engine that never raises answers, and `run_next` goes on to its second half. -/
theorem InFlight.answered {flight : Flight} {now : PyFloat} (hf : InFlight next flight)
    (hengine : c.engine.NeverRaises) (hstart : startNext c now r = .ok (some flight) next) :
    ∃ result e, InFlight { next with engine := e } flight ∧ ∀ outcome last,
      finishNext flight result { next with engine := e } = .ok outcome last →
      runNext c now r = .ok (some outcome) last := by
  obtain ⟨result,e,hgen⟩ := hengine.generate flight.request next.engine
  have hanswer : onEngine (c.engine.generate flight.request) next =
      .ok result { next with engine := e } := focus_ok hgen
  refine ⟨result,e,⟨hf.branchId,hf.task,hf.branch,hf.runs⟩,fun outcome last hfinish => ?_⟩
  simp only [runNext,bind_ok hstart,bind_ok hanswer,bind_ok hfinish]
  rfl

theorem keeps_runNext (hengine : c.engine.NeverRaises) (now : PyFloat) : Keeps Inv (runNext c now) := by
  refine keeps_iff.mpr (fun r h => ?_)
  cases started c now h.inOrder with
  | overflow next heffect hrun =>
    exact Ensures.of_error (bind_error hrun) (inv_popped h (fun id hid => by cases hid) heffect)
  | idle next heffect hrun =>
    have hinv := inv_popped h (fun id hid => by cases hid) heffect
    have hidle : runNext c now r = .ok none next := by
      simp only [runNext,bind_ok hrun]
      rfl
    exact Ensures.of_ok hidle hinv
  | unencodable task branch session next hpop hencode hrun =>
    exact Ensures.of_error (bind_error hrun) (hpop.inv h)
  | started task branch session promptTokens next hpop hencode hrun =>
    obtain ⟨result,e,hflight,hdone⟩ := (hpop.inFlight _).answered hengine hrun
    have hmid : Inv { next with engine := e } := hpop.inv h
    obtain ⟨outcome,last,hfin,hinv,-⟩ := finishNext_ok hmid hflight result
    exact Ensures.of_ok (hdone outcome last hfin) hinv

def cancelBranches (ids : List TaskId) (id : BranchId) (branch : Branch) : Branch :=
  if id ∈ ids.map branchIdOf then branch.cancel else branch

def shedTasks (ids : List TaskId) (j : TaskId) (task : AnalysisTask PyFloat) : AnalysisTask PyFloat :=
  if j ∈ ids then task.shed else task

theorem cancelBranches_same (ids : List TaskId) (id : BranchId) (branch : Branch) :
    SameBranch branch (cancelBranches ids id branch) := by
  unfold cancelBranches
  split
  · exact branch.cancel_same
  · exact .refl branch

theorem shedTasks_same (ids : List TaskId) (j : TaskId) (task : AnalysisTask PyFloat) :
    SameTask task (shedTasks ids j task) := by
  unfold shedTasks
  split
  · rfl
  · exact .refl task

/-- The branches of more tasks are cancelled after the branch of one. -/
theorem cancelBranches_cons {j : TaskId} {rest : List TaskId} {mid : CueBeeRuntime S}
    (hfirst : Restatused (cancelBranch (branchIdOf j)) (fun _ t => t) (fun i => i = branchIdOf j) r mid)
    (hrest : Restatused (cancelBranches rest) (fun _ t => t)
      (fun id => id ∈ rest.map branchIdOf) mid next) :
    Restatused (cancelBranches (j :: rest)) (fun _ t => t)
      (fun id => id ∈ (j :: rest).map branchIdOf) r next where
  revisions := hrest.revisions.trans hfirst.revisions
  sessions := hrest.sessions.trans hfirst.sessions
  gpuLoad := hrest.gpuLoad.trans hfirst.gpuLoad
  branches id := by
    rw [hrest.branches,hfirst.branches,Option.map_map]
    refine congrFun (congrArg Option.map (funext fun b => ?_)) _
    unfold cancelBranches cancelBranch
    rw [Function.comp_apply,List.map_cons]
    by_cases hid : id = branchIdOf j
    · by_cases hm : id ∈ rest.map branchIdOf
      · rw [if_pos hm,if_pos hid,if_pos (List.mem_cons_of_mem _ hm),Branch.cancel_cancel]
      · rw [if_neg hm,if_pos hid,if_pos (List.mem_cons.mpr (Or.inl hid))]
    · simp [hid]
  tasks i := by rw [hrest.tasks,hfirst.tasks,Option.map_map]; rfl
  sound := hrest.sound
  dropped id hid := by
    by_cases hm : id ∈ rest.map branchIdOf
    · exact hrest.dropped id hm
    · rw [hrest.kept id hm]
      exact hfirst.dropped id ((List.mem_cons.mp hid).resolve_right hm)
  kept id hid := by
    rw [List.map_cons,List.mem_cons,not_or] at hid
    rw [hrest.kept id hid.2,hfirst.kept id hid.1]
  reads := hrest.reads.trans hfirst.reads

/-- A cancelled branch holds no references. -/
theorem heldActive_cancel {id : BranchId} (h : HeldActive r)
    (heffect : Restatused (cancelBranch id) (fun _ t => t) (fun i => i = id) r next) :
    HeldActive next := by
  refine held_restatus h heffect.branches (fun i hi => ?_) (fun i b _ hi ha => ?_)
  all_goals
    have hne : i ≠ id := fun he => hi (heffect.dropped i he)
  · show r.kv.view.branches i ≠ none
    rw [← heffect.kept i hne]
    exact hi
  · unfold cancelBranch
    rw [if_neg hne]
    exact ha

/-- The loop over the dropped tasks cancels the branch of each that is still active. -/
theorem cancelDropped_ok {ids : List TaskId} (hs : r.kv.Sound) (hn : r.branches.Named)
    (hheld : HeldActive r)
    (hids : ∀ j ∈ ids, ∃ b, r.branches.branches.get? (branchIdOf j) = some b) :
    ∃ next, cancelDropped ids r = .ok () next ∧ Restatused (cancelBranches ids) (fun _ t => t)
      (fun id => id ∈ ids.map branchIdOf) r next := by
  induction ids generalizing r with
  | nil =>
    refine ⟨r,rfl,⟨rfl,rfl,rfl,fun id => ?_,fun j => by simp,hs,?_,fun _ _ => rfl⟩,rfl⟩
    · unfold cancelBranches
      simp
    · intro id hid
      cases hid
  | cons j rest ih =>
    obtain ⟨b,hb⟩ := hids j List.mem_cons_self
    have hfor : onGraph (BranchGraph.forTask j) r = .ok b r := onGraph_ok (BranchGraph.get_ok hb)
    obtain ⟨g,hcancel,heffect⟩ := cancel_effect hs hn hheld hb
    let mid : CueBeeRuntime S := { r with
      branches := g, metrics := MetricRegistry.inc .tasksOverloadDropped 1 r.metrics }
    have hfirst : Restatused (cancelBranch (branchIdOf j)) (fun _ t => t)
        (fun i => i = branchIdOf j) r mid :=
      ⟨⟨rfl,rfl,rfl,heffect.branches,heffect.tasks,heffect.sound,heffect.dropped,heffect.kept⟩,
        heffect.reads⟩
    have hmid : mid.branches.Named :=
      named_restatus hn hfirst.branches (fun i b _ => cancelBranch_same _ i b)
    have hids' : ∀ i ∈ rest, ∃ b, mid.branches.branches.get? (branchIdOf i) = some b := by
      intro i hi
      obtain ⟨b',hb'⟩ := hids i (List.mem_cons_of_mem _ hi)
      exact ⟨_,(hfirst.branches _).trans (by rw [hb',Option.map_some])⟩
    obtain ⟨next,hrun,hrest⟩ := ih (r := mid) hfirst.sound hmid (heldActive_cancel hheld hfirst) hids'
    refine ⟨next,?_,cancelBranches_cons hfirst hrest⟩
    rw [← (hn _ b hb).1] at hcancel
    simp only [cancelDropped,bind_ok hfor,bind_ok hcancel]
    exact hrun

/-- The two ways through `shed_load`. -/
inductive LoadShed (targetActive : ℤ) (r : CueBeeRuntime S) : Prop
  | negative (htarget : targetActive < 0)
      (hrun : shedLoad targetActive r = .error (.scheduler .negativeTarget) r)
  | shed (dropped : List TaskId) (next : CueBeeRuntime S)
      (hqueued : ∀ id ∈ dropped, ∃ task, r.scheduler.tasks.get? id = some task ∧
        task.status = .queued)
      (heffect : Restatused (cancelBranches dropped) (shedTasks dropped)
        (fun id => id ∈ dropped.map branchIdOf) r next)
      (hrun : shedLoad targetActive r = .ok dropped next)

theorem loadShed (h : InOrder r) (targetActive : ℤ) : LoadShed targetActive r := by
  by_cases htarget : targetActive < 0
  · refine .negative htarget ?_
    have hs : onScheduler (VersionDeadlineScheduler.shedLoad targetActive) r =
        .error (.scheduler .negativeTarget) r :=
      focus_error (VersionDeadlineScheduler.shedLoad_negative htarget)
    exact bind_error hs
  · obtain ⟨dropped,q,hshed,hq⟩ :=
      VersionDeadlineScheduler.shedLoad_ok h.tasksNamed (not_lt.mp htarget)
    have h1 : onScheduler (VersionDeadlineScheduler.shedLoad targetActive) r =
        .ok dropped { r with scheduler := q } := onScheduler_ok hshed
    have hids : ∀ j ∈ dropped, ∃ b, r.branches.branches.get? (branchIdOf j) = some b := by
      intro j hj
      obtain ⟨task,ht,-⟩ := hq.queued j hj
      obtain ⟨b,hb,-⟩ := h.attached j task ht
      exact ⟨b,hb⟩
    obtain ⟨next,hrun,heffect⟩ := cancelDropped_ok (r := { r with scheduler := q }) h.sound h.named
      h.held hids
    refine .shed dropped next hq.queued ⟨⟨heffect.revisions,heffect.sessions,heffect.gpuLoad,
      heffect.branches,fun j => ?_,heffect.sound,heffect.dropped,heffect.kept⟩,heffect.reads⟩ ?_
    · rw [heffect.tasks j]
      show (q.tasks.get? j).map _ = _
      rw [hq.tasks j,Option.map_map]
      rfl
    · simp only [CueBeeRuntime.shedLoad,bind_ok h1,bind_ok hrun]
      rfl

theorem inv_shed {dropped : List TaskId} (h : Inv r)
    (hqueued : ∀ id ∈ dropped, ∃ task, r.scheduler.tasks.get? id = some task ∧
      task.status = .queued)
    (heffect : Restatused (cancelBranches dropped) (shedTasks dropped)
      (fun id => id ∈ dropped.map branchIdOf) r next) : Inv next := by
  refine heffect.inv h (fun id b hid => ?_) (fun j t _ => shedTasks_same _ j t)
    (fun id b _ hid ha => ?_) (fun j t b ht hb hp => ?_)
  · unfold cancelBranches
    split
    · exact ⟨b.cancel_same,fun ha => by rw [b.cancel_inactive] at ha; cases ha⟩
    · exact ⟨.refl b,fun ha => ha⟩
  · unfold cancelBranches
    rw [if_neg hid]
    exact ha
  · unfold cancelBranches shedTasks
    by_cases hj : j ∈ dropped
    · obtain ⟨task,ht',hstatus⟩ := hqueued j hj
      rw [ht,Option.some.injEq] at ht'
      have hb' : b.status = .queued := hp.queued (ht' ▸ hstatus)
      rw [if_pos hj,if_pos (branchIdOf_mem_map.mpr hj),Branch.cancel,if_pos (by rw [hb']; rfl)]
      exact .shedCancelled
    · rw [if_neg hj,if_neg (mt branchIdOf_mem_map.mp hj)]
      exact hp

theorem keeps_shedLoad (targetActive : ℤ) : Keeps (Inv : CueBeeRuntime S → Prop)
    (shedLoad targetActive) := by
  refine keeps_iff.mpr (fun r h => ?_)
  cases loadShed h.inOrder targetActive with
  | negative htarget hrun => exact Ensures.of_error hrun h
  | shed dropped next hqueued heffect hrun => exact Ensures.of_ok hrun (inv_shed h hqueued heffect)

end CueBeeRuntime
end CueBee.Runtime
