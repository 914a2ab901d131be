import CueBee.Support.StableSort
import CueBee.Runtime.TaskSelection
import CueBee.Runtime.MoveEffects

/-! # Draining the queue

With no events in between, one `run_next` after another completes every task whose answer
would still be current, in the order of the scores. `serveOrder` chooses the tasks from a list;
the queue of the runtime is served as that list is. An integer that is too large for a float
stops the queue: `run_next` raises, and never hands out anything again.
-/
namespace CueBee.Runtime
open Cache Transcript Raising PyStr
open VersionDeadlineScheduler (score scored maxLoop fresh staleBase cancelStale Convertible)

/-- The task that `pop_next` picks from its candidates. -/
def choose (weights : SchedulerWeights PyFloat) (now : PyFloat)
    (queue : List (AnalysisTask PyFloat)) : Option (AnalysisTask PyFloat) :=
  match scored weights now queue with
  | some (first :: rest) => some (maxLoop first rest)
  | _ => none

/-- The place of the score among the floats. -/
def points (weights : SchedulerWeights PyFloat) (now : PyFloat) (task : AnalysisTask PyFloat) :
    WithBot (WithTop ℚ) :=
  ((score weights task now).getD .nan).rank

/-- The tasks that are chosen at the clock readings, each the first of the best that remain. -/
def serveOrder (weights : SchedulerWeights PyFloat) :
    List PyFloat → List (AnalysisTask PyFloat) → List (AnalysisTask PyFloat)
  | [], _ => []
  | now :: rest, queue =>
    match choose weights now queue with
    | none => []
    | some task => task :: serveOrder weights rest (queue.erase task)

section Choice
variable {weights : SchedulerWeights PyFloat} {now : PyFloat} {queue : List (AnalysisTask PyFloat)}
  {task : AnalysisTask PyFloat}

theorem choose_mem (h : choose weights now queue = some task) : task ∈ queue := by
  unfold choose at h
  split at h
  · next first rest hscored =>
    obtain rfl := Option.some.inj h
    exact (VersionDeadlineScheduler.scored_eq hscored).1 ▸
      VersionDeadlineScheduler.maxLoop_mem first rest
  · cases h

theorem choose_none (hconv : ∀ t ∈ queue, Convertible t) (h : choose weights now queue = none) :
    queue = [] := by
  cases hscored : scored weights now queue with
  | none =>
    obtain ⟨t,ht,hnone⟩ := VersionDeadlineScheduler.scored_eq_none.mp hscored
    exact absurd (hconv t ht) (VersionDeadlineScheduler.score_eq_none.mp hnone)
  | some pairs =>
    cases pairs with
    | nil => exact (VersionDeadlineScheduler.scored_eq hscored).1.symm
    | cons first rest => simp [choose,hscored] at h

/-- Without a NaN, the first of the best is chosen. -/
theorem choose_firstGreatest (hscore : ∀ t ∈ queue, score weights t now ≠ some .nan)
    (h : choose weights now queue = some task) :
    FirstGreatest (points weights now) queue task := by
  unfold choose at h
  split at h
  · next first rest hscored =>
    obtain rfl := Option.some.inj h
    obtain ⟨hfst,hscores⟩ := VersionDeadlineScheduler.scored_eq hscored
    have hnan : ∀ p ∈ first :: rest, p.2 ≠ .nan := by
      intro p hp hnan
      refine hscore p.1 (hfst ▸ List.mem_map_of_mem hp) ?_
      rw [hscores p hp,hnan]
    obtain ⟨best,hbest⟩ := VersionDeadlineScheduler.maxLoop_firstGreatest PyFloat.rank
      first rest (fun p hp q hq => by
        rw [PyFloat.lt_iff]
        exact ⟨fun h => h.2.2,fun h => ⟨hnan p hp,hnan q hq,h⟩⟩)
    have hpairs : first :: rest =
        queue.map (fun t => (t,(score weights t now).getD .nan)) := by
      rw [← hfst,List.map_map]
      refine (List.map_id _).symm.trans (List.map_congr_left fun pair hpair => ?_)
      rw [Function.comp_apply,hscores pair hpair]
      rfl
    rw [hpairs] at hbest
    obtain ⟨t,ht,hfirst⟩ := hbest.of_map
    obtain ⟨rfl,-⟩ := Prod.mk.inj ht
    exact hfirst
  · cases h

theorem serveOrder_nil (weights : SchedulerWeights PyFloat) (nows : List PyFloat) :
    serveOrder weights nows [] = [] := by
  cases nows with
  | nil => rfl
  | cons now rest => rfl

/-- At one time, the tasks are served as a stable sort by descending scores lists them. -/
theorem serveOrder_replicate (weights : SchedulerWeights PyFloat) (now : PyFloat) (n : ℕ)
    (hconv : ∀ t ∈ queue, Convertible t) (hscore : ∀ t ∈ queue, score weights t now ≠ some .nan) :
    serveOrder weights (List.replicate n now) queue =
      (queue.insertionSort (fun a b => points weights now b ≤ points weights now a)).take n := by
  induction n generalizing queue with
  | zero => rfl
  | succ n ih =>
    rw [List.replicate_succ,serveOrder]
    cases hmax : choose weights now queue with
    | none =>
      rw [choose_none hconv hmax]
      rfl
    | some task =>
      rw [(choose_firstGreatest hscore hmax).insertionSort,List.take_succ_cons]
      exact congrArg (task :: ·) (ih (fun t ht => hconv t (List.mem_of_mem_erase ht))
        (fun t ht => hscore t (List.mem_of_mem_erase ht)))

/-- Whatever the times, enough of them serve every task once. -/
theorem serveOrder_perm (weights : SchedulerWeights PyFloat) {nows : List PyFloat}
    (hconv : ∀ t ∈ queue, Convertible t) (h : queue.length ≤ nows.length) :
    (serveOrder weights nows queue).Perm queue := by
  induction nows generalizing queue with
  | nil =>
    rw [List.length_eq_zero_iff.mp (Nat.le_zero.mp h)]
    rfl
  | cons now rest ih =>
    rw [serveOrder]
    cases hmax : choose weights now queue with
    | none =>
      rw [choose_none hconv hmax]
    | some task =>
      have hmem := choose_mem hmax
      have hlength := List.length_erase_of_mem hmem
      rw [List.length_cons] at h
      exact ((ih (fun t ht => hconv t (List.mem_of_mem_erase ht)) (by omega)).cons task).trans
        (List.perm_cons_erase hmem).symm

end Choice

/-- What one `run_next` does to a task when it serves `served`. -/
def serve (currentVersions : SessionId → Option ℕ) (served : Option TaskId) (task : AnalysisTask PyFloat) :
    AnalysisTask PyFloat :=
  if served = some task.taskId then { task with status := .completed }
  else cancelStale currentVersions task

/-- What a drained queue leaves of a task. -/
def settle (currentVersions : SessionId → Option ℕ) (task : AnalysisTask PyFloat) : AnalysisTask PyFloat :=
  if task.status = .queued && !staleBase currentVersions task then
    { task with status := .completed }
  else cancelStale currentVersions task

section Lists
variable {versions : SessionId → Option ℕ} {tasks : List (AnalysisTask PyFloat)}
  {task : AnalysisTask PyFloat}

/-- A list of tasks with different ids is told apart by the ids. -/
theorem eq_of_taskId (hnodup : (tasks.map AnalysisTask.taskId).Nodup) {a b : AnalysisTask PyFloat}
    (ha : a ∈ tasks) (hb : b ∈ tasks) (hid : a.taskId = b.taskId) : a = b :=
  List.inj_on_of_nodup_map hnodup ha hb hid

theorem staleBase_cancelStale (task : AnalysisTask PyFloat) :
    staleBase versions (cancelStale versions task) = false := by
  by_cases hstale : staleBase versions task = true
  · rw [cancelStale,if_pos hstale]
    simp [staleBase]
  · rw [cancelStale,if_neg hstale]
    simpa using hstale

/-- The served task is gone from the fresh ones, and the others stay. -/
theorem fresh_serve (hnodup : (tasks.map AnalysisTask.taskId).Nodup)
    (hmem : task ∈ tasks.filter (fun t => t.status = .queued && !staleBase versions t)) :
    (tasks.map (serve versions (some task.taskId))).filter
        (fun t => t.status = .queued && !staleBase versions t) =
      (tasks.filter (fun t => t.status = .queued && !staleBase versions t)).erase task := by
  have hin := (List.mem_filter.mp hmem).1
  have hfresh : tasks.Nodup := hnodup.of_map _
  rw [(hfresh.filter _).erase_eq_filter,List.filter_filter,List.filter_map]
  have hkept : ∀ t ∈ tasks, ((fun t : AnalysisTask PyFloat => t.status = .queued && !staleBase versions t) ∘
      serve versions (some task.taskId)) t =
      (t != task && (t.status = .queued && !staleBase versions t)) := by
    intro t ht
    by_cases hid : task.taskId = t.taskId
    · obtain rfl := eq_of_taskId hnodup hin ht hid
      simp [serve]
    · have hne : t ≠ task := fun he => hid (he ▸ rfl)
      by_cases hstale : staleBase versions t = true
      · simp [serve,hid,cancelStale,hstale]
      · simp [serve,hid,cancelStale,hstale,hne]
  rw [List.filter_congr hkept]
  refine (List.map_congr_left (fun t ht => ?_)).trans (List.map_id _)
  obtain ⟨-,hp⟩ := List.mem_filter.mp ht
  simp only [Bool.and_eq_true,bne_iff_ne,ne_eq,decide_eq_true_eq,Bool.not_eq_true'] at hp
  have hid : ¬some task.taskId = some t.taskId := by
    intro he
    exact hp.1 (eq_of_taskId hnodup hin (List.mem_filter.mp ht).1 (Option.some.inj he)).symm
  rw [serve,if_neg hid,cancelStale,if_neg (by simp [hp.2.2]),id]

/-- Cancelling the stale tasks leaves the fresh ones. -/
theorem fresh_sweep (versions : SessionId → Option ℕ) (tasks : List (AnalysisTask PyFloat)) :
    (tasks.map (serve versions none)).filter
        (fun t => t.status = .queued && !staleBase versions t) =
      tasks.filter (fun t => t.status = .queued && !staleBase versions t) := by
  induction tasks with
  | nil => rfl
  | cons task rest ih =>
    have hserve : serve versions none task = cancelStale versions task := if_neg (by simp)
    rw [List.map_cons,List.filter_cons,List.filter_cons,ih,hserve]
    by_cases hstale : staleBase versions task = true
    · simp [cancelStale,hstale]
    · rw [cancelStale,if_neg hstale]

/-- Serving a fresh task is on the way to the drained queue. -/
theorem settle_serve (hnodup : (tasks.map AnalysisTask.taskId).Nodup)
    (hmem : task ∈ tasks.filter (fun t => t.status = .queued && !staleBase versions t)) :
    (tasks.map (serve versions (some task.taskId))).map (settle versions) =
      tasks.map (settle versions) := by
  obtain ⟨hin,hfresh⟩ := List.mem_filter.mp hmem
  rw [List.map_map]
  refine List.map_congr_left (fun t ht => ?_)
  rw [Function.comp_apply]
  by_cases hid : task.taskId = t.taskId
  · obtain rfl := eq_of_taskId hnodup hin ht hid
    rw [serve,if_pos rfl,settle,settle,if_pos hfresh]
    simp [cancelStale,staleBase]
  · rw [serve,if_neg (fun he => hid (Option.some.inj he))]
    by_cases hstale : staleBase versions t = true
    · have hcancelled : (cancelStale versions t).status = .cancelled := by
        rw [cancelStale,if_pos hstale]
      rw [settle,settle,if_neg (by simp [hcancelled]),if_neg (by simp [hstale])]
      rw [cancelStale,if_neg (by simp [staleBase_cancelStale])]
    · rw [cancelStale,if_neg hstale]

/-- When nothing is fresh, one more call leaves the queue drained. -/
theorem settle_sweep (h : tasks.filter (fun t => t.status = .queued && !staleBase versions t) = []) :
    tasks.map (serve versions none) = tasks.map (settle versions) := by
  refine List.map_congr_left (fun t ht => ?_)
  rw [serve,if_neg (by simp),settle,if_neg (List.filter_eq_nil_iff.mp h t ht)]

theorem settle_settle (hnone : tasks.filter (fun t => t.status = .queued && !staleBase versions t) = []) :
    (tasks.map (serve versions none)).map (settle versions) = tasks.map (settle versions) := by
  rw [← settle_sweep ((fresh_sweep versions tasks).trans hnone),← settle_sweep hnone,List.map_map]
  refine List.map_congr_left (fun t _ => ?_)
  rw [Function.comp_apply,serve,if_neg (by simp),serve,if_neg (by simp),cancelStale,
    if_neg (by simp [staleBase_cancelStale])]

end Lists

namespace CueBeeRuntime
variable {S : Type} {c : Services S} {r next : CueBeeRuntime S}

/-- The tasks stand in this order, and the scores have these weights. -/
structure Arranged (order : List TaskId) (weights : SchedulerWeights PyFloat) (r : CueBeeRuntime S) :
    Prop where
  named : r.scheduler.Named
  order : r.scheduler.tasks.keys = order
  weights : r.scheduler.weights = weights

/-- A call on the scheduler that submits nothing. -/
theorem arranged_call {order : List TaskId} {weights : SchedulerWeights PyFloat} {α : Type}
    {x : EStateM SchedulerError (VersionDeadlineScheduler PyFloat) α}
    (call : VersionDeadlineScheduler.Call PyFloat)
    (hcall : ∀ reply, VersionDeadlineScheduler.submittedBy call reply = none)
    (hx : ∀ q, after x q = after (VersionDeadlineScheduler.exec call) q) :
    Keeps (Arranged (S := S) order weights) (onScheduler x) := by
  refine keeps_focus (fun r h => ?_)
  have hafter : Arranged order weights { r with scheduler := after x r.scheduler } := by
    refine ⟨?_,?_,?_⟩
    · exact hx _ ▸ VersionDeadlineScheduler.named_step h.named call
    · show (after x r.scheduler).tasks.keys = order
      rw [hx,VersionDeadlineScheduler.keys_step h.named call,hcall,Option.toList_none,
        List.append_nil,h.order]
    · show (after x r.scheduler).weights = weights
      rw [hx]
      exact VersionDeadlineScheduler.keeps_exec (I := fun s => s.weights = weights)
        (fun _ _ h => h) call _ h.weights
  cases hrun : x r.scheduler with
  | ok a q =>
    rw [after_ok hrun] at hafter
    exact Ensures.of_ok hrun hafter
  | error e q =>
    rw [after_error hrun] at hafter
    exact Ensures.of_error hrun hafter

theorem keeps_arranged_runNext (order : List TaskId) (weights : SchedulerWeights PyFloat) (now : PyFloat) :
    Keeps (Arranged order weights) (runNext c now) := by
  have hgraph : ∀ {α : Type} (x : EStateM GraphError BranchGraph α),
      Keeps (Arranged (S := S) order weights) (onGraph x) :=
    fun x => keeps_onGraph (fun _ _ h => ⟨h.named,h.order,h.weights⟩) x
  have hsessions : ∀ sessionId, Keeps (Arranged (S := S) order weights)
      (onSessions (SessionManager.get sessionId)) :=
    fun _ => keeps_onSessions (fun _ _ h => ⟨h.named,h.order,h.weights⟩) _
  have hinc : ∀ name, Keeps (Arranged (S := S) order weights) (inc name 1) :=
    fun _ => keeps_modify (fun _ h => ⟨h.named,h.order,h.weights⟩)
  have hstart : Keeps (Arranged order weights) (startNext c now) := by
    refine keeps_bind keeps_get (fun r => ?_)
    refine keeps_bind (arranged_call (.popNext r.currentVersions now) (fun _ => rfl)
      (fun q => (after_map _).symm)) (fun popped => ?_)
    cases popped with
    | none => exact keeps_pure _
    | some task =>
      refine keeps_bind (hgraph _) (fun branch => keeps_bind (hgraph _) (fun _ => ?_))
      refine keeps_bind (hsessions _) (fun state => ?_)
      dsimp only
      split
      · exact keeps_throw _
      · exact keeps_pure _
  refine keeps_bind hstart (fun started => ?_)
  cases started with
  | none => exact keeps_pure _
  | some flight =>
    refine keeps_bind (keeps_onEngine (fun _ _ h => ⟨h.named,h.order,h.weights⟩) _) (fun result => ?_)
    refine keeps_bind ?_ (fun _ => keeps_pure _)
    refine keeps_bind (hgraph _) (fun branch => keeps_bind (hsessions _) (fun state => ?_))
    refine keeps_ite (fun _ => ?_) (fun _ => ?_)
    · exact keeps_bind (hgraph _) (fun _ => keeps_bind (arranged_call (.complete _) (fun _ => rfl)
        (fun q => (after_map _).symm)) (fun _ => keeps_bind (hinc _) (fun _ => keeps_pure _)))
    · exact keeps_bind (hgraph _) (fun _ => keeps_bind (arranged_call (.drop _ _) (fun _ => rfl)
        (fun q => (after_map _).symm)) (fun _ => keeps_bind (hinc _) (fun _ => keeps_pure _)))

/-- The fresh tasks of the queue. -/
def freshTasks (r : CueBeeRuntime S) : List (AnalysisTask PyFloat) :=
  fresh r.currentVersions r.scheduler

/-- What a call leaves that serves `served`. -/
structure Serves (served : Option TaskId) (r next : CueBeeRuntime S) : Prop where
  inOrder : InOrder next
  sessions : next.sessions = r.sessions
  weights : next.scheduler.weights = r.scheduler.weights
  tasks : next.scheduler.tasks.values = r.scheduler.tasks.values.map (serve r.currentVersions served)

theorem Serves.currentVersions {served : Option TaskId} (h : Serves served r next) :
    next.currentVersions = r.currentVersions := by
  unfold CueBeeRuntime.currentVersions
  rw [h.sessions]

/-- The order of the table turns what happens to each task into what happens to their list. -/
theorem serves_of_tasks {served : Option TaskId} {now : PyFloat} (h : InOrder r)
    (horder : InOrder next) (hnext : after (runNext c now) r = next) (hsessions : next.sessions = r.sessions)
    (htasks : ∀ j, next.scheduler.tasks.get? j = (r.scheduler.tasks.get? j).map (fun task =>
      if served = some j then { task with status := .completed }
      else cancelStale r.currentVersions task)) : Serves served r next := by
  have hkept := keeps_arranged_runNext (c := c) r.scheduler.tasks.keys r.scheduler.weights now r
    ⟨h.tasksNamed,rfl,rfl⟩
  rw [hnext] at hkept
  exact ⟨horder,hsessions,hkept.weights,Dict.values_eq_map h.tasksNamed hkept.order htasks⟩

/-- Nothing changes between the choice of a fresh task and the gate. -/
theorem fresh_allowed (h : InOrder r) {task before : AnalysisTask PyFloat} {branch : Branch}
    {session : ConversationSession} (hpop : Popping task branch session r next)
    (hbefore : r.scheduler.tasks.get? task.taskId = some before)
    (hfresh : staleBase r.currentVersions before = false) :
    evaluate task { branch with status := .running } session = .allow := by
  obtain ⟨source,hsource,hqueued,htask⟩ := hpop.source
  rw [hbefore,Option.some.injEq] at hsource
  subst hsource
  obtain ⟨session',hsession',-,hstop⟩ := (h.grounded _ branch hpop.found).session
  obtain ⟨branch',hfound,hpair⟩ := h.attached _ before hbefore
  rw [hpop.found,Option.some.injEq] at hfound
  subst hfound
  have hsame : session' = session := by
    have hid : branch.sessionId = task.sessionId := by rw [← hpair.sessionId,htask]
    rw [hid,hpop.session] at hsession'
    exact (Option.some.inj hsession').symm
  subst hsame
  refine evaluate_allow.mpr ⟨⟨by simp,by simp⟩,fun hcurrent => ?_,fun hcommitted => ?_⟩
  · have hcurrent : before.requiresCurrentVersion = true := by rwa [htask] at hcurrent
    rw [htask]
    have hversion : r.currentVersions before.sessionId = some session'.version := by
      have hget := hpop.session
      rw [htask] at hget
      exact congrArg (Option.map ConversationSession.version) hget
    have hsame : session'.version = before.baseVersion := by
      simpa [staleBase,hqueued,hcurrent,hversion] using hfresh
    exact hsame.symm
  · have htentative := (h.grounded _ branch hpop.found).tentative
    exact hstop (htentative ▸ hcommitted)

/-- The tasks that are chosen from are those that `pop_next` scores. -/
theorem convertible_fresh (h : r.scheduler.Named) (hscorable : r.scheduler.Scorable r.currentVersions) :
    ∀ t ∈ r.freshTasks, Convertible t := by
  intro t ht
  obtain ⟨hin,hcond⟩ := List.mem_filter.mp ht
  simp only [Bool.and_eq_true,decide_eq_true_eq,Bool.not_eq_true'] at hcond
  exact hscorable _ t (h.get?_of_mem hin) hcond.1 hcond.2

theorem scorable_of_fresh (hconv : ∀ t ∈ r.freshTasks, Convertible t) :
    r.scheduler.Scorable r.currentVersions := by
  intro id t ht hqueued hfresh
  refine hconv t (List.mem_filter.mpr ⟨(Dict.mem_values_iff _ _).mpr ⟨id,ht⟩,?_⟩)
  simp [hqueued,hfresh]

theorem popNext_choose (h : r.scheduler.Named)
    (hscorable : r.scheduler.Scorable r.currentVersions) (now : PyFloat) :
    ∃ q, VersionDeadlineScheduler.popNext r.currentVersions now r.scheduler =
      .ok ((choose r.scheduler.weights now r.freshTasks).map
        (fun task => { task with status := .running })) q := by
  have hcandidates : r.scheduler.candidates r.currentVersions = r.freshTasks :=
    VersionDeadlineScheduler.candidates_eq _ _
  cases VersionDeadlineScheduler.popNext_cases r.currentVersions now r.scheduler with
  | overflow task htask hscore hrun =>
    exact absurd hscorable
      ((VersionDeadlineScheduler.popNext_overflow_iff h now).mp ⟨_,_,hrun⟩)
  | idle hnone hrun =>
    rw [hcandidates] at hnone
    exact ⟨_,by rw [hrun,hnone]; rfl⟩
  | selected first rest hscored hrun =>
    rw [hcandidates] at hscored
    exact ⟨_,by rw [hrun,choose,hscored]; rfl⟩

/-- The best of the fresh tasks is popped, and its output is allowed once the engine answers. -/
theorem runNext_best (h : InOrder r) (hscorable : r.scheduler.Scorable r.currentVersions)
    {now : PyFloat} {task : AnalysisTask PyFloat}
    (hbest : choose r.scheduler.weights now r.freshTasks = some task) :
    ∃ branch session mid, Popping { task with status := .running } branch session r mid ∧
      mid.engine = r.engine ∧
      (task.requiresCurrentVersion = true → task.baseVersion = session.version) ∧
      ∀ prompt promptTokens result e,
        session.transcriptText task.requiresCurrentVersion ++ taskPrompt task.kind task.prompt = prompt →
        c.tokenizer.encode prompt = some promptTokens →
        c.engine.generate (newRequest task prompt promptTokens) mid.engine = .ok result e →
        ∃ next, runNext c now r = .ok (some ⟨task.taskId,.allow,some result⟩) next ∧
          Restatused (completeBranch (branchIdOf task.taskId)) (completeTask task.taskId)
            (fun id => id = branchIdOf task.taskId) { mid with engine := e } next ∧
          next.engine = e := by
  obtain ⟨q,hchoice⟩ := popNext_choose h.tasksNamed hscorable now
  rw [hbest,Option.map_some] at hchoice
  obtain ⟨hin,hcond⟩ := List.mem_filter.mp (choose_mem hbest)
  simp only [Bool.and_eq_true,decide_eq_true_eq,Bool.not_eq_true'] at hcond
  have hget := h.tasksNamed.get?_of_mem hin
  obtain ⟨branch,session,mid,hpop,hengine,-,hstart⟩ := startNext_popped c h hchoice
  have hallowed := fresh_allowed h hpop hget hcond.2
  have htentative : branch.includesTentative = task.requiresCurrentVersion := by
    obtain ⟨branch',hfound,hpair⟩ := h.attached _ task hget
    rw [show branchIdOf task.taskId = branchIdOf { task with status := .running }.taskId from rfl,
      hpop.found,Option.some.injEq] at hfound
    rw [(h.grounded _ branch hpop.found).tentative,hfound,hpair.requiresCurrentVersion]
  refine ⟨branch,session,mid,hpop,hengine,(evaluate_allow.mp hallowed).2.1,?_⟩
  intro prompt promptTokens result e hprompt hencode hgenerate
  rw [← htentative] at hprompt
  subst hprompt
  have hstart := hstart promptTokens hencode
  obtain ⟨request,hrequest⟩ : ∃ request,newRequest { task with status := .running }
    (promptOf { task with status := .running } branch session) promptTokens = request := ⟨_,rfl⟩
  rw [hrequest] at hstart
  have hanswered : onEngine (c.engine.generate request) mid = .ok result { mid with engine := e } :=
    focus_ok (hrequest ▸ hgenerate)
  have hmid : InOrder { mid with engine := e } := ((hpop.since h).congr rfl rfl rfl).inOrder
  have hflight : InFlight { mid with engine := e }
      ⟨{ task with status := .running },branchIdOf task.taskId,request⟩ :=
    (hpop.inFlight request).congr rfl rfl
  have hbranch : mid.branches.branches.get? (branchIdOf task.taskId) =
      some { branch with status := .running } := by
    rw [hpop.effect.branches,hpop.found,Option.map_some,popBranch]
    exact congrArg some (if_pos rfl)
  have hsession : mid.sessions.sessions.get? task.sessionId = some session := by
    rw [hpop.effect.sessions]
    exact hpop.session
  cases finished hmid hflight result with
  | refused branch' session' reason last hbranch' hsession' hrefuse heffect hrun =>
    rw [show branch' = { branch with status := .running } from
      Option.some.inj (hbranch'.symm.trans hbranch),
      show session' = session from Option.some.inj (hsession'.symm.trans hsession)] at hrefuse
    exact absurd hallowed hrefuse
  | allowed branch' session' last hbranch' hrunning hsession' hallow heffect hrun =>
    have hsame := engine_finishNext ⟨{ task with status := .running },branchIdOf task.taskId,request⟩
      result c e { mid with engine := e } rfl
    rw [after_ok hrun] at hsame
    refine ⟨last,?_,heffect,hsame⟩
    simp only [runNext,bind_ok hstart]
    rw [bind_ok hanswered,bind_ok hrun]
    rfl

/-- When no task is fresh, `run_next` returns nothing. -/
theorem runNext_nothing (h : InOrder r) (hscorable : r.scheduler.Scorable r.currentVersions)
    {now : PyFloat} (hbest : choose r.scheduler.weights now r.freshTasks = none) :
    ∃ q, runNext c now r = .ok none { r with scheduler := q } ∧
      Restatused (popBranch none) (popTask r.currentVersions none) (fun _ => False)
        r { r with scheduler := q } := by
  obtain ⟨q,hchoice⟩ := popNext_choose h.tasksNamed hscorable now
  rw [hbest] at hchoice
  obtain ⟨heffect,hrun⟩ := startNext_idle c h hchoice
  refine ⟨q,?_,heffect⟩
  simp only [runNext,bind_ok hrun]
  rfl

theorem serves_swept (h : InOrder r) {now : PyFloat} {q : VersionDeadlineScheduler PyFloat}
    (heffect : Restatused (popBranch none) (popTask r.currentVersions none) (fun _ => False)
      r { r with scheduler := q }) (hnext : after (runNext c now) r = { r with scheduler := q }) :
    Serves none r { r with scheduler := q } := by
  refine serves_of_tasks h (inOrder_popped h heffect) hnext rfl (fun j => ?_)
  rw [heffect.tasks]
  rfl

/-- `run_next` with no call in between serves the best of the fresh tasks. -/
theorem runNext_serves (htok : c.tokenizer.Total) (hengine : c.engine.NeverRaises) (h : InOrder r)
    (hscorable : r.scheduler.Scorable r.currentVersions) (now : PyFloat) :
    (choose r.scheduler.weights now r.freshTasks = none ∧
      ∃ next, runNext c now r = .ok none next ∧ Serves none r next) ∨
    ∃ task result next, choose r.scheduler.weights now r.freshTasks = some task ∧
      runNext c now r = .ok (some ⟨task.taskId,.allow,some result⟩) next ∧
      Serves (some task.taskId) r next := by
  cases hbest : choose r.scheduler.weights now r.freshTasks with
  | none =>
    obtain ⟨q,hrun,heffect⟩ := runNext_nothing (c := c) h hscorable hbest
    exact .inl ⟨rfl,_,hrun,serves_swept h heffect (after_ok hrun)⟩
  | some task =>
    obtain ⟨branch,session,mid,hpop,-,-,hserve⟩ := runNext_best (c := c) h hscorable hbest
    obtain ⟨promptTokens,hencode⟩ := Option.ne_none_iff_exists'.mp (htok
      (session.transcriptText task.requiresCurrentVersion ++ taskPrompt task.kind task.prompt))
    obtain ⟨result,e,hgenerate⟩ := hengine.generate (newRequest task _ promptTokens) mid.engine
    obtain ⟨next,hrun,heffect,-⟩ := hserve _ promptTokens result e rfl hencode hgenerate
    have horder : InOrder next := by
      have hkept := since_runNext (c := c) now r (.refl h)
      rw [after_ok hrun] at hkept
      exact hkept.inOrder
    refine .inr ⟨task,result,next,rfl,hrun,serves_of_tasks h horder (after_ok hrun) ?_ (fun j => ?_)⟩
    · exact heffect.sessions.trans hpop.effect.sessions
    · rw [heffect.tasks,show ({ mid with engine := e } : CueBeeRuntime S).scheduler = mid.scheduler
        from rfl,hpop.effect.tasks,Option.map_map]
      refine Option.map_congr (fun t _ => ?_)
      rw [Function.comp_apply,completeTask,popTask]
      by_cases hj : j = task.taskId
      · rw [if_pos hj,if_pos (congrArg some hj.symm),if_pos (congrArg some hj.symm)]
      · rw [if_neg hj,if_neg (fun he => hj (Option.some.inj he).symm),
          if_neg (fun he => hj (Option.some.inj he).symm)]

/-- When a score overflows, `run_next` cancels the stale tasks and raises. -/
theorem runNext_stuck (h : InOrder r) (hstuck : ¬r.scheduler.Scorable r.currentVersions)
    (now : PyFloat) :
    ∃ next, runNext c now r = .error (.scheduler .overflow) next ∧ Serves none r next := by
  obtain ⟨e,q,hpop⟩ :=
    (VersionDeadlineScheduler.popNext_overflow_iff h.tasksNamed now).mpr hstuck
  obtain ⟨heffect,hstart⟩ := startNext_overflow c h hpop
  have hrun : runNext c now r = .error (.scheduler .overflow) { r with scheduler := q } :=
    bind_error hstart
  exact ⟨_,hrun,serves_swept h heffect (after_error hrun)⟩

/-- What a call leaves fresh. -/
theorem Serves.freshTasks {served : Option TaskId} (h : Serves served r next) :
    next.freshTasks = (r.scheduler.tasks.values.map (serve r.currentVersions served)).filter
      (fun t => t.status = .queued && !staleBase r.currentVersions t) := by
  rw [CueBeeRuntime.freshTasks,fresh,h.currentVersions,h.tasks]

/-- What a run of calls serves, in the order of the choices, and what it leaves. -/
theorem drain_run (htok : c.tokenizer.Total) (hengine : c.engine.NeverRaises) (nows : List PyFloat)
    (h : InOrder r) (hconv : ∀ t ∈ r.freshTasks, Convertible t) :
    ∃ served : List (TaskId × EngineResult),
      served.map Prod.fst =
        (serveOrder r.scheduler.weights nows r.freshTasks).map AnalysisTask.taskId ∧
      replies (runNext c) nows r =
        served.map (fun p => .ok (some ⟨p.1,.allow,some p.2⟩)) ++
          List.replicate (nows.length - r.freshTasks.length) (.ok none) ∧
      (runAll (runNext c) nows r).sessions = r.sessions ∧
      (r.freshTasks.length < nows.length → (runAll (runNext c) nows r).scheduler.tasks.values =
        r.scheduler.tasks.values.map (settle r.currentVersions)) := by
  induction nows generalizing r with
  | nil => exact ⟨[],rfl,by simp [replies],rfl,fun hlt => absurd hlt (Nat.not_lt_zero _)⟩
  | cons now rest ih =>
    rw [runAll_cons,replies,serveOrder]
    rcases runNext_serves htok hengine h (scorable_of_fresh hconv) now with
      ⟨hmax,next,hrun,hserves⟩ | ⟨task,result,next,hmax,hrun,hserves⟩
    · have hnone : r.freshTasks = [] := choose_none hconv hmax
      have hnext : next.freshTasks = [] :=
        hserves.freshTasks.trans ((fresh_sweep _ _).trans hnone)
      obtain ⟨served,hids,hreplies,hsessions,hsettled⟩ := ih hserves.inOrder (by simp [hnext])
      rw [hnext,serveOrder_nil] at hids
      rw [List.map_nil,List.map_eq_nil_iff] at hids
      rw [hids,hnext] at hreplies
      rw [hmax,after_ok hrun,outcome_ok hrun,hreplies,hnone]
      refine ⟨[],rfl,rfl,hsessions.trans hserves.sessions,fun _ => ?_⟩
      cases rest with
      | nil => exact hserves.tasks.trans (settle_sweep hnone)
      | cons now' rest =>
        rw [hsettled (by simp [hnext]),hserves.currentVersions,hserves.tasks]
        exact settle_settle hnone
    · have hmem : task ∈ r.freshTasks := choose_mem hmax
      have hnext : next.freshTasks = r.freshTasks.erase task :=
        hserves.freshTasks.trans (fresh_serve h.tasksNamed.nodup_values hmem)
      have hlength : (r.freshTasks.erase task).length + 1 = r.freshTasks.length := by
        rw [List.length_erase_of_mem hmem]
        exact Nat.sub_add_cancel (List.length_pos_of_mem hmem)
      obtain ⟨served,hids,hreplies,hsessions,hsettled⟩ := ih hserves.inOrder
        (fun t ht => hconv t (List.mem_of_mem_erase (hnext ▸ ht)))
      rw [hserves.weights,hnext] at hids
      rw [hmax,after_ok hrun,outcome_ok hrun,hreplies,hnext]
      refine ⟨(task.taskId,result) :: served,?_,?_,hsessions.trans hserves.sessions,fun hlt => ?_⟩
      · rw [List.map_cons,List.map_cons,hids]
      · rw [List.map_cons,List.cons_append,List.length_cons,← hlength,Nat.add_sub_add_right]
      · rw [List.length_cons,← hlength,Nat.add_lt_add_iff_right] at hlt
        rw [hsettled (hnext ▸ hlt),hserves.currentVersions,hserves.tasks]
        exact settle_serve h.tasksNamed.nodup_values hmem

/-- The task whose score overflows stays in the queue. -/
theorem stuck_run (nows : List PyFloat) (h : InOrder r)
    (hstuck : ¬r.scheduler.Scorable r.currentVersions) :
    replies (runNext c) nows r = nows.map (fun _ => .error (.scheduler .overflow)) ∧
      (runAll (runNext c) nows r).freshTasks = r.freshTasks := by
  induction nows generalizing r with
  | nil => exact ⟨rfl,rfl⟩
  | cons now rest ih =>
    obtain ⟨next,hrun,hserves⟩ := runNext_stuck (c := c) h hstuck now
    have hfresh : next.freshTasks = r.freshTasks := hserves.freshTasks.trans (fresh_sweep _ _)
    have hnext : ¬next.scheduler.Scorable next.currentVersions := by
      intro hscorable
      have hconv := convertible_fresh hserves.inOrder.tasksNamed hscorable
      exact hstuck (scorable_of_fresh (hfresh ▸ hconv))
    obtain ⟨hreplies,hlast⟩ := ih hserves.inOrder hnext
    rw [runAll_cons,replies,after_error hrun,outcome_error hrun,hreplies]
    exact ⟨rfl,hlast.trans hfresh⟩

end CueBeeRuntime
open CueBeeRuntime

namespace LiveRuntime

/-- After any moves, calls of `run_next` with nothing in between: each of them completes a fresh
task with its output allowed until none is left, at one time in stably sorted order of the
scores; then every fresh task is completed, every stale one cancelled and no other changed. If
the score of a fresh task overflows, every call raises. -/
theorem queue_drains {S : Type} (c : Services S) (htok : c.tokenizer.Total)
    (hengine : c.engine.NeverRaises) (blockSize : ℕ) (hblock : 0 < blockSize) (admissionCap : ℕ)
    (hcap : 0 < admissionCap) (e : S) (moves : List (Move S)) (nows : List PyFloat) :
    let r := (runAll (act c) moves (init blockSize hblock admissionCap hcap e)).runtime
    let last := runAll (runNext c) nows r
    let w := r.scheduler.weights
    (r.scheduler.Scorable r.currentVersions → ∃ served : List (TaskId × EngineResult),
      replies (runNext c) nows r = served.map (fun p => .ok (some ⟨p.1,.allow,some p.2⟩)) ++
        List.replicate (nows.length - r.freshTasks.length) (.ok none) ∧
      (∀ now, nows = List.replicate nows.length now →
        (∀ task ∈ r.freshTasks, score w task now ≠ some .nan) → served.map Prod.fst =
          ((r.freshTasks.insertionSort (fun a b => points w now b ≤ points w now a)).take
            nows.length).map AnalysisTask.taskId) ∧
      (r.freshTasks.length ≤ nows.length →
        (served.map Prod.fst).Perm (r.freshTasks.map AnalysisTask.taskId)) ∧
      last.sessions = r.sessions ∧
      (r.freshTasks.length < nows.length →
        last.scheduler.tasks.values = r.scheduler.tasks.values.map (settle r.currentVersions))) ∧
    (¬r.scheduler.Scorable r.currentVersions →
      replies (runNext c) nows r = nows.map (fun _ => .error (.scheduler .overflow)) ∧
      last.freshTasks = r.freshTasks) := by
  intro r last w
  have h : InOrder r :=
    (flying_run (c := c) moves (flying_init blockSize hblock admissionCap hcap e)).inOrder
  refine ⟨fun hscorable => ?_,stuck_run nows h⟩
  have hconv := convertible_fresh h.tasksNamed hscorable
  obtain ⟨served,hids,hreplies,hsessions,hsettled⟩ := drain_run htok hengine nows h hconv
  refine ⟨served,hreplies,fun now hnow hscore => ?_,fun hlength => ?_,hsessions,hsettled⟩
  · rw [hids]
    conv_lhs => rw [hnow]
    rw [serveOrder_replicate w now _ hconv hscore]
  · rw [hids]
    exact (serveOrder_perm w hconv hlength).map _

/-- A summary and a question are both answered. -/
theorem queue_drains_question :
    let moves := [Move.handleEvent (heard "a" 0 .commitFinal "hello" (by decide) (by decide)),
      .submitTask (asked "t" .contextSummary (lit "sum up")),
      .submitTask (asked "q" .userQuery (lit "why?"))]
    let r := (runAll (act (quietServices lenientTokenizer)) moves
      (init 16 (by decide) 32 (by decide) ())).runtime
    (runAll (runNext (quietServices lenientTokenizer))
      [.fin 0,.fin 0,.fin 0] r).scheduler.tasks.values.map AnalysisTask.status =
        [.completed,.completed] := by
  intro moves r
  have hconv : ∀ t ∈ r.freshTasks, Convertible t := by decide +kernel
  obtain ⟨-,-,-,-,-,hsettled⟩ := (queue_drains (quietServices lenientTokenizer)
    lenientTokenizer_total quietEngine_neverRaises 16 (by decide) 32 (by decide) () moves
    [.fin 0,.fin 0,.fin 0]).1 (scorable_of_fresh hconv)
  have hfresh : r.freshTasks.length < [PyFloat.fin 0,.fin 0,.fin 0].length := by decide +kernel
  rw [hsettled hfresh]
  decide +kernel

end LiveRuntime
end CueBee.Runtime
