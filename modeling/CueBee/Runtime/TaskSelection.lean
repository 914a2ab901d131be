import CueBee.Support.FirstGreatest
import CueBee.Runtime.SchedulerLifecycle

/-! # Which task is popped

The table of tasks is in the order of their submission. One pass of `pop_next` over it cancels
the stale tasks and leaves the others to the choice of the best score.
-/
namespace CueBee.Runtime
open Cache Transcript Raising PyStr

namespace VersionDeadlineScheduler
variable {K : Type} {s next : VersionDeadlineScheduler K}

theorem keys_store {task before : AnalysisTask K} (h : s.tasks.get? task.taskId = some before) :
    (s.store task).tasks.keys = s.tasks.keys :=
  Dict.keys_set_of_some h task

/-- A call that reads a task and keeps the order. -/
theorem keys_after_get {α : Type} {id : TaskId}
    {f : AnalysisTask K → EStateM SchedulerError (VersionDeadlineScheduler K) α}
    (hf : ∀ task, s.tasks.get? id = some task → (after (f task) s).tasks.keys = s.tasks.keys) :
    (after (VersionDeadlineScheduler.get id >>= f) s).tasks.keys = s.tasks.keys := by
  cases hget : s.tasks.get? id with
  | none => rw [after_error (bind_error (get_unknown hget))]
  | some task =>
    have hrun : after (VersionDeadlineScheduler.get id >>= f) s = after (f task) s := by
      simp only [after,bind_ok (get_ok hget)]
    rw [hrun]
    exact hf task hget

theorem keys_cancel (hn : s.Named) (id : TaskId) (reason : CancelReason) :
    (after (cancel id reason) s).tasks.keys = s.tasks.keys := by
  refine keys_after_get fun task hget => ?_
  split
  · exact keys_store (hn id task hget ▸ hget)
  · rfl

theorem keys_drop (hn : s.Named) (id : TaskId) (reason : CancelReason) :
    (after (drop id reason) s).tasks.keys = s.tasks.keys := by
  refine keys_after_get fun task hget => ?_
  split
  · exact keys_store (hn id task hget ▸ hget)
  · rfl

theorem keys_complete (hn : s.Named) (id : TaskId) :
    (after (complete id) s).tasks.keys = s.tasks.keys := by
  refine keys_after_get fun task hget => ?_
  split
  · rfl
  · exact keys_store (hn id task hget ▸ hget)

theorem keys_swept (s : VersionDeadlineScheduler K) (currentVersions : SessionId → Option ℕ) :
    (s.swept currentVersions).tasks.keys = s.tasks.keys := by
  simp only [swept,Dict.keys,Dict.mapValues,List.map_map,Function.comp_def]

theorem keys_shedLoop (targetActive : ℤ) {queue : List (AnalysisTask K)}
    (hqueue : ∀ task ∈ queue, ∃ before, s.tasks.get? task.taskId = some before) :
    (shedLoop targetActive queue s).2.tasks.keys = s.tasks.keys := by
  induction queue generalizing s with
  | nil => rfl
  | cons task rest ih =>
    rw [shedLoop]
    split
    · obtain ⟨before,hget⟩ := hqueue task List.mem_cons_self
      have hstored : (s.store task.shed).tasks.keys = s.tasks.keys := keys_store hget
      refine (ih fun t ht => ?_).trans hstored
      obtain ⟨old,hold⟩ := hqueue t (List.mem_cons_of_mem task ht)
      rw [show (store { task with status := .dropped, cancelReason := some .overloadShed } s) =
        s.store task.shed from rfl,get?_store]
      split
      · exact ⟨_,rfl⟩
      · exact ⟨old,hold⟩
    · rfl

variable [FloatOps K]

theorem keys_popNext (hn : s.Named) (currentVersions : SessionId → Option ℕ) (now : K) :
    (after (popNext currentVersions now) s).tasks.keys = s.tasks.keys := by
  cases popNext_cases currentVersions now s with
  | overflow task htask hscore hrun =>
    rw [after_error hrun]
    exact keys_swept s currentVersions
  | idle hnone hrun =>
    rw [after_ok hrun]
    exact keys_swept s currentVersions
  | selected first rest hscored hrun =>
    obtain ⟨hget,hqueued,hfresh⟩ := mem_candidates hn (maxLoop_candidate hscored)
    have hstored : (s.swept currentVersions).tasks.get? (maxLoop first rest).taskId =
        some (maxLoop first rest) := by
      rw [get?_swept,hget,Option.map_some,cancelStale,if_neg (by simp [hfresh])]
    rw [after_ok hrun]
    exact (Dict.keys_set_of_some hstored _).trans (keys_swept s currentVersions)

theorem keys_shedLoad (hn : s.Named) (targetActive : ℤ) :
    (after (shedLoad targetActive) s).tasks.keys = s.tasks.keys := by
  by_cases htarget : targetActive < 0
  · rw [after_error (shedLoad_negative htarget)]
  · have hrun : after (shedLoad targetActive) s =
        (shedLoop targetActive s.queuedInDropOrder s).2 := by
      simp only [after,shedLoad,if_neg htarget]
    rw [hrun]
    refine keys_shedLoop targetActive fun task ht => ⟨task,hn.get?_of_mem ?_⟩
    exact (List.mem_filter.mp (s.queuedInDropOrder_perm.mem_iff.mp ht)).1

/-- The task that a call adds. -/
def submittedBy : Call K → Except SchedulerError (Reply K) → Option TaskId
  | .submit task, .ok _ => some task.taskId
  | _, _ => none

/-- Only a submission changes the order of the table: its task comes last. -/
theorem keys_step (hn : s.Named) (call : Call K) : (after (exec call) s).tasks.keys =
    s.tasks.keys ++ (submittedBy call (outcome (exec call) s)).toList := by
  cases call with
  | submit task =>
    cases hrun : submit task s with
    | error e next =>
      obtain rfl := submit_error hrun
      have hexec : exec (.submit task) next = .error e next := map_error hrun
      rw [after_error hexec,outcome_error hexec]
      exact (List.append_nil _).symm
    | ok _ next =>
      obtain ⟨hfree,-,rfl⟩ := submit_eq hrun
      have hexec : exec (.submit task) s = .ok .nothing (s.store task) := map_ok hrun
      rw [after_ok hexec,outcome_ok hexec]
      exact Dict.keys_set_of_none hfree task
  | cancel id reason =>
    rw [exec,after_map]
    simp [submittedBy,keys_cancel hn]
  | popNext currentVersions now =>
    rw [exec,after_map]
    simp [submittedBy,keys_popNext hn]
  | complete id =>
    rw [exec,after_map]
    simp [submittedBy,keys_complete hn]
  | drop id reason =>
    rw [exec,after_map]
    simp [submittedBy,keys_drop hn]
  | shedLoad targetActive =>
    rw [exec,after_map]
    simp [submittedBy,keys_shedLoad hn]

/-- The tasks that a run submits, in order. -/
def submittedIds : List (Call K) → VersionDeadlineScheduler K → List TaskId
  | [], _ => []
  | call :: rest, s =>
    (submittedBy call (outcome (exec call) s)).toList ++ submittedIds rest (after (exec call) s)

theorem named_step (hn : s.Named) (call : Call K) : (after (exec call) s).Named := by
  cases handled hn call with
  | raised e hrun => rwa [after_error hrun]
  | swept currentVersions now e next hcall hrun hmoves =>
    rw [after_error hrun]
    exact hmoves.named
  | added task hcall hfree hroom hrun =>
    rw [after_ok hrun]
    exact named_store hn task
  | moved reply next hrun hmoves hreply =>
    rw [after_ok hrun]
    exact hmoves.named

theorem keys_run (hn : s.Named) (calls : List (Call K)) :
    (runAll exec calls s).tasks.keys = s.tasks.keys ++ submittedIds calls s := by
  induction calls generalizing s with
  | nil => exact (List.append_nil _).symm
  | cons call rest ih =>
    rw [runAll_cons,ih (named_step hn call),keys_step hn call,submittedIds,List.append_assoc]

/-- `__init__` with the given weights. -/
def start (admissionCap : ℕ) (h : 0 < admissionCap) (weights : SchedulerWeights K) :
    VersionDeadlineScheduler K :=
  { init admissionCap h with weights := weights }

/-- What holds of a scheduler after any calls: the tasks stand in the order of their submission. -/
structure Submitted (weights : SchedulerWeights K) (submitted : List TaskId)
    (s : VersionDeadlineScheduler K) : Prop where
  named : s.Named
  weights : s.weights = weights
  order : s.tasks.values.map AnalysisTask.taskId = submitted

theorem submitted_run (admissionCap : ℕ) (h : 0 < admissionCap) (weights : SchedulerWeights K)
    (calls : List (Call K)) :
    Submitted weights (submittedIds calls (start admissionCap h weights))
      (runAll exec calls (start admissionCap h weights)) := by
  have hempty : (start admissionCap h weights).Named := fun id task hget => by cases hget
  have hnamed := runAll_keeps (I := Named) (fun call s hs => named_step hs call) calls hempty
  have hweights := runAll_keeps (I := fun s => s.weights = weights)
    (fun call => keeps_exec (fun _ _ h => h) call) calls
    (show (start admissionCap h weights).weights = weights from rfl)
  refine ⟨hnamed,hweights,?_⟩
  rw [hnamed.ids,keys_run hempty]
  rfl

omit [FloatOps K]

/-- The queued tasks that are not stale, in the order of the table. -/
def fresh (currentVersions : SessionId → Option ℕ) (s : VersionDeadlineScheduler K) :
    List (AnalysisTask K) :=
  s.tasks.values.filter (fun task => task.status = .queued && !staleBase currentVersions task)

/-- The pass over the table leaves these as candidates. -/
theorem filter_swept (currentVersions : SessionId → Option ℕ) (tasks : List (AnalysisTask K)) :
    (tasks.map (cancelStale currentVersions)).filter (fun task => task.status = .queued) =
      tasks.filter (fun task => task.status = .queued && !staleBase currentVersions task) := by
  induction tasks with
  | nil => rfl
  | cons task rest ih =>
    rw [List.map_cons,List.filter_cons,List.filter_cons,ih]
    by_cases hstale : staleBase currentVersions task = true
    · simp [cancelStale,hstale]
    · simp [cancelStale,hstale]

theorem candidates_eq (s : VersionDeadlineScheduler K) (currentVersions : SessionId → Option ℕ) :
    s.candidates currentVersions = fresh currentVersions s := by
  rw [fresh,← filter_swept]
  simp only [candidates,swept,Dict.values,Dict.mapValues,List.map_map,Function.comp_def]

/-- Where the comparison of floats is that of a linear order, `max` keeps the first of the
greatest. -/
theorem maxLoop_firstGreatest [FloatOps K] {α κ : Type} [LinearOrder κ] (rank : K → κ)
    (best : α × K) (rest : List (α × K))
    (hlt : ∀ p ∈ best :: rest, ∀ q ∈ best :: rest,
      FloatOps.lt p.2 q.2 = true ↔ rank p.2 < rank q.2) :
    ∃ points, FirstGreatest (fun p : α × K => rank p.2) (best :: rest)
      (maxLoop best rest,points) := by
  induction rest generalizing best with
  | nil => exact ⟨best.2,.head (by simp)⟩
  | cons x rest ih =>
    have hx := hlt best List.mem_cons_self x (List.mem_cons_of_mem _ List.mem_cons_self)
    rw [maxLoop]
    by_cases hbetter : FloatOps.lt best.2 x.2 = true
    · obtain ⟨points,hfirst⟩ := ih x (fun p hp q hq =>
        hlt p (List.mem_cons_of_mem _ hp) q (List.mem_cons_of_mem _ hq))
      rw [if_pos hbetter]
      exact ⟨points,hfirst.cons ((hx.mp hbetter).trans_le (hfirst.le x List.mem_cons_self))⟩
    · have hsub : ∀ p ∈ best :: rest, p ∈ best :: x :: rest := fun p hp =>
        (List.mem_cons.mp hp).elim (fun h => h ▸ List.mem_cons_self)
          (fun h => List.mem_cons_of_mem _ (List.mem_cons_of_mem _ h))
      obtain ⟨points,hfirst⟩ := ih best (fun p hp q hq => hlt p (hsub p hp) q (hsub q hq))
      rw [if_neg hbetter]
      exact ⟨points,hfirst.insert (not_lt.mp (mt hx.mpr hbetter))⟩

/-- The score in exact arithmetic, where no factor is too large. -/
def exactScore (weights : SchedulerWeights ℚ) (now : ℚ) (task : AnalysisTask ℚ) : ℚ :=
  weights.deadline * (1 / max (1 / 1000) (task.deadlineAt - now)) +
    weights.foreground * (if task.foreground = true then 1 else 0) +
    weights.age * max 0 (now - task.createdAt) + weights.reuse * task.sharedPrefixTokens -
    weights.cost * task.estimatedTokens + weights.priority * task.priority

theorem score_exact (weights : SchedulerWeights ℚ) (now : ℚ) (task : AnalysisTask ℚ) :
    score weights task now = some (exactScore weights now task) := by
  simp only [score,exactScore,FloatOps.max_exact]
  rfl

/-- In exact arithmetic `pop_next` returns, and picks the first of the best. -/
theorem popNext_exact (s : VersionDeadlineScheduler ℚ) (currentVersions : SessionId → Option ℕ)
    (now : ℚ) :
    ∃ choice next, popNext currentVersions now s =
        .ok (choice.map (fun task => { task with status := .running })) next ∧
      (choice = none ↔ fresh currentVersions s = []) ∧
      ∀ task ∈ choice, FirstGreatest (exactScore s.weights now) (fresh currentVersions s) task := by
  cases popNext_cases currentVersions now s with
  | overflow task htask hscore hrun =>
    rw [score_exact] at hscore
    cases hscore
  | idle hnone hrun =>
    rw [candidates_eq] at hnone
    exact ⟨none,_,hrun,by simp [hnone],by simp⟩
  | selected first rest hscored hrun =>
    obtain ⟨hfst,hscores⟩ := scored_eq hscored
    have hpairs : first :: rest =
        (fresh currentVersions s).map (fun task => (task,exactScore s.weights now task)) := by
      rw [← candidates_eq,← hfst,List.map_map]
      refine (List.map_id _).symm.trans (List.map_congr_left fun pair hpair => ?_)
      have hscore := hscores pair hpair
      rw [score_exact,Option.some.injEq] at hscore
      exact Prod.ext rfl hscore.symm
    obtain ⟨points,hfirst⟩ := maxLoop_firstGreatest id first rest
      (fun p _ q _ => decide_eq_true_iff)
    rw [hpairs] at hfirst
    obtain ⟨task,htask,hbest⟩ := hfirst.of_map
    obtain ⟨rfl,-⟩ := Prod.mk.inj htask
    refine ⟨some (maxLoop first rest),_,hrun,by simp [List.ne_nil_of_mem hbest.mem],fun task htask => ?_⟩
    cases htask
    exact hbest

/-- What `pop_next` does to a task. -/
def popTask (currentVersions : SessionId → Option ℕ) (popped : Option TaskId) (task : AnalysisTask K) :
    AnalysisTask K :=
  if staleBase currentVersions task = true then
    { task with status := .cancelled, cancelReason := some .staleBaseVersion }
  else if popped = some task.taskId then { task with status := .running }
  else task

theorem Popped.task_eq {currentVersions : SessionId → Option ℕ} {popped : Option (AnalysisTask K)}
    (hn : s.Named) (h : Popped currentVersions popped s next) (id : TaskId) :
    next.tasks.get? id = (s.tasks.get? id).map
      (popTask currentVersions (popped.map AnalysisTask.taskId)) := by
  rw [h.tasks]
  by_cases hid : popped.map AnalysisTask.taskId = some id
  · obtain ⟨selected,rfl,rfl⟩ := Option.map_eq_some_iff.mp hid
    obtain ⟨before,hget,-,hfresh,hselected⟩ := h.source selected rfl
    have hbefore := hn _ _ hget
    have hpop : popTask currentVersions (some selected.taskId) before = selected := by
      rw [popTask,if_neg (by simp [hfresh]),if_pos (congrArg some hbefore.symm)]
      exact hselected.symm
    rw [if_pos hid,hget]
    exact congrArg some hpop.symm
  · rw [if_neg hid]
    refine Option.map_congr fun task hget => ?_
    rw [cancelStale,popTask,hn id task hget,if_neg hid]

/-- `pop_next` after any calls on a new scheduler: every stale task is cancelled and no other
task, and the popped one is the first submitted of those with the best score. -/
theorem pop_next_selects (admissionCap : ℕ) (h : 0 < admissionCap) (weights : SchedulerWeights ℚ)
    (calls : List (Call ℚ)) (currentVersions : SessionId → Option ℕ) (now : ℚ) :
    let s := runAll exec calls (start admissionCap h weights)
    s.tasks.values.map AnalysisTask.taskId = submittedIds calls (start admissionCap h weights) ∧
    ∃ popped next, popNext currentVersions now s = .ok popped next ∧
      (popped = none ↔ fresh currentVersions s = []) ∧
      (∀ selected ∈ popped, ∃ task, selected = { task with status := .running } ∧
        FirstGreatest (exactScore weights now) (fresh currentVersions s) task) ∧
      next.tasks.keys = s.tasks.keys ∧
      ∀ id, next.tasks.get? id = (s.tasks.get? id).map
        (popTask currentVersions (popped.map AnalysisTask.taskId)) := by
  intro s
  have hs := submitted_run admissionCap h weights calls
  obtain ⟨choice,next,hrun,hnone,hbest⟩ := popNext_exact s currentVersions now
  rw [show s.weights = weights from hs.weights] at hbest
  have hkeys := keys_popNext hs.named currentVersions now
  rw [after_ok hrun] at hkeys
  refine ⟨hs.order,_,next,hrun,Option.map_eq_none_iff.trans hnone,?_,hkeys,
    (popped_of_ok hs.named hrun).task_eq hs.named⟩
  intro selected hselected
  obtain ⟨task,htask,rfl⟩ := Option.map_eq_some_iff.mp hselected
  exact ⟨task,rfl,hbest task htask⟩

/-- A question about the present version and one about an old version. -/
theorem pop_next_selects_current :
    let old : AnalysisTask ℚ := ⟨lit "o",lit "branch:o",lit "s",.userQuery,0,⟨0,0,le_rfl⟩,1,9,10,0,true,
      true,lit "why?",0,.queued,none⟩
    let new : AnalysisTask ℚ := { old with taskId := lit "n", baseVersion := 1, priority := 0 }
    let s := runAll exec [.submit old,.submit new] (start 2 (by decide) .standard)
    ∃ next, popNext (fun _ => some 1) 0 s = .ok (some { new with status := .running }) next := by
  intro old new s
  have hfresh : fresh (fun _ => some 1) s = [new] := by rfl
  obtain ⟨-,popped,next,hrun,hnone,hbest,-⟩ :=
    pop_next_selects 2 (by decide) .standard [.submit old,.submit new] (fun _ => some 1) 0
  cases popped with
  | none =>
    have hnil : fresh (fun _ => some 1) s = [] := hnone.mp rfl
    rw [hfresh] at hnil
    cases hnil
  | some selected =>
    obtain ⟨task,rfl,hfirst⟩ := hbest selected rfl
    have hmem : task ∈ fresh (fun _ => some 1) s := hfirst.mem
    rw [hfresh,List.mem_singleton] at hmem
    exact ⟨next,hmem ▸ hrun⟩

end VersionDeadlineScheduler
end CueBee.Runtime
