import CueBee.Runtime.Scheduler

/-! # One specification for each method of the scheduler

Each method is described by the task table it leaves, entry by entry.
-/
namespace CueBee.Runtime
open Cache Transcript Raising

variable {K : Type}

/-- The task after it is cancelled or dropped; a task that is not active stays. -/
def AnalysisTask.stop (status : TaskStatus) (reason : CancelReason) (task : AnalysisTask K) :
    AnalysisTask K :=
  if task.status.active = true then { task with status := status, cancelReason := some reason }
  else task

/-- The task after it is shed. -/
def AnalysisTask.shed (task : AnalysisTask K) : AnalysisTask K :=
  { task with status := .dropped, cancelReason := some .overloadShed }

@[simp] theorem AnalysisTask.taskId_shed (task : AnalysisTask K) : task.shed.taskId = task.taskId := rfl

namespace VersionDeadlineScheduler
variable {s next : VersionDeadlineScheduler K} {id : TaskId} {task : AnalysisTask K}

/-- Every task is stored under its id. -/
def Named (s : VersionDeadlineScheduler K) : Prop :=
  ∀ id task, s.tasks.get? id = some task → task.taskId = id

theorem get?_store (s : VersionDeadlineScheduler K) (task : AnalysisTask K) (id : TaskId) :
    (s.store task).tasks.get? id = if id = task.taskId then some task else s.tasks.get? id :=
  Dict.get?_set s.tasks task.taskId id task

theorem named_store (h : s.Named) (task : AnalysisTask K) : (s.store task).Named := by
  intro id t ht
  rw [get?_store] at ht
  by_cases he : id = task.taskId
  · rw [if_pos he,Option.some.injEq] at ht
    exact ht ▸ he.symm
  · rw [if_neg he] at ht
    exact h id t ht

theorem Named.get?_of_mem (h : s.Named) (ht : task ∈ s.tasks.values) :
    s.tasks.get? task.taskId = some task := by
  obtain ⟨id,hid⟩ := (Dict.mem_values_iff _ _).mp ht
  rw [h id task hid,hid]

theorem Named.ids (h : s.Named) : s.tasks.values.map AnalysisTask.taskId = s.tasks.keys :=
  Dict.map_values_eq_keys h

theorem Named.nodup_values (h : s.Named) : (s.tasks.values.map AnalysisTask.taskId).Nodup := by
  rw [h.ids]
  exact s.tasks.nodup_keys

theorem get_ok (h : s.tasks.get? id = some task) :
    VersionDeadlineScheduler.get id s = .ok task s := by
  simp only [VersionDeadlineScheduler.get,h]

theorem submit_exists {old : AnalysisTask K} (h : s.tasks.get? task.taskId = some old) :
    submit task s = .error (.taskExists task.taskId) s := by
  simp only [submit,bind_ok (get_apply s),h]
  rfl

theorem submit_ok (h : s.tasks.get? task.taskId = none) (hcap : s.activeCount < s.admissionCap) :
    submit task s = .ok () (s.store task) := by
  simp only [submit,bind_ok (get_apply s),h,if_neg (not_le.mpr hcap)]
  rfl

theorem submit_full (h : s.tasks.get? task.taskId = none) (hcap : s.admissionCap ≤ s.activeCount) :
    submit task s = .error .admissionCap s := by
  simp only [submit,bind_ok (get_apply s),h,if_pos hcap]
  rfl

/-- A submission that is refused changes nothing. -/
theorem submit_error {e : SchedulerError} (h : submit task s = .error e next) : next = s := by
  cases hs : s.tasks.get? task.taskId with
  | some old =>
    rw [submit_exists hs] at h
    cases h
    rfl
  | none =>
    rcases Nat.lt_or_ge s.activeCount s.admissionCap with hcap | hcap
    · rw [submit_ok hs hcap] at h
      cases h
    · rw [submit_full hs hcap] at h
      cases h
      rfl

theorem submit_eq (h : submit task s = .ok () next) :
    s.tasks.get? task.taskId = none ∧ s.activeCount < s.admissionCap ∧ next = s.store task := by
  cases hs : s.tasks.get? task.taskId with
  | some old =>
    rw [submit_exists hs] at h
    cases h
  | none =>
    rcases Nat.lt_or_ge s.activeCount s.admissionCap with hcap | hcap
    · rw [submit_ok hs hcap] at h
      cases h
      exact ⟨rfl,hcap,rfl⟩
    · rw [submit_full hs hcap] at h
      cases h

/-- Stopping an active task writes it back; another task is as it was. -/
theorem get?_stopped (hid : task.taskId = id) (ha : task.status.active = true)
    (status : TaskStatus) (reason : CancelReason) (j : TaskId) :
    (s.store { task with status := status, cancelReason := some reason }).tasks.get? j =
      if j = id then some (task.stop status reason) else s.tasks.get? j := by
  rw [get?_store]
  simp [AnalysisTask.stop,ha,hid]

theorem get?_unstopped (h : s.tasks.get? id = some task) (ha : task.status.active = false)
    (status : TaskStatus) (reason : CancelReason) (j : TaskId) :
    s.tasks.get? j = if j = id then some (task.stop status reason) else s.tasks.get? j := by
  by_cases hj : j = id
  · simp [AnalysisTask.stop,ha,hj,h]
  · simp [hj]

theorem cancel_ok (hn : s.Named) (h : s.tasks.get? id = some task) (reason : CancelReason) :
    ∃ next, cancel id reason s = .ok task.status.active next ∧ next.Named ∧
      ∀ j, next.tasks.get? j =
        if j = id then some (task.stop .cancelled reason) else s.tasks.get? j := by
  have hid := hn id task h
  cases ha : task.status.active with
  | true =>
    refine ⟨s.store { task with status := .cancelled, cancelReason := some reason },?_,
      named_store hn _,get?_stopped hid ha .cancelled reason⟩
    simp only [cancel,bind_ok (get_ok h),if_pos ha]
    rfl
  | false =>
    refine ⟨s,?_,hn,get?_unstopped h ha .cancelled reason⟩
    simp only [cancel,bind_ok (get_ok h),ha,Bool.false_eq_true,if_false]
    rfl

theorem drop_ok (hn : s.Named) (h : s.tasks.get? id = some task) (reason : CancelReason) :
    ∃ next, drop id reason s = .ok () next ∧ next.Named ∧
      ∀ j, next.tasks.get? j =
        if j = id then some (task.stop .dropped reason) else s.tasks.get? j := by
  have hid := hn id task h
  cases ha : task.status.active with
  | true =>
    refine ⟨s.store { task with status := .dropped, cancelReason := some reason },?_,
      named_store hn _,get?_stopped hid ha .dropped reason⟩
    simp only [drop,bind_ok (get_ok h),if_pos ha]
    rfl
  | false =>
    refine ⟨s,?_,hn,get?_unstopped h ha .dropped reason⟩
    simp only [drop,bind_ok (get_ok h),ha,Bool.false_eq_true,if_false]
    rfl

theorem complete_ok (h : s.tasks.get? id = some task) (hr : task.status = .running) :
    complete id s = .ok () (s.store { task with status := .completed }) := by
  simp only [complete,bind_ok (get_ok h),if_neg (not_not.mpr hr)]
  rfl

theorem maxLoop_mem [FloatOps K] {α : Type} (best : α × K) (rest : List (α × K)) :
    maxLoop best rest ∈ (best :: rest).map Prod.fst := by
  induction rest generalizing best with
  | nil => exact List.mem_singleton_self _
  | cons x rest ih =>
    rw [maxLoop]
    split
    · exact List.mem_cons_of_mem _ (ih x)
    · rcases List.mem_cons.mp (ih best) with heq | hmem
      · exact List.mem_cons.mpr (.inl heq)
      · exact List.mem_cons_of_mem _ (List.mem_cons_of_mem _ hmem)

/-- The scores of the candidates, when no conversion fails. -/
theorem scored_eq [FloatOps K] {weights : SchedulerWeights K} {now : K}
    {tasks : List (AnalysisTask K)} {pairs : List (AnalysisTask K × K)}
    (h : scored weights now tasks = some pairs) :
    pairs.map Prod.fst = tasks ∧ ∀ pair ∈ pairs, score weights pair.1 now = some pair.2 := by
  induction tasks generalizing pairs with
  | nil =>
    cases h
    exact ⟨rfl,by simp⟩
  | cons task rest ih =>
    simp only [scored,List.mapM_cons,Option.bind_eq_bind,Option.bind_eq_some_iff,
      Option.map_eq_some_iff] at h
    obtain ⟨pair,⟨points,hpoints,rfl⟩,tail,htail,htotal⟩ := h
    cases htotal
    obtain ⟨hfst,hscore⟩ := ih htail
    exact ⟨congrArg _ hfst,List.forall_mem_cons.mpr ⟨hpoints,hscore⟩⟩

theorem scored_eq_none [FloatOps K] {weights : SchedulerWeights K} {now : K}
    {tasks : List (AnalysisTask K)} :
    scored weights now tasks = none ↔ ∃ task ∈ tasks, score weights task now = none := by
  induction tasks with
  | nil => simp [scored]
  | cons task rest ih =>
    have hcons : scored weights now (task :: rest) =
        ((score weights task now).map (fun points => (task,points))).bind
          (fun pair => (scored weights now rest).bind (fun pairs => some (pair :: pairs))) := by
      simp [scored,List.mapM_cons]
    rw [hcons]
    cases hscore : score weights task now with
    | none => simp [hscore]
    | some points =>
      cases hrest : scored weights now rest with
      | none => simpa [hscore] using ih.mp hrest
      | some pairs =>
        have hnone := (not_congr ih).mp (by simp [hrest])
        simpa [hscore] using hnone

@[simp] theorem taskId_cancelStale (currentVersions : SessionId → Option ℕ)
    (task : AnalysisTask K) : (cancelStale currentVersions task).taskId = task.taskId := by
  unfold cancelStale
  split <;> rfl

/-- What `pop_next` leaves: stale tasks are cancelled, the popped one runs. -/
structure Popped (currentVersions : SessionId → Option ℕ) (popped : Option (AnalysisTask K))
    (s next : VersionDeadlineScheduler K) : Prop where
  named : next.Named
  tasks : ∀ j, next.tasks.get? j =
    if popped.map AnalysisTask.taskId = some j then popped
    else (s.tasks.get? j).map (cancelStale currentVersions)
  source : ∀ task ∈ popped, ∃ before, s.tasks.get? task.taskId = some before ∧
    before.status = .queued ∧ staleBase currentVersions before = false ∧
    task = { before with status := .running }

/-- The table after the loop of `pop_next`. -/
def swept (currentVersions : SessionId → Option ℕ) (s : VersionDeadlineScheduler K) :
    VersionDeadlineScheduler K :=
  { s with tasks := s.tasks.mapValues (fun _ task => cancelStale currentVersions task) }

theorem get?_swept (currentVersions : SessionId → Option ℕ) (s : VersionDeadlineScheduler K)
    (j : TaskId) :
    (s.swept currentVersions).tasks.get? j = (s.tasks.get? j).map (cancelStale currentVersions) :=
  Dict.get?_mapValues _ _ j

theorem named_swept (hn : s.Named) (currentVersions : SessionId → Option ℕ) :
    (s.swept currentVersions).Named := by
  intro j task hj
  rw [get?_swept] at hj
  obtain ⟨before,hb,rfl⟩ := Option.map_eq_some_iff.mp hj
  rw [taskId_cancelStale]
  exact hn j before hb

theorem popped_none (hn : s.Named) (currentVersions : SessionId → Option ℕ) :
    Popped currentVersions none s (s.swept currentVersions) :=
  ⟨named_swept hn currentVersions,fun j => by rw [get?_swept]; rfl,fun task ht => by cases ht⟩

/-- The queued tasks after the loop of `pop_next`. -/
def candidates (currentVersions : SessionId → Option ℕ) (s : VersionDeadlineScheduler K) :
    List (AnalysisTask K) :=
  (s.swept currentVersions).tasks.values.filter (fun task => task.status = .queued)

/-- A candidate was queued before the loop, and is not stale. -/
theorem mem_candidates (hn : s.Named) {currentVersions : SessionId → Option ℕ}
    (ht : task ∈ s.candidates currentVersions) :
    s.tasks.get? task.taskId = some task ∧ task.status = .queued ∧
      staleBase currentVersions task = false := by
  have hmem := List.mem_filter.mp ht
  have htask := (named_swept hn currentVersions).get?_of_mem hmem.1
  have hqueued : task.status = .queued := by simpa using hmem.2
  rw [get?_swept] at htask
  obtain ⟨before,hb,hsweep⟩ := Option.map_eq_some_iff.mp htask
  unfold cancelStale at hsweep
  by_cases hst : staleBase currentVersions before = true
  · rw [if_pos hst] at hsweep
    rw [← hsweep] at hqueued
    cases hqueued
  · rw [if_neg hst] at hsweep
    subst hsweep
    exact ⟨hb,hqueued,by simpa using hst⟩

theorem mem_candidates_iff (hn : s.Named) {currentVersions : SessionId → Option ℕ} :
    task ∈ s.candidates currentVersions ↔ s.tasks.get? task.taskId = some task ∧
      task.status = .queued ∧ staleBase currentVersions task = false := by
  constructor
  · exact mem_candidates hn
  · rintro ⟨hget,hqueued,hfresh⟩
    have hswept : (s.swept currentVersions).tasks.get? task.taskId = some task := by
      rw [get?_swept,hget,Option.map_some,cancelStale,if_neg (by simp [hfresh])]
    exact List.mem_filter.mpr ⟨(Dict.mem_values_iff _ _).mpr ⟨_,hswept⟩,by simpa using hqueued⟩

/-- Without stale tasks the loop of `pop_next` changes nothing. -/
theorem swept_eq_iff {currentVersions : SessionId → Option ℕ} :
    s.swept currentVersions = s ↔
      ∀ id task, s.tasks.get? id = some task → staleBase currentVersions task = false := by
  constructor
  · intro hsame id task hget
    by_contra hstale
    have hswept := get?_swept currentVersions s id
    rw [hsame,hget,Option.map_some,Option.some.injEq,cancelStale,
      if_pos (Bool.of_not_eq_false hstale)] at hswept
    have hcancelled : task.status = .cancelled := by rw [hswept]
    simp [staleBase,hcancelled] at hstale
  · intro hfresh
    have hkept : s.tasks.mapValues (fun _ task => cancelStale currentVersions task) = s.tasks :=
      Dict.mapValues_eq_self (fun id task hget => if_neg (by simp [hfresh id task hget]))
    rw [swept,hkept]

theorem popped_some (hn : s.Named) {currentVersions : SessionId → Option ℕ}
    (ht : task ∈ s.candidates currentVersions) :
    Popped currentVersions (some { task with status := .running }) s
      ((s.swept currentVersions).store { task with status := .running }) := by
  obtain ⟨hget,hqueued,hst⟩ := mem_candidates hn ht
  refine ⟨named_store (named_swept hn currentVersions) _,fun j => ?_,fun popped hpopped => ?_⟩
  · rw [get?_store,get?_swept]
    by_cases hj : j = task.taskId
    · simp [hj]
    · simp [hj,Ne.symm hj]
  · cases hpopped
    exact ⟨task,hget,hqueued,hst,rfl⟩

theorem shedLoop_ok (targetActive : ℤ) {queue : List (AnalysisTask K)} (hn : s.Named)
    (hnodup : (queue.map AnalysisTask.taskId).Nodup)
    (hqueue : ∀ task ∈ queue, s.tasks.get? task.taskId = some task) :
    ∃ k, (shedLoop targetActive queue s).1 = (queue.take k).map AnalysisTask.taskId ∧
      (shedLoop targetActive queue s).2.Named ∧
      ∀ j, (shedLoop targetActive queue s).2.tasks.get? j = (s.tasks.get? j).map (fun task =>
        if j ∈ (shedLoop targetActive queue s).1 then task.shed else task) := by
  induction queue generalizing s with
  | nil => exact ⟨0,rfl,hn,fun j => by simp [shedLoop]⟩
  | cons task rest ih =>
    obtain ⟨htask,hrest⟩ := List.nodup_cons.mp hnodup
    have hget := hqueue task List.mem_cons_self
    by_cases hmore : targetActive < s.activeCount
    · have htail : ∀ t ∈ rest, (s.store task.shed).tasks.get? t.taskId = some t := by
        intro t ht
        have hne : t.taskId ≠ task.taskId := fun he => htask (he ▸ List.mem_map.mpr ⟨t,ht,rfl⟩)
        rw [get?_store,AnalysisTask.taskId_shed,if_neg hne]
        exact hqueue t (List.mem_cons_of_mem _ ht)
      obtain ⟨k,hdropped,hnamed,htasks⟩ := ih (named_store hn task.shed) hrest htail
      have hloop : shedLoop targetActive (task :: rest) s =
          (task.taskId :: (shedLoop targetActive rest (s.store task.shed)).1,
            (shedLoop targetActive rest (s.store task.shed)).2) := by
        simp only [shedLoop,if_pos hmore]
        rfl
      rw [hloop]
      refine ⟨k + 1,?_,hnamed,?_⟩
      · simp [hdropped]
      · intro j
        rw [htasks j,get?_store,AnalysisTask.taskId_shed]
        by_cases hj : j = task.taskId
        · have hnot : task.taskId ∉ (shedLoop targetActive rest (s.store task.shed)).1 := by
            rw [hdropped]
            intro hm
            exact htask ((List.take_sublist k rest).map AnalysisTask.taskId |>.subset hm)
          subst hj
          rw [if_pos rfl,hget]
          simp [hnot]
        · rw [if_neg hj]
          simp [hj]
    · refine ⟨0,?_,?_,fun j => ?_⟩ <;> simp [shedLoop,hmore,hn]

/-- `shed_load` drops queued tasks and changes no other. -/
structure Shed (dropped : List TaskId) (s next : VersionDeadlineScheduler K) : Prop where
  named : next.Named
  nodup : dropped.Nodup
  queued : ∀ id ∈ dropped, ∃ task, s.tasks.get? id = some task ∧ task.status = .queued
  tasks : ∀ j, next.tasks.get? j =
    (s.tasks.get? j).map (fun task => if j ∈ dropped then task.shed else task)

section FloatOps
variable [FloatOps K]

/-- The integers that the score multiplies are small enough for floats. -/
structure Convertible (task : AnalysisTask K) : Prop where
  sharedPrefixTokens : (FloatOps.ofInt task.sharedPrefixTokens : Option K) ≠ none
  estimatedTokens : (FloatOps.ofInt task.estimatedTokens : Option K) ≠ none
  priority : (FloatOps.ofInt task.priority : Option K) ≠ none

theorem convertible_iff {task : AnalysisTask PyFloat} : Convertible task ↔
    task.sharedPrefixTokens < PyFloat.intLimit ∧
      task.estimatedTokens.natAbs < PyFloat.intLimit ∧ task.priority.natAbs < PyFloat.intLimit := by
  constructor
  · rintro ⟨hshared,hestimated,hpriority⟩
    rw [Ne,PyFloat.ofInt_eq_none,not_le] at hshared hestimated hpriority
    exact ⟨hshared,hestimated,hpriority⟩
  · rintro ⟨hshared,hestimated,hpriority⟩
    refine ⟨?_,?_,?_⟩
    all_goals rw [Ne,PyFloat.ofInt_eq_none,not_le]
    exacts [hshared,hestimated,hpriority]

instance (task : AnalysisTask PyFloat) : Decidable (Convertible task) :=
  decidable_of_iff _ convertible_iff.symm

theorem score_eq_none {weights : SchedulerWeights K} {now : K} :
    score weights task now = none ↔ ¬Convertible task := by
  cases hshared : (FloatOps.ofInt task.sharedPrefixTokens : Option K) with
  | none => exact iff_of_true (by simp [score,hshared]) (fun h => h.sharedPrefixTokens hshared)
  | some shared =>
    cases hestimated : (FloatOps.ofInt task.estimatedTokens : Option K) with
    | none =>
      exact iff_of_true (by simp [score,hshared,hestimated]) (fun h => h.estimatedTokens hestimated)
    | some estimated =>
      cases hpriority : (FloatOps.ofInt task.priority : Option K) with
      | none =>
        exact iff_of_true (by simp [score,hshared,hestimated,hpriority])
          (fun h => h.priority hpriority)
      | some priority =>
        exact iff_of_false (by simp [score,hshared,hestimated,hpriority])
          (not_not.mpr ⟨by simp [hshared],by simp [hestimated],by simp [hpriority]⟩)

/-- Every task that `pop_next` compares has a score. -/
def Scorable (currentVersions : SessionId → Option ℕ) (s : VersionDeadlineScheduler K) : Prop :=
  ∀ id task, s.tasks.get? id = some task → task.status = .queued →
    staleBase currentVersions task = false → Convertible task

/-- The ways through `pop_next`. An overflow leaves the stale tasks cancelled. -/
inductive PopNext (currentVersions : SessionId → Option ℕ) (now : K)
    (s : VersionDeadlineScheduler K) : Prop
  | overflow (task : AnalysisTask K) (htask : task ∈ s.candidates currentVersions)
      (hscore : score s.weights task now = none)
      (hrun : popNext currentVersions now s = .error .overflow (s.swept currentVersions))
  | idle (hnone : s.candidates currentVersions = [])
      (hrun : popNext currentVersions now s = .ok none (s.swept currentVersions))
  | selected (first : AnalysisTask K × K) (rest : List (AnalysisTask K × K))
      (hscored : scored s.weights now (s.candidates currentVersions) = some (first :: rest))
      (hrun : popNext currentVersions now s =
        .ok (some { maxLoop first rest with status := .running })
          ((s.swept currentVersions).store { maxLoop first rest with status := .running }))

theorem popNext_cases (currentVersions : SessionId → Option ℕ) (now : K)
    (s : VersionDeadlineScheduler K) : PopNext currentVersions now s := by
  cases hscored : scored s.weights now (s.candidates currentVersions) with
  | none =>
    obtain ⟨task,htask,hscore⟩ := scored_eq_none.mp hscored
    refine .overflow task htask hscore ?_
    simp only [candidates,swept] at hscored
    simp only [popNext,hscored]
    rfl
  | some pairs =>
    cases pairs with
    | nil =>
      refine .idle (scored_eq hscored).1.symm ?_
      simp only [candidates,swept] at hscored
      simp only [popNext,hscored]
      rfl
    | cons first rest =>
      refine .selected first rest hscored ?_
      simp only [candidates,swept] at hscored
      simp only [popNext,hscored]
      rfl

theorem maxLoop_candidate {currentVersions : SessionId → Option ℕ} {now : K}
    {first : AnalysisTask K × K} {rest : List (AnalysisTask K × K)}
    (h : scored s.weights now (s.candidates currentVersions) = some (first :: rest)) :
    maxLoop first rest ∈ s.candidates currentVersions :=
  (scored_eq h).1 ▸ maxLoop_mem first rest

theorem popped_of_ok (hn : s.Named) {currentVersions : SessionId → Option ℕ} {now : K}
    {popped : Option (AnalysisTask K)} (h : popNext currentVersions now s = .ok popped next) :
    Popped currentVersions popped s next := by
  cases popNext_cases currentVersions now s with
  | overflow task htask hscore hrun =>
    rw [hrun] at h
    cases h
  | idle hnone hrun =>
    rw [hrun] at h
    cases h
    exact popped_none hn currentVersions
  | selected first rest hscored hrun =>
    rw [hrun] at h
    cases h
    exact popped_some hn (maxLoop_candidate hscored)

/-- A call that raises has cancelled the stale tasks. -/
theorem popped_of_error (hn : s.Named) {currentVersions : SessionId → Option ℕ} {now : K}
    {e : SchedulerError} (h : popNext currentVersions now s = .error e next) :
    e = .overflow ∧ Popped currentVersions none s next := by
  cases popNext_cases currentVersions now s with
  | overflow task htask hscore hrun =>
    rw [hrun] at h
    cases h
    exact ⟨rfl,popped_none hn currentVersions⟩
  | idle hnone hrun | selected first rest hscored hrun =>
    rw [hrun] at h
    cases h

theorem popNext_overflow_iff (hn : s.Named) {currentVersions : SessionId → Option ℕ} (now : K) :
    (∃ e next, popNext currentVersions now s = .error e next) ↔ ¬s.Scorable currentVersions := by
  have hscorable : s.Scorable currentVersions ↔
      ∀ task ∈ s.candidates currentVersions, score s.weights task now ≠ none := by
    constructor
    · intro h task hmem
      obtain ⟨hget,hqueued,hfresh⟩ := (mem_candidates_iff hn).mp hmem
      exact fun hnone => score_eq_none.mp hnone (h _ task hget hqueued hfresh)
    · intro h id task hget hqueued hfresh
      have hmem := (mem_candidates_iff hn).mpr ⟨(hn id task hget).symm ▸ hget,hqueued,hfresh⟩
      exact not_not.mp (mt score_eq_none.mpr (h task hmem))
  rw [hscorable]
  cases popNext_cases currentVersions now s with
  | overflow task htask hscore hrun =>
    exact iff_of_true ⟨_,_,hrun⟩ (fun h => h task htask hscore)
  | idle hnone hrun => exact iff_of_false (by simp [hrun]) (by simp [hnone])
  | selected first rest hscored hrun =>
    have hsome : ∀ task ∈ s.candidates currentVersions, score s.weights task now ≠ none := by
      intro task hmem hscore
      rw [scored_eq_none.mpr ⟨task,hmem,hscore⟩] at hscored
      cases hscored
    exact iff_of_false (by simp [hrun]) (not_not.mpr hsome)

theorem queuedInDropOrder_perm (s : VersionDeadlineScheduler K) : s.queuedInDropOrder.Perm
    (s.tasks.values.filter (fun task => task.status = .queued)) :=
  List.perm_insertionSort _ _

theorem Named.of_dropOrder (hn : s.Named) (ht : task ∈ s.queuedInDropOrder) :
    s.tasks.get? task.taskId = some task ∧ task.status = .queued := by
  have hm := List.mem_filter.mp (s.queuedInDropOrder_perm.mem_iff.mp ht)
  exact ⟨hn.get?_of_mem hm.1,by simpa using hm.2⟩

theorem Named.nodup_dropOrder (hn : s.Named) :
    (s.queuedInDropOrder.map AnalysisTask.taskId).Nodup :=
  (s.queuedInDropOrder_perm.map _).nodup_iff.mpr
    ((List.filter_sublist.map _).nodup hn.nodup_values)

theorem shedLoad_ok (hn : s.Named) {targetActive : ℤ} (htarget : 0 ≤ targetActive) :
    ∃ dropped next, shedLoad targetActive s = .ok dropped next ∧ Shed dropped s next := by
  obtain ⟨k,hdropped,hnamed,htasks⟩ :=
    shedLoop_ok targetActive hn hn.nodup_dropOrder (fun _ ht => (hn.of_dropOrder ht).1)
  refine ⟨_,_,?_,hnamed,?_,?_,htasks⟩
  · simp only [shedLoad,if_neg (not_lt.mpr htarget)]
  · rw [hdropped]
    exact ((List.take_sublist k _).map _).nodup hn.nodup_dropOrder
  · intro id hid
    rw [hdropped] at hid
    obtain ⟨task,ht,rfl⟩ := List.mem_map.mp hid
    exact ⟨task,hn.of_dropOrder (List.mem_of_mem_take ht)⟩

theorem shedLoad_negative {targetActive : ℤ} (htarget : targetActive < 0) :
    shedLoad targetActive s = .error .negativeTarget s := by
  simp only [shedLoad,if_pos htarget]

end FloatOps
end VersionDeadlineScheduler
end CueBee.Runtime
