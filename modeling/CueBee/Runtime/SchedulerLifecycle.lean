import CueBee.Runtime.StatusProgress

/-! # The scheduler on its own

Any calls on a scheduler, whoever makes them. `Moved` has all that a call can do to a task;
the bound on the active tasks follows, since no move makes a task active.
-/
namespace CueBee.Runtime
open Cache Transcript Raising PyStr

variable {K : Type}

/-- What a call can do to a task. -/
inductive AnalysisTask.Moved (task : AnalysisTask K) : AnalysisTask K → Prop
  | stays : Moved task task
  | runs (h : task.status = .queued) : Moved task { task with status := .running }
  | completes (h : task.status = .running) : Moved task { task with status := .completed }
  | stops (h : task.status.active = true) {status : TaskStatus}
      (hstatus : status = .cancelled ∨ status = .dropped) (reason : CancelReason) :
      Moved task { task with status := status, cancelReason := some reason }

namespace AnalysisTask.Moved
variable {task next : AnalysisTask K}

theorem same (h : task.Moved next) : SameTask task next := by
  cases h <;> rfl

/-- A task that has ended stays as it is. -/
theorem eq_of_ended (h : task.Moved next) (hended : task.status.active = false) : next = task := by
  cases h with
  | stays => rfl
  | runs h =>
    rw [h] at hended
    cases hended
  | completes h =>
    rw [h] at hended
    cases hended
  | stops h hstatus reason =>
    rw [h] at hended
    cases hended

theorem active (h : task.Moved next) (hactive : next.status.active = true) :
    task.status.active = true := by
  by_contra hended
  have hsame := h.eq_of_ended (Bool.of_not_eq_true hended)
  exact hended (hsame ▸ hactive)

/-- Nothing is queued again. -/
theorem not_queued (h : task.Moved next) (hqueued : task.status ≠ .queued) :
    next.status ≠ .queued := by
  cases h with
  | stays => exact hqueued
  | runs h => exact absurd h hqueued
  | completes h => simp
  | stops h hstatus reason =>
    rcases hstatus with rfl | rfl
    · simp
    · simp

theorem completed (h : task.Moved next) (hcompleted : next.status = .completed) :
    next = task ∨ task.status = .running := by
  cases h with
  | stays => exact .inl rfl
  | runs h => cases hcompleted
  | completes h => exact .inr h
  | stops h hstatus reason =>
    rcases hstatus with rfl | rfl
    · cases hcompleted
    · cases hcompleted

theorem stop (task : AnalysisTask K) {status : TaskStatus}
    (hstatus : status = .cancelled ∨ status = .dropped) (reason : CancelReason) :
    task.Moved (task.stop status reason) := by
  unfold AnalysisTask.stop
  split
  · next h => exact .stops h hstatus reason
  · exact .stays

theorem cancelStale (currentVersions : SessionId → Option ℕ) (task : AnalysisTask K) :
    task.Moved (VersionDeadlineScheduler.cancelStale currentVersions task) := by
  unfold VersionDeadlineScheduler.cancelStale
  split
  · next h =>
    have hqueued : task.status = .queued := by
      simp only [VersionDeadlineScheduler.staleBase,Bool.and_eq_true,decide_eq_true_eq] at h
      exact h.1.1
    exact .stops (by rw [hqueued]; rfl) (.inl rfl) _
  · exact .stays

end AnalysisTask.Moved

namespace VersionDeadlineScheduler

inductive Call (K : Type)
  | submit (task : AnalysisTask K)
  | cancel (taskId : TaskId) (reason : CancelReason)
  | popNext (currentVersions : SessionId → Option ℕ) (now : K)
  | complete (taskId : TaskId)
  | drop (taskId : TaskId) (reason : CancelReason)
  | shedLoad (targetActive : ℤ)

/-- What the calls return. -/
inductive Reply (K : Type)
  | nothing
  | cancelled (wasActive : Bool)
  | popped (task : Option (AnalysisTask K))
  | shed (taskIds : List TaskId)
deriving DecidableEq

def exec [FloatOps K] : Call K → EStateM SchedulerError (VersionDeadlineScheduler K) (Reply K)
  | .submit task => (fun _ => .nothing) <$> submit task
  | .cancel taskId reason => .cancelled <$> cancel taskId reason
  | .popNext currentVersions now => .popped <$> popNext currentVersions now
  | .complete taskId => (fun _ => .nothing) <$> complete taskId
  | .drop taskId reason => (fun _ => .nothing) <$> drop taskId reason
  | .shedLoad targetActive => .shed <$> shedLoad targetActive

/-- A task that is submitted is new. -/
def Call.New : Call K → Prop
  | .submit task => task.status = .queued
  | _ => True

variable {s next : VersionDeadlineScheduler K}

/-- A call that moves known tasks only. -/
structure Moves (s next : VersionDeadlineScheduler K) : Prop where
  named : next.Named
  cap : next.admissionCap = s.admissionCap
  tasks : ∀ id task, s.tasks.get? id = some task →
    ∃ task', next.tasks.get? id = some task' ∧ task.Moved task'
  known : ∀ id, s.tasks.get? id = none → next.tasks.get? id = none

/-- A task that is returned by `pop_next` was queued and runs now. -/
def Reply.FromQueue (s next : VersionDeadlineScheduler K) : Reply K → Prop
  | .popped (some task) => next.tasks.get? task.taskId = some task ∧ task.status = .running ∧
      ∃ before, s.tasks.get? task.taskId = some before ∧ before.status = .queued
  | _ => True

/-- A call that changes one task. -/
theorem moves_one {id : TaskId} {task task' : AnalysisTask K} (hnamed : next.Named)
    (hcap : next.admissionCap = s.admissionCap) (hget : s.tasks.get? id = some task)
    (hmoved : task.Moved task')
    (htasks : ∀ j, next.tasks.get? j = if j = id then some task' else s.tasks.get? j) :
    Moves s next := by
  refine ⟨hnamed,hcap,fun j t ht => ?_,fun j hj => ?_⟩
  · rw [htasks]
    by_cases hj : j = id
    · rw [hj,hget,Option.some.injEq] at ht
      rw [if_pos hj]
      exact ⟨task',rfl,ht ▸ hmoved⟩
    · rw [if_neg hj]
      exact ⟨t,ht,.stays⟩
  · rw [htasks,if_neg]
    · exact hj
    · rintro rfl
      rw [hget] at hj
      cases hj

/-- A call that changes every task by itself. -/
theorem moves_all {f : TaskId → AnalysisTask K → AnalysisTask K} (hnamed : next.Named)
    (hcap : next.admissionCap = s.admissionCap)
    (hmoved : ∀ id task, s.tasks.get? id = some task → task.Moved (f id task))
    (htasks : ∀ j, next.tasks.get? j = (s.tasks.get? j).map (f j)) : Moves s next := by
  refine ⟨hnamed,hcap,fun j t ht => ?_,fun j hj => ?_⟩
  · rw [htasks,ht]
    exact ⟨_,rfl,hmoved j t ht⟩
  · rw [htasks,hj]
    rfl

theorem get_unknown {id : TaskId} (h : s.tasks.get? id = none) :
    VersionDeadlineScheduler.get id s = .error (.unknownTask id) s := by
  simp only [VersionDeadlineScheduler.get,h]

/-- `pop_next` moves known tasks only, whether it returns or raises. -/
theorem Popped.moves {currentVersions : SessionId → Option ℕ} {popped : Option (AnalysisTask K)}
    (h : Popped currentVersions popped s next) (hcap : next.admissionCap = s.admissionCap) :
    Moves s next := by
  refine ⟨h.named,hcap,?_,?_⟩
  · intro id task hget
    rw [h.tasks]
    split
    · next hid =>
      obtain ⟨selected,rfl,rfl⟩ := Option.map_eq_some_iff.mp hid
      obtain ⟨before,hbefore,hqueued,-,heq⟩ := h.source selected rfl
      rw [hget,Option.some.injEq] at hbefore
      exact ⟨selected,rfl,heq ▸ hbefore ▸ .runs (hbefore ▸ hqueued)⟩
    · rw [hget]
      exact ⟨_,rfl,.cancelStale currentVersions task⟩
  · intro id hnone
    rw [h.tasks,if_neg,hnone]
    · rfl
    · intro hid
      obtain ⟨selected,rfl,rfl⟩ := Option.map_eq_some_iff.mp hid
      obtain ⟨before,hbefore,-⟩ := h.source selected rfl
      rw [hnone] at hbefore
      cases hbefore

section Settings
variable {I : VersionDeadlineScheduler K → Prop} (hI : ∀ s tasks, I s → I { s with tasks := tasks })

omit hI in
theorem keeps_getTask (id : TaskId) : Keeps I (VersionDeadlineScheduler.get id) := by
  intro s hs
  cases hget : s.tasks.get? id with
  | none => rwa [after_error (get_unknown hget)]
  | some task => rwa [after_ok (get_ok hget)]

include hI

theorem keeps_submit (task : AnalysisTask K) : Keeps I (submit task) := by
  intro s hs
  cases hrun : submit task s with
  | error e next =>
    rw [after_error hrun,submit_error hrun]
    exact hs
  | ok _ next =>
    rw [after_ok hrun,(submit_eq hrun).2.2]
    exact hI s _ hs

theorem keeps_cancel (id : TaskId) (reason : CancelReason) : Keeps I (cancel id reason) := by
  refine keeps_bind (keeps_getTask id) (fun _ => keeps_ite (fun _ => ?_) (fun _ => keeps_pure _))
  exact keeps_bind (keeps_modify (fun s hs => hI s _ hs)) (fun _ => keeps_pure _)

theorem keeps_drop (id : TaskId) (reason : CancelReason) : Keeps I (drop id reason) :=
  keeps_bind (keeps_getTask id)
    (fun _ => keeps_ite (fun _ => keeps_modify (fun s hs => hI s _ hs)) (fun _ => keeps_pure _))

theorem keeps_complete (id : TaskId) : Keeps I (complete id) :=
  keeps_bind (keeps_getTask id)
    (fun _ => keeps_ite (fun _ => keeps_throw _) (fun _ => keeps_modify (fun s hs => hI s _ hs)))

theorem keeps_popNext [FloatOps K] (currentVersions : SessionId → Option ℕ) (now : K) :
    Keeps I (popNext currentVersions now) := by
  intro s hs
  have hswept : I (s.swept currentVersions) := hI s _ hs
  cases popNext_cases currentVersions now s with
  | overflow task htask hscore hrun => rwa [after_error hrun]
  | idle hnone hrun => rwa [after_ok hrun]
  | selected first rest hscored hrun =>
    rw [after_ok hrun]
    exact hI _ _ hswept

theorem kept_shedLoop (targetActive : ℤ) (queue : List (AnalysisTask K)) (hs : I s) :
    I (shedLoop targetActive queue s).2 := by
  induction queue generalizing s with
  | nil => exact hs
  | cons task rest ih =>
    rw [shedLoop]
    split
    · exact ih (hI s _ hs)
    · exact hs

theorem keeps_shedLoad [FloatOps K] (targetActive : ℤ) : Keeps I (shedLoad targetActive) := by
  intro s hs
  by_cases htarget : targetActive < 0
  · rwa [after_error (shedLoad_negative htarget)]
  · simp only [after,shedLoad,if_neg htarget]
    exact kept_shedLoop hI targetActive s.queuedInDropOrder hs

/-- Every call leaves what does not depend on the tasks. -/
theorem keeps_exec [FloatOps K] (call : Call K) : Keeps I (exec call) := by
  cases call with
  | submit task => exact keeps_map _ (keeps_submit hI task)
  | cancel id reason => exact keeps_map _ (keeps_cancel hI id reason)
  | popNext currentVersions now => exact keeps_map _ (keeps_popNext hI currentVersions now)
  | complete id => exact keeps_map _ (keeps_complete hI id)
  | drop id reason => exact keeps_map _ (keeps_drop hI id reason)
  | shedLoad targetActive => exact keeps_map _ (keeps_shedLoad hI targetActive)

end Settings

def activeIds (s : VersionDeadlineScheduler K) : List TaskId :=
  (s.tasks.values.filter (fun task => task.status.active)).map AnalysisTask.taskId

theorem length_activeIds (s : VersionDeadlineScheduler K) : s.activeIds.length = s.activeCount := by
  rw [activeIds,List.length_map,activeCount,List.countP_eq_length_filter]

theorem mem_activeIds (hn : s.Named) {id : TaskId} {task : AnalysisTask K}
    (hget : s.tasks.get? id = some task) (hactive : task.status.active = true) :
    id ∈ s.activeIds := by
  rw [← hn id task hget]
  apply List.mem_map_of_mem
  apply List.mem_filter.mpr
  exact ⟨(Dict.mem_values_iff _ _).mpr ⟨id,hget⟩,hactive⟩

theorem activeCount_le (hn : next.Named) {ids : List TaskId}
    (h : ∀ id task, next.tasks.get? id = some task → task.status.active = true → id ∈ ids) :
    next.activeCount ≤ ids.length := by
  rw [← length_activeIds]
  have hnodup : next.activeIds.Nodup := (List.filter_sublist.map _).nodup hn.nodup_values
  apply List.Subperm.length_le
  apply List.subperm_of_subset hnodup
  intro id hid
  obtain ⟨task,htask,rfl⟩ := List.mem_map.mp hid
  obtain ⟨hmem,hactive⟩ := List.mem_filter.mp htask
  exact h _ task (hn.get?_of_mem hmem) hactive

/-- Tasks stand under their ids, and the active ones respect the cap. -/
structure Admitted (s : VersionDeadlineScheduler K) : Prop where
  named : s.Named
  bounded : s.activeCount ≤ s.admissionCap

theorem Admitted.added (h : s.Admitted) {task : AnalysisTask K}
    (hroom : s.activeCount < s.admissionCap) : (s.store task).Admitted := by
  have hnamed := named_store h.named task
  refine ⟨hnamed,?_⟩
  have hle : (s.store task).activeCount ≤ (task.taskId :: s.activeIds).length := by
    apply activeCount_le hnamed
    intro id t hget hactive
    rw [get?_store] at hget
    by_cases hid : id = task.taskId
    · exact hid ▸ List.mem_cons_self
    · rw [if_neg hid] at hget
      exact List.mem_cons_of_mem _ (mem_activeIds h.named hget hactive)
  rw [List.length_cons,length_activeIds] at hle
  show (s.store task).activeCount ≤ s.admissionCap
  omega

theorem Admitted.moves (h : s.Admitted) (hmoves : Moves s next) : next.Admitted := by
  refine ⟨hmoves.named,?_⟩
  have hle : next.activeCount ≤ s.activeIds.length := by
    apply activeCount_le hmoves.named
    intro id task' hget hactive
    cases hbefore : s.tasks.get? id with
    | none =>
      rw [hmoves.known id hbefore] at hget
      cases hget
    | some task =>
      obtain ⟨after,hafter,hmoved⟩ := hmoves.tasks id task hbefore
      rw [hget,Option.some.injEq] at hafter
      subst hafter
      exact mem_activeIds h.named hbefore (hmoved.active hactive)
  rw [length_activeIds] at hle
  rw [hmoves.cap]
  exact hle.trans h.bounded

variable [FloatOps K]

/-- The ways in which a call ends. Only `pop_next` can raise after it has changed something. -/
inductive Handled (call : Call K) (s : VersionDeadlineScheduler K) : Prop
  | raised (e : SchedulerError) (hrun : exec call s = .error e s)
  | swept (currentVersions : SessionId → Option ℕ) (now : K) (e : SchedulerError)
      (next : VersionDeadlineScheduler K) (hcall : call = .popNext currentVersions now)
      (hrun : exec call s = .error e next) (hmoves : Moves s next)
  | added (task : AnalysisTask K) (hcall : call = .submit task)
      (hfree : s.tasks.get? task.taskId = none) (hroom : s.activeCount < s.admissionCap)
      (hrun : exec call s = .ok .nothing (s.store task))
  | moved (reply : Reply K) (next : VersionDeadlineScheduler K) (hrun : exec call s = .ok reply next)
      (hmoves : Moves s next) (hreply : reply.FromQueue s next)

theorem cap_step (s : VersionDeadlineScheduler K) (call : Call K) :
    (after (exec call) s).admissionCap = s.admissionCap :=
  keeps_exec (I := fun t => t.admissionCap = s.admissionCap) (fun _ _ h => h) call s rfl

theorem cap_ok {call : Call K} {reply : Reply K} (hrun : exec call s = .ok reply next) :
    next.admissionCap = s.admissionCap := by
  rw [← cap_step s call,after_ok hrun]

theorem handled_submit (task : AnalysisTask K) (s : VersionDeadlineScheduler K) :
    Handled (.submit task) s := by
  cases hrun : submit task s with
  | error e next =>
    obtain rfl := submit_error hrun
    exact .raised e (map_error hrun)
  | ok _ next =>
    obtain ⟨hfree,hroom,rfl⟩ := submit_eq hrun
    exact .added task rfl hfree hroom (map_ok hrun)

theorem handled_cancel (hn : s.Named) (id : TaskId) (reason : CancelReason) :
    Handled (.cancel id reason) s := by
  cases hget : s.tasks.get? id with
  | none =>
    have hrun : cancel id reason s = .error (.unknownTask id) s := bind_error (get_unknown hget)
    exact .raised _ (map_error hrun)
  | some task =>
    obtain ⟨next,hrun,hnamed,htasks⟩ := cancel_ok hn hget reason
    have hexec : exec (.cancel id reason) s = .ok (.cancelled _) next := map_ok hrun
    exact .moved _ next hexec
      (moves_one hnamed (cap_ok hexec) hget (.stop task (.inl rfl) reason) htasks) trivial

theorem handled_drop (hn : s.Named) (id : TaskId) (reason : CancelReason) :
    Handled (.drop id reason) s := by
  cases hget : s.tasks.get? id with
  | none =>
    have hrun : drop id reason s = .error (.unknownTask id) s := bind_error (get_unknown hget)
    exact .raised _ (map_error hrun)
  | some task =>
    obtain ⟨next,hrun,hnamed,htasks⟩ := drop_ok hn hget reason
    have hexec : exec (.drop id reason) s = .ok .nothing next := map_ok hrun
    exact .moved _ next hexec
      (moves_one hnamed (cap_ok hexec) hget (.stop task (.inr rfl) reason) htasks) trivial

theorem handled_complete (hn : s.Named) (id : TaskId) : Handled (.complete id) s := by
  cases hget : s.tasks.get? id with
  | none =>
    have hrun : complete id s = .error (.unknownTask id) s := bind_error (get_unknown hget)
    exact .raised _ (map_error hrun)
  | some task =>
    by_cases hrunning : task.status = .running
    · refine .moved _ _ (map_ok (complete_ok hget hrunning))
        (moves_one (named_store hn _) rfl hget (.completes hrunning) fun j => ?_) trivial
      rw [get?_store]
      show (if j = task.taskId then _ else _) = _
      rw [hn id task hget]
    · have hrun : complete id s = .error (.notRunning id) s := by
        simp only [complete,bind_ok (get_ok hget),if_pos hrunning]
        rfl
      exact .raised _ (map_error hrun)

theorem handled_popNext (hn : s.Named) (currentVersions : SessionId → Option ℕ) (now : K) :
    Handled (.popNext currentVersions now) s := by
  cases hrun : popNext currentVersions now s with
  | error e next =>
    have hexec : exec (.popNext currentVersions now) s = .error e next := map_error hrun
    have hcap := cap_step s (.popNext currentVersions now)
    rw [after_error hexec] at hcap
    exact .swept currentVersions now e next rfl hexec ((popped_of_error hn hrun).2.moves hcap)
  | ok popped next =>
    have hexec : exec (.popNext currentVersions now) s = .ok (.popped popped) next := map_ok hrun
    have hpopped := popped_of_ok hn hrun
    refine .moved (.popped popped) next hexec (hpopped.moves (cap_ok hexec)) ?_
    cases popped with
    | none => trivial
    | some task =>
      obtain ⟨before,hbefore,hqueued,-,heq⟩ := hpopped.source task rfl
      refine ⟨?_,by rw [heq],before,hbefore,hqueued⟩
      rw [hpopped.tasks]
      exact if_pos rfl

theorem handled_shedLoad (hn : s.Named) (targetActive : ℤ) : Handled (.shedLoad targetActive) s := by
  rcases lt_or_ge targetActive 0 with hneg | hpos
  · exact .raised _ (map_error (shedLoad_negative hneg))
  · obtain ⟨dropped,next,hrun,hshed⟩ := shedLoad_ok hn hpos
    have hexec : exec (.shedLoad targetActive) s = .ok (.shed dropped) next := map_ok hrun
    refine .moved _ next hexec (moves_all hshed.named (cap_ok hexec) (fun id task hget => ?_)
      hshed.tasks) trivial
    split
    · next hid =>
      obtain ⟨queued,hqueued,hstatus⟩ := hshed.queued id hid
      rw [hget,Option.some.injEq] at hqueued
      subst hqueued
      exact .stops (by rw [hstatus]; rfl) (.inr rfl) .overloadShed
    · exact .stays

theorem handled (hn : s.Named) (call : Call K) : Handled call s := by
  cases call with
  | submit task => exact handled_submit task s
  | cancel taskId reason => exact handled_cancel hn taskId reason
  | popNext currentVersions now => exact handled_popNext hn currentVersions now
  | complete taskId => exact handled_complete hn taskId
  | drop taskId reason => exact handled_drop hn taskId reason
  | shedLoad targetActive => exact handled_shedLoad hn targetActive

theorem admitted_init (admissionCap : ℕ) (h : 0 < admissionCap) :
    (init (K := K) admissionCap h).Admitted where
  named _ _ hget := nomatch hget
  bounded := Nat.zero_le _

theorem Admitted.step (h : s.Admitted) (call : Call K) : (after (exec call) s).Admitted := by
  cases handled h.named call with
  | raised e hrun =>
    rw [after_error hrun]
    exact h
  | swept currentVersions now e next hcall hrun hmoves =>
    rw [after_error hrun]
    exact h.moves hmoves
  | added task hcall hfree hroom hrun =>
    rw [after_ok hrun]
    exact h.added hroom
  | moved reply next hrun hmoves hreply =>
    rw [after_ok hrun]
    exact h.moves hmoves

theorem task_step (h : s.Named) (call : Call K) {id : TaskId} {task : AnalysisTask K}
    (hget : s.tasks.get? id = some task) :
    ∃ task', (after (exec call) s).tasks.get? id = some task' ∧ task.Moved task' := by
  cases handled h call with
  | raised e hrun =>
    rw [after_error hrun]
    exact ⟨task,hget,.stays⟩
  | swept currentVersions now e next hcall hrun hmoves =>
    rw [after_error hrun]
    exact hmoves.tasks id task hget
  | added new hcall hfree hroom hrun =>
    have hid : id ≠ new.taskId := by
      rintro rfl
      rw [hget] at hfree
      cases hfree
    rw [after_ok hrun,get?_store,if_neg hid]
    exact ⟨task,hget,.stays⟩
  | moved reply next hrun hmoves hreply =>
    rw [after_ok hrun]
    exact hmoves.tasks id task hget

/-- The task that a call hands out. -/
def handedOut : Except SchedulerError (Reply K) → Option TaskId
  | .ok (.popped (some task)) => some task.taskId
  | _ => none

/-- The tasks that `pop_next` returns in a run, in order. -/
def poppedIds (calls : List (Call K)) (s : VersionDeadlineScheduler K) : List TaskId :=
  (replies exec calls s).filterMap handedOut

theorem poppedIds_cons (call : Call K) (rest : List (Call K)) (s : VersionDeadlineScheduler K) :
    poppedIds (call :: rest) s =
      (handedOut (outcome (exec call) s)).toList ++ poppedIds rest (after (exec call) s) := by
  rw [poppedIds,replies,List.filterMap_cons]
  cases handedOut (outcome (exec call) s) with
  | none => rfl
  | some id => rfl

/-- Only a queued task is handed out, and it runs then. -/
theorem handedOut_step (h : s.Named) {call : Call K} {id : TaskId}
    (hid : handedOut (outcome (exec call) s) = some id) :
    (∃ before, s.tasks.get? id = some before ∧ before.status = .queued) ∧
    ∃ task, (after (exec call) s).tasks.get? id = some task ∧ task.status = .running := by
  cases handled h call with
  | raised e hrun | swept currentVersions now e next hcall hrun hmoves =>
    rw [outcome_error hrun] at hid
    cases hid
  | added new hcall hfree hroom hrun =>
    rw [outcome_ok hrun] at hid
    cases hid
  | moved reply next hrun hmoves hreply =>
    rw [outcome_ok hrun] at hid
    rw [after_ok hrun]
    cases reply with
    | nothing => cases hid
    | cancelled wasActive => cases hid
    | shed taskIds => cases hid
    | popped popped =>
      cases popped with
      | none => cases hid
      | some task =>
        obtain rfl := Option.some.inj hid
        obtain ⟨hnext,hrunning,hbefore⟩ := hreply
        exact ⟨hbefore,task,hnext,hrunning⟩

/-- What a run leaves of the tasks that it finds. -/
structure Lasts (s next : VersionDeadlineScheduler K) (popped : List TaskId) : Prop where
  kept : ∀ id task, s.tasks.get? id = some task →
    ∃ task', next.tasks.get? id = some task' ∧ SameTask task task'
  ended : ∀ id task, s.tasks.get? id = some task → task.status.active = false →
    next.tasks.get? id = some task
  notPopped : ∀ id task, s.tasks.get? id = some task → task.status ≠ .queued → id ∉ popped

theorem lasts_run (h : s.Admitted) (calls : List (Call K)) :
    Lasts s (runAll exec calls s) (poppedIds calls s) := by
  induction calls generalizing s with
  | nil => exact ⟨fun _ task hget => ⟨task,hget,rfl⟩,fun _ _ hget _ => hget,fun _ _ _ _ => List.not_mem_nil⟩
  | cons call rest ih =>
    have hrest := ih (h.step call)
    refine ⟨fun id task hget => ?_,fun id task hget hended => ?_,fun id task hget hqueued => ?_⟩
    · obtain ⟨mid,hmid,hmoved⟩ := task_step h.named call hget
      obtain ⟨last,hlast,hsame⟩ := hrest.kept id mid hmid
      exact ⟨last,hlast,hmoved.same.trans hsame⟩
    · obtain ⟨mid,hmid,hmoved⟩ := task_step h.named call hget
      obtain rfl := hmoved.eq_of_ended hended
      exact hrest.ended id mid hmid hended
    · rw [poppedIds_cons,List.mem_append]
      rintro (hmem | hmem)
      · obtain ⟨⟨before,hbefore,hstatus⟩,-⟩ :=
          handedOut_step h.named (Option.mem_toList.mp hmem)
        rw [hget,Option.some.injEq] at hbefore
        exact hqueued (hbefore ▸ hstatus)
      · obtain ⟨mid,hmid,hmoved⟩ := task_step h.named call hget
        exact hrest.notPopped id mid hmid (hmoved.not_queued hqueued) hmem

theorem nodup_poppedIds (h : s.Admitted) (calls : List (Call K)) : (poppedIds calls s).Nodup := by
  induction calls generalizing s with
  | nil => exact List.nodup_nil
  | cons call rest ih =>
    rw [poppedIds_cons]
    cases hid : handedOut (outcome (exec call) s) with
    | none => exact ih (h.step call)
    | some id =>
      obtain ⟨-,task,hget,hrunning⟩ := handedOut_step h.named hid
      refine List.nodup_cons.mpr ⟨?_,ih (h.step call)⟩
      apply (lasts_run (h.step call) rest).notPopped id task hget
      rw [hrunning]
      simp

theorem admitted_run (h : s.Admitted) (calls : List (Call K)) :
    (runAll exec calls s).Admitted ∧ (runAll exec calls s).admissionCap = s.admissionCap := by
  induction calls generalizing s with
  | nil => exact ⟨h,rfl⟩
  | cons call rest ih =>
    obtain ⟨hadmitted,hcap⟩ := ih (h.step call)
    exact ⟨hadmitted,hcap.trans (cap_step s call)⟩

/-- The rules for one call. -/
structure Rules (call : Call K) (s : VersionDeadlineScheduler K) : Prop where
  completed : ∀ id task', (after (exec call) s).tasks.get? id = some task' →
    task'.status = .completed → s.tasks.get? id = some task' ∨
      ∃ task, s.tasks.get? id = some task ∧ task.status = .running
  stopped : ∀ id reason, call = .cancel id reason ∨ call = .drop id reason →
    ∀ task, s.tasks.get? id = some task →
      ∃ task', (after (exec call) s).tasks.get? id = some task' ∧ task'.status.active = false
  stale : ∀ currentVersions now, call = .popNext currentVersions now →
    ∀ id task, s.tasks.get? id = some task → staleBase currentVersions task = true →
      ∃ task', (after (exec call) s).tasks.get? id = some task' ∧ task'.status = .cancelled

theorem completed_step (h : s.Named) {call : Call K} (hnew : call.New) {id : TaskId}
    {task' : AnalysisTask K} (hget : (after (exec call) s).tasks.get? id = some task')
    (hcompleted : task'.status = .completed) : s.tasks.get? id = some task' ∨
      ∃ task, s.tasks.get? id = some task ∧ task.status = .running := by
  cases hbefore : s.tasks.get? id with
  | some task =>
    obtain ⟨mid,hmid,hmoved⟩ := task_step h call hbefore
    obtain rfl := Option.some.inj (hget.symm.trans hmid)
    rcases hmoved.completed hcompleted with hsame | hrunning
    · exact .inl (congrArg some hsame.symm)
    · exact .inr ⟨task,rfl,hrunning⟩
  | none =>
    cases handled h call with
    | raised e hrun =>
      rw [after_error hrun,hbefore] at hget
      cases hget
    | swept currentVersions now e next hcall hrun hmoves =>
      rw [after_error hrun,hmoves.known id hbefore] at hget
      cases hget
    | added new hcall hfree hroom hrun =>
      subst hcall
      have hqueued : new.status = .queued := hnew
      rw [after_ok hrun,get?_store] at hget
      by_cases hid : id = new.taskId
      · rw [if_pos hid,Option.some.injEq] at hget
        rw [← hget,hqueued] at hcompleted
        cases hcompleted
      · rw [if_neg hid,hbefore] at hget
        cases hget
    | moved reply next hrun hmoves hreply =>
      rw [after_ok hrun,hmoves.known id hbefore] at hget
      cases hget

theorem stopped_step (h : s.Named) {call : Call K} {id : TaskId} {reason : CancelReason}
    (hcall : call = .cancel id reason ∨ call = .drop id reason) {task : AnalysisTask K}
    (hget : s.tasks.get? id = some task) :
    ∃ task', (after (exec call) s).tasks.get? id = some task' ∧ task'.status.active = false := by
  rcases hcall with rfl | rfl
  · obtain ⟨next,hrun,-,htasks⟩ := cancel_ok h hget reason
    have hexec : exec (.cancel id reason) s = .ok (.cancelled task.status.active) next := map_ok hrun
    rw [after_ok hexec,htasks,if_pos rfl]
    exact ⟨_,rfl,task.stop_inactive rfl reason⟩
  · obtain ⟨next,hrun,-,htasks⟩ := drop_ok h hget reason
    have hexec : exec (.drop id reason) s = .ok .nothing next := map_ok hrun
    rw [after_ok hexec,htasks,if_pos rfl]
    exact ⟨_,rfl,task.stop_inactive rfl reason⟩

theorem stale_step (h : s.Named) {currentVersions : SessionId → Option ℕ} {now : K} {id : TaskId}
    {task : AnalysisTask K} (hget : s.tasks.get? id = some task)
    (hstale : staleBase currentVersions task = true) :
    ∃ task', (after (exec (.popNext currentVersions now)) s).tasks.get? id = some task' ∧
      task'.status = .cancelled := by
  have hpopped : ∃ popped, Popped currentVersions popped s
      (after (exec (.popNext currentVersions now)) s) := by
    cases hrun : popNext currentVersions now s with
    | error e next =>
      have hexec : exec (.popNext currentVersions now) s = .error e next := map_error hrun
      rw [after_error hexec]
      exact ⟨none,(popped_of_error h hrun).2⟩
    | ok popped next =>
      have hexec : exec (.popNext currentVersions now) s = .ok (.popped popped) next := map_ok hrun
      rw [after_ok hexec]
      exact ⟨popped,popped_of_ok h hrun⟩
  obtain ⟨popped,hpopped⟩ := hpopped
  rw [hpopped.tasks,if_neg,hget]
  · refine ⟨_,rfl,?_⟩
    rw [cancelStale,if_pos hstale]
  · intro hid
    obtain ⟨selected,rfl,rfl⟩ := Option.map_eq_some_iff.mp hid
    obtain ⟨before,hbefore,-,hfresh,-⟩ := hpopped.source selected rfl
    rw [hget,Option.some.injEq] at hbefore
    rw [hbefore,hfresh] at hstale
    cases hstale

theorem rules (h : s.Named) {call : Call K} (hnew : call.New) : Rules call s where
  completed _ _ hget hcompleted := completed_step h hnew hget hcompleted
  stopped _ _ hcall _ hget := stopped_step h hcall hget
  stale _ _ hcall _ _ hget hstale := hcall ▸ stale_step h hget hstale

/-- The call raises without an effect, if it raises. -/
def RaisesCleanly (call : Call K) (s : VersionDeadlineScheduler K) : Prop :=
  ∀ e next, exec call s = .error e next → next = s

/-- `pop_next` finds no stale task or a score for every other queued task. -/
def Call.Sound : Call K → VersionDeadlineScheduler K → Prop
  | .popNext currentVersions _,s => s.Scorable currentVersions ∨
      ∀ id task, s.tasks.get? id = some task → staleBase currentVersions task = false
  | _,_ => True

theorem raisesCleanly_popNext (h : s.Named) (currentVersions : SessionId → Option ℕ) (now : K) :
    RaisesCleanly (.popNext currentVersions now) s ↔
      Call.Sound (.popNext currentVersions now) s := by
  rw [Call.Sound,or_iff_not_imp_left,← popNext_overflow_iff h now,← swept_eq_iff]
  cases popNext_cases currentVersions now s with
  | overflow task htask hscore hrun =>
    have hexec : exec (.popNext currentVersions now) s = .error .overflow (s.swept currentVersions) :=
      map_error hrun
    exact ⟨fun hclean _ => hclean _ _ hexec,fun hsame e next hraised => by
      rw [hexec] at hraised
      cases hraised
      exact hsame ⟨_,_,hrun⟩⟩
  | idle hnone hrun | selected first rest hscored hrun =>
    refine iff_of_true (fun e next hraised => ?_) (fun ⟨e,next,hraised⟩ => ?_)
    · rw [show exec (.popNext currentVersions now) s = .ok (.popped _) _ from map_ok hrun] at hraised
      cases hraised
    · rw [hrun] at hraised
      cases hraised

theorem raisesCleanly_iff (h : s.Named) (call : Call K) : RaisesCleanly call s ↔ call.Sound s := by
  by_cases hpop : ∃ currentVersions now, call = .popNext currentVersions now
  · obtain ⟨currentVersions,now,rfl⟩ := hpop
    exact raisesCleanly_popNext h currentVersions now
  · refine iff_of_true (fun e next hraised => ?_) ?_
    · cases handled h call with
      | raised e' hrun =>
        rw [hrun] at hraised
        cases hraised
        rfl
      | swept currentVersions now e' next' hcall hrun hmoves =>
        exact absurd ⟨currentVersions,now,hcall⟩ hpop
      | added task hcall hfree hroom hrun | moved reply next' hrun hmoves hreply =>
        rw [hrun] at hraised
        cases hraised
    · cases call with
      | popNext currentVersions now => exact absurd ⟨currentVersions,now,rfl⟩ hpop
      | submit _ | cancel _ _ | complete _ | drop _ _ | shedLoad _ => trivial

/-- Any calls on a new scheduler: the active tasks respect the cap, no task is popped twice,
tasks stay, and those that have ended stay as they are and are not popped; every call that is
made then keeps the rules, and changes nothing when it raises, unless it is a `pop_next` that
overflows after the stale tasks. -/
theorem scheduler_lifecycle_iff (admissionCap : ℕ) (h : 0 < admissionCap) (calls : List (Call K)) :
    let s := runAll exec calls (init admissionCap h)
    s.activeCount ≤ admissionCap ∧ (poppedIds calls (init admissionCap h)).Nodup ∧
    (∀ more, Lasts s (runAll exec more s) (poppedIds more s)) ∧
    (∀ call : Call K, call.New → Rules call s) ∧
    ∀ call : Call K, RaisesCleanly call s ↔ call.Sound s := by
  intro s
  have hinit : (init (K := K) admissionCap h).Admitted := admitted_init admissionCap h
  obtain ⟨hadmitted,hcap⟩ := admitted_run hinit calls
  refine ⟨?_,nodup_poppedIds hinit calls,lasts_run hadmitted,fun call => rules hadmitted.named,
    raisesCleanly_iff hadmitted.named⟩
  have hbounded := hadmitted.bounded
  rw [hcap] at hbounded
  exact hbounded

/-- A new task of session `s`, based on version 0. -/
def queuedTask (id : PyStr) (kind : TaskKind) (priority : ℤ) : AnalysisTask PyFloat :=
  ⟨id,branchIdOf id,lit "s",kind,0,⟨0,0,Nat.le_refl 0⟩,.fin 1,priority,10,0,true,kind.currentVersion,
    lit "why?",.fin 0,.queued,none⟩

/-- A hint is stale when a question is popped, whose priority is small enough. -/
theorem scheduler_lifecycle_iff_question :
    let calls : List (Call PyFloat) := [.submit (queuedTask (lit "t") .proactiveHint 0),
      .submit (queuedTask (lit "q") .userQuery 7)]
    let pop : Call PyFloat := .popNext (fun _ => some 1) (.fin 0)
    RaisesCleanly pop (runAll exec calls (init 2 (by decide))) ∧
    (poppedIds (calls ++ [pop,pop]) (init 2 (by decide))).Nodup := by
  intro calls pop
  obtain ⟨-,-,-,-,hclean⟩ := scheduler_lifecycle_iff 2 (by decide) calls
  refine ⟨(hclean pop).mpr (.inl ?_),(scheduler_lifecycle_iff 2 (by decide) _).2.1⟩
  intro id task hget hqueued hfresh
  have hmem : task ∈ [queuedTask (lit "t") .proactiveHint 0,queuedTask (lit "q") .userQuery 7] :=
    (Dict.mem_values_iff _ _).mpr ⟨id,hget⟩
  rcases List.mem_pair.mp hmem with rfl | rfl
  · cases hfresh
  · exact ⟨by decide +kernel,by decide +kernel,by decide +kernel⟩

/-- The stale hint is cancelled before the priority of the question proves too large. -/
theorem endless_priority_cancels_hint :
    let s : VersionDeadlineScheduler PyFloat :=
      runAll exec [.submit (queuedTask (lit "t") .proactiveHint 0),
        .submit (queuedTask (lit "q") .userQuery (10 ^ 400))] (init 2 (by decide))
    let pop : Call PyFloat := .popNext (fun _ => some 1) (.fin 0)
    outcome (exec pop) s = .error .overflow ∧
    (s.tasks.get? (lit "t")).map AnalysisTask.status = some .queued ∧
    ((after (exec pop) s).tasks.get? (lit "t")).map AnalysisTask.status = some .cancelled ∧
    ¬RaisesCleanly pop s := by
  intro s pop
  have hraises : outcome (exec pop) s = .error .overflow := by decide +kernel
  have hqueued : (s.tasks.get? (lit "t")).map AnalysisTask.status = some .queued := by
    decide +kernel
  have hcancelled : ((after (exec pop) s).tasks.get? (lit "t")).map AnalysisTask.status =
      some .cancelled := by decide +kernel
  refine ⟨hraises,hqueued,hcancelled,fun hclean => ?_⟩
  cases hrun : exec pop s with
  | ok reply next =>
    rw [outcome_ok hrun] at hraises
    cases hraises
  | error e next =>
    rw [after_error hrun,hclean e next hrun,hqueued] at hcancelled
    cases hcancelled

end VersionDeadlineScheduler
end CueBee.Runtime
