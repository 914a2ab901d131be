import CueBee.Runtime.TaskExecution

/-! # Statuses only move forward

`Lasting` relates the states before and after any method: no task and no branch is lost,
their data stays, a status that is not active is final, and nothing is queued again.
-/
namespace CueBee.Runtime
open Cache Transcript Raising ConversationSession SessionManager
open VersionDeadlineScheduler (staleBase cancelStale)

def TaskStatus.Later (a b : TaskStatus) : Prop := b = a ∨ (a.active = true ∧ b ≠ .queued)

def BranchStatus.Later (a b : BranchStatus) : Prop := b = a ∨ (a.active = true ∧ b ≠ .queued)

theorem TaskStatus.Later.trans {a b c : TaskStatus} (h : a.Later b) (h' : b.Later c) : a.Later c := by
  rcases h with rfl | ⟨ha,hb⟩
  · exact h'
  · rcases h' with rfl | ⟨-,hc⟩
    · exact Or.inr ⟨ha,hb⟩
    · exact Or.inr ⟨ha,hc⟩

theorem BranchStatus.Later.trans {a b c : BranchStatus} (h : a.Later b) (h' : b.Later c) :
    a.Later c := by
  rcases h with rfl | ⟨ha,hb⟩
  · exact h'
  · rcases h' with rfl | ⟨-,hc⟩
    · exact Or.inr ⟨ha,hb⟩
    · exact Or.inr ⟨ha,hc⟩

theorem TaskStatus.Later.final {a b : TaskStatus} (h : a.Later b) (ha : a.active = false) : b = a := by
  rcases h with h | ⟨hactive,-⟩
  · exact h
  · rw [ha] at hactive
    cases hactive

theorem BranchStatus.Later.final {a b : BranchStatus} (h : a.Later b) (ha : a.active = false) :
    b = a := by
  rcases h with h | ⟨hactive,-⟩
  · exact h
  · rw [ha] at hactive
    cases hactive

theorem SameTask.trans {K : Type} {a b c : AnalysisTask K} (h : SameTask a b)
    (h' : SameTask b c) : SameTask a c := by
  unfold SameTask at *
  rw [h',h]

theorem SameBranch.trans {a b c : Branch} (h : SameBranch a b) (h' : SameBranch b c) :
    SameBranch a c := by
  unfold SameBranch at *
  rw [h',h]

theorem AnalysisTask.stop_later (task : AnalysisTask PyFloat) {status : TaskStatus} (hs : status ≠ .queued)
    (reason : CancelReason) : task.status.Later (task.stop status reason).status := by
  unfold AnalysisTask.stop
  split
  · rename_i ha
    exact Or.inr ⟨ha,hs⟩
  · exact Or.inl rfl

theorem Branch.cancel_later (branch : Branch) : branch.status.Later branch.cancel.status := by
  unfold Branch.cancel
  split
  · rename_i ha
    exact Or.inr ⟨ha,by simp⟩
  · exact Or.inl rfl

namespace CueBeeRuntime
variable {S : Type} {c : Services S} {r mid next : CueBeeRuntime S}

structure Lasting (r next : CueBeeRuntime S) : Prop where
  sessions : Progress r.sessions next.sessions
  tasks : ∀ id task, r.scheduler.tasks.get? id = some task →
    ∃ task', next.scheduler.tasks.get? id = some task' ∧ SameTask task task' ∧
      task.status.Later task'.status
  branches : ∀ id branch, r.branches.branches.get? id = some branch →
    ∃ branch', next.branches.branches.get? id = some branch' ∧ SameBranch branch branch' ∧
      branch.status.Later branch'.status

theorem Lasting.refl (r : CueBeeRuntime S) : Lasting r r where
  sessions := .refl _
  tasks _ task h := ⟨task,h,.refl task,Or.inl rfl⟩
  branches _ branch h := ⟨branch,h,.refl branch,Or.inl rfl⟩

theorem Lasting.trans (h : Lasting r mid) (h' : Lasting mid next) : Lasting r next where
  sessions := h.sessions.trans h'.sessions
  tasks id task ht := by
    obtain ⟨t1,h1,hs1,hl1⟩ := h.tasks id task ht
    obtain ⟨t2,h2,hs2,hl2⟩ := h'.tasks id t1 h1
    exact ⟨t2,h2,hs1.trans hs2,hl1.trans hl2⟩
  branches id branch hb := by
    obtain ⟨b1,h1,hs1,hl1⟩ := h.branches id branch hb
    obtain ⟨b2,h2,hs2,hl2⟩ := h'.branches id b1 h1
    exact ⟨b2,h2,hs1.trans hs2,hl1.trans hl2⟩

/-- A task that has ended keeps its status. -/
theorem Lasting.task_final (h : Lasting r next) {id : TaskId} {task : AnalysisTask PyFloat}
    (ht : r.scheduler.tasks.get? id = some task) (ha : task.status.active = false) :
    ∃ task', next.scheduler.tasks.get? id = some task' ∧ task'.status = task.status := by
  obtain ⟨task',ht',-,hlater⟩ := h.tasks id task ht
  exact ⟨task',ht',hlater.final ha⟩

/-- A branch that has ended keeps its status. -/
theorem Lasting.branch_final (h : Lasting r next) {id : BranchId} {branch : Branch}
    (hb : r.branches.branches.get? id = some branch) (ha : branch.status.active = false) :
    ∃ branch', next.branches.branches.get? id = some branch' ∧ branch'.status = branch.status := by
  obtain ⟨branch',hb',-,hlater⟩ := h.branches id branch hb
  exact ⟨branch',hb',hlater.final ha⟩

section StatusChanges
variable {fb : BranchId → Branch → Branch} {ft : TaskId → AnalysisTask PyFloat → AnalysisTask PyFloat}
  {released : BranchId → Prop}

theorem StatusChange.lasting (h : StatusChange fb ft released r next)
    (hfb : ∀ id b, r.branches.branches.get? id = some b →
      SameBranch b (fb id b) ∧ b.status.Later (fb id b).status)
    (hft : ∀ j t, r.scheduler.tasks.get? j = some t →
      SameTask t (ft j t) ∧ t.status.Later (ft j t).status) : Lasting r next where
  sessions := h.sessions ▸ .refl _
  tasks j t ht := ⟨ft j t,by rw [h.tasks,ht]; rfl,hft j t ht⟩
  branches id b hb := ⟨fb id b,by rw [h.branches,hb]; rfl,hfb id b hb⟩

end StatusChanges

theorem reviseBranch_later (event : STTEvent) (diff : TranscriptDiff) (id : BranchId) (b : Branch) :
    b.status.Later (reviseBranch event diff id b).status := by
  unfold reviseBranch
  split
  · rename_i hst
    exact Or.inr ⟨stale_active hst,by simp [Branch.invalidate]⟩
  · exact Or.inl rfl

theorem Revised.lasting {event : STTEvent} {diff : TranscriptDiff} (h : Revised event diff r next) :
    Lasting r next := by
  refine StatusChange.lasting h
    (fun id b _ => ⟨reviseBranch_same event diff id b,reviseBranch_later event diff id b⟩)
    (fun j t _ => ⟨reviseTask_same event diff r j t,?_⟩)
  unfold reviseTask
  split
  · exact t.stop_later (by decide) _
  · exact Or.inl rfl

theorem lasting_sessions (h : Progress r.sessions next.sessions) (hb : next.branches = r.branches)
    (hq : next.scheduler = r.scheduler) : Lasting r next where
  sessions := h
  tasks _ task ht := ⟨task,hq ▸ ht,.refl task,Or.inl rfl⟩
  branches _ branch hb' := ⟨branch,hb ▸ hb',.refl branch,Or.inl rfl⟩

/-- A branch is added, and its task too unless the submission fails. -/
theorem BranchAdded.lasting {branch : Branch} {xs : Option (List Token)}
    (h : BranchAdded r next branch xs) (hnew : r.branches.branches.get? branch.branchId = none)
    (htasks : ∀ j t, r.scheduler.tasks.get? j = some t → next.scheduler.tasks.get? j = some t) :
    Lasting r next where
  sessions := h.sessions ▸ .refl _
  tasks j t ht := ⟨t,htasks j t ht,.refl t,Or.inl rfl⟩
  branches id b hb := by
    have hne : id ≠ branch.branchId := by
      rintro rfl
      rw [hnew] at hb
      cases hb
    exact ⟨b,by rw [h.branches,if_neg hne,hb],.refl b,Or.inl rfl⟩

/-- The task of an accepted submission displaces no other. -/
theorem tasks_kept {task : AnalysisTask PyFloat} (hnew : r.scheduler.tasks.get? task.taskId = none)
    (htasks : next.scheduler = r.scheduler.store task) (j : TaskId) (t : AnalysisTask PyFloat)
    (ht : r.scheduler.tasks.get? j = some t) : next.scheduler.tasks.get? j = some t := by
  have hne : j ≠ task.taskId := by
    rintro rfl
    rw [hnew] at ht
    cases ht
  rw [htasks,VersionDeadlineScheduler.get?_store,if_neg hne,ht]

theorem lasting_popped {popped : Option TaskId}
    (hqueued : ∀ id, popped = some id →
      (∃ task, r.scheduler.tasks.get? id = some task ∧ task.status = .queued) ∧
      ∃ branch, r.branches.branches.get? (branchIdOf id) = some branch ∧ branch.status = .queued)
    (heffect : Restatused (popBranch popped) (popTask r.currentVersions popped) (fun _ => False)
      r next) : Lasting r next := by
  refine heffect.toStatusChange.lasting (fun id b hb => ?_) (fun j t ht => ?_)
  · unfold popBranch
    split
    · rename_i hid
      obtain ⟨taskId,hpopped,rfl⟩ := Option.map_eq_some_iff.mp hid
      obtain ⟨-,b',hb',hq⟩ := hqueued taskId hpopped
      rw [hb,Option.some.injEq] at hb'
      subst hb'
      refine ⟨rfl,Or.inr ⟨?_,by simp⟩⟩
      rw [hq]
      rfl
    · exact ⟨.refl b,Or.inl rfl⟩
  · unfold popTask
    split
    · rename_i hj
      obtain ⟨⟨task,ht',hq⟩,-⟩ := hqueued j hj
      rw [ht,Option.some.injEq] at ht'
      subst ht'
      refine ⟨rfl,Or.inr ⟨?_,by simp⟩⟩
      rw [hq]
      rfl
    · refine ⟨cancelStale_same _ t,?_⟩
      unfold cancelStale
      split
      · rename_i hst
        simp only [staleBase,Bool.and_eq_true,decide_eq_true_eq] at hst
        refine Or.inr ⟨?_,by simp⟩
        rw [hst.1.1]
        rfl
      · exact Or.inl rfl

theorem Popping.lasting {task : AnalysisTask PyFloat} {branch : Branch} {session : ConversationSession}
    (h : Popping task branch session r next) : Lasting r next := by
  refine lasting_popped (fun id hid => ?_) h.effect
  cases hid
  obtain ⟨before,hget,hq,-⟩ := h.source
  exact ⟨⟨before,hget,hq⟩,branch,h.found,h.queued⟩

theorem lasting_allowed {flight : Flight} {branch : Branch}
    (hb : r.branches.branches.get? flight.branchId = some branch) (hrunning : branch.status = .running)
    (hruns : ∀ task, r.scheduler.tasks.get? flight.task.taskId = some task → task.status = .running)
    (heffect : Restatused (completeBranch flight.branchId) (completeTask flight.task.taskId)
      (fun id => id = flight.branchId) r next) : Lasting r next := by
  refine heffect.toStatusChange.lasting (fun id b hid => ⟨completeBranch_same _ id b,?_⟩)
    (fun j t ht => ⟨completeTask_same _ j t,?_⟩)
  · unfold completeBranch
    split
    · rename_i he
      rw [he,hb,Option.some.injEq] at hid
      subst hid
      refine Or.inr ⟨?_,by simp⟩
      rw [hrunning]
      rfl
    · exact Or.inl rfl
  · unfold completeTask
    split
    · rename_i he
      refine Or.inr ⟨?_,by simp⟩
      rw [hruns t (he ▸ ht)]
      rfl
    · exact Or.inl rfl

theorem cancelBranch_later (branchId id : BranchId) (b : Branch) :
    b.status.Later (cancelBranch branchId id b).status := by
  unfold cancelBranch
  split
  · exact b.cancel_later
  · exact Or.inl rfl

theorem lasting_refused {flight : Flight} {reason : CancelReason}
    (heffect : Restatused (cancelBranch flight.branchId) (dropTask reason flight.task.taskId)
      (fun id => id = flight.branchId) r next) : Lasting r next := by
  refine heffect.toStatusChange.lasting
    (fun id b _ => ⟨cancelBranch_same _ id b,cancelBranch_later _ id b⟩)
    (fun j t _ => ⟨dropTask_same _ _ j t,?_⟩)
  unfold dropTask
  split
  · exact t.stop_later (by decide) _
  · exact Or.inl rfl

theorem lasting_shed {dropped : List TaskId}
    (hqueued : ∀ id ∈ dropped, ∃ task, r.scheduler.tasks.get? id = some task ∧
      task.status = .queued)
    (heffect : Restatused (cancelBranches dropped) (shedTasks dropped)
      (fun id => id ∈ dropped.map branchIdOf) r next) : Lasting r next := by
  refine heffect.toStatusChange.lasting
    (fun id b _ => ⟨cancelBranches_same _ id b,?_⟩) (fun j t ht => ?_)
  · unfold cancelBranches
    split
    · exact b.cancel_later
    · exact Or.inl rfl
  · unfold shedTasks
    split
    · rename_i hj
      obtain ⟨task,ht',hq⟩ := hqueued j hj
      rw [ht,Option.some.injEq] at ht'
      subst ht'
      refine ⟨rfl,Or.inr ⟨?_,by simp [AnalysisTask.shed]⟩⟩
      rw [hq]
      rfl
    · exact ⟨.refl t,Or.inl rfl⟩

theorem lasting_submitTask (a : Submission) (h : InOrder r) : Lasting r (after (submitTask c a) r) := by
  cases submitted c a h with
  | unknownSession hget hrun =>
    rw [after_error hrun]
    exact .refl r
  | branchExists session branch hget hbranch hrun =>
    rw [after_error hrun]
    exact .refl r
  | abandoned session e tokens next hget hnew hfail he hadded htasks hrun =>
    rw [after_error hrun]
    exact hadded.lasting hnew (fun j t ht => htasks ▸ ht)
  | refused session e next hget hnew hadded htasks hrun =>
    rw [after_error hrun]
    exact hadded.lasting hnew (fun j t ht => htasks ▸ ht)
  | accepted session promptTokens deadline next hget hnew hencode hadded hdeadline htasks hrun =>
    rw [after_ok hrun]
    exact hadded.lasting hnew (tasks_kept (h.unscheduled hnew) htasks)

end CueBeeRuntime
end CueBee.Runtime
