import CueBee.Runtime.CacheRevision
import CueBee.Runtime.SchedulerSpecs

/-! # What holds with any engine and any tokenizer

An engine that raises in the middle of `handle_event` leaves the cache behind the
transcript, and tasks queued whose branches are invalidated already. `Orderly` is what is
left of `Coherent` then: such a task is stale, so that `pop_next` never runs it.
-/
namespace CueBee.Runtime
open Cache Transcript Raising SessionManager

/-- What a branch remembers of its session is still true. -/
structure Grounded (m : SessionManager) (branch : Branch) : Prop where
  tentative : branch.includesTentative = branch.requiresCurrentVersion
  session : ∃ session, m.sessions.get? branch.sessionId = some session ∧
    branch.baseVersion ≤ session.version ∧
    (branch.requiresCurrentVersion = false → branch.dependency.stop ≤ session.commitFrontier)

/-- Two versions of a task that differ in status only. -/
def SameTask {K : Type} (task task' : AnalysisTask K) : Prop :=
  task' = { task with status := task'.status, cancelReason := task'.cancelReason }

/-- Two versions of a branch that differ in status only. -/
def SameBranch (branch branch' : Branch) : Prop :=
  branch' = { branch with
    status := branch'.status, invalidatedByVersion := branch'.invalidatedByVersion }

theorem SameTask.refl {K : Type} (task : AnalysisTask K) : SameTask task task := rfl
theorem SameBranch.refl (branch : Branch) : SameBranch branch branch := rfl

theorem Grounded.progress {m next : SessionManager} {branch branch' : Branch}
    (h : Grounded m branch) (hm : Progress m next) (hb : SameBranch branch branch') :
    Grounded next branch' := by
  obtain ⟨session,hget,hversion,hstop⟩ := h.session
  obtain ⟨after,hafter,hadv⟩ := hm _ session hget
  rw [hb]
  exact ⟨h.tentative,after,hafter,hversion.trans hadv.version,
    fun hr => (hstop hr).trans hadv.frontier⟩

/-- The session has moved past a branch that requires its version. -/
def Outdated (m : SessionManager) (branch : Branch) : Prop :=
  branch.requiresCurrentVersion = true ∧ ∃ session,
    m.sessions.get? branch.sessionId = some session ∧ branch.baseVersion < session.version

/-- A task carries the data of its branch, and the branch of a queued task is queued or outdated. -/
structure Attached (m : SessionManager) (task : AnalysisTask PyFloat) (branch : Branch) : Prop where
  branchId : task.branchId = branch.branchId
  sessionId : task.sessionId = branch.sessionId
  kind : task.kind = branch.kind
  baseVersion : task.baseVersion = branch.baseVersion
  dependency : task.dependency = branch.dependency
  requiresCurrentVersion : task.requiresCurrentVersion = branch.requiresCurrentVersion
  queued : task.status = .queued → branch.status = .queued ∨ Outdated m branch

structure Orderly (m : SessionManager) (g : BranchGraph) (q : VersionDeadlineScheduler PyFloat) :
    Prop where
  sound : g.kv.Sound
  named : g.Named
  tasksNamed : q.Named
  grounded : ∀ id branch, g.branches.get? id = some branch → Grounded m branch
  held : ∀ id, g.kv.view.branches id ≠ none →
    ∃ branch, g.branches.get? id = some branch ∧ branch.status.active = true
  attached : ∀ id task, q.tasks.get? id = some task →
    ∃ branch, g.branches.get? (branchIdOf id) = some branch ∧ Attached m task branch

variable {m next : SessionManager} {g g' : BranchGraph} {q q' : VersionDeadlineScheduler PyFloat}
  {task task' : AnalysisTask PyFloat} {branch branch' : Branch}

theorem Outdated.progress (h : Outdated m branch) (hm : Progress m next)
    (hb : SameBranch branch branch') : Outdated next branch' := by
  obtain ⟨hr,session,hget,hlt⟩ := h
  obtain ⟨after,hafter,hadv⟩ := hm _ session hget
  rw [hb]
  exact ⟨hr,after,hafter,hlt.trans_le hadv.version⟩

theorem Attached.restatus (h : Attached m task branch) (ht : SameTask task task')
    (hb : SameBranch branch branch')
    (hq : task'.status = .queued → branch'.status = .queued ∨ Outdated next branch') :
    Attached next task' branch' := by
  refine ⟨?_,?_,?_,?_,?_,?_,hq⟩
  all_goals rw [ht,hb]
  exacts [h.branchId,h.sessionId,h.kind,h.baseVersion,h.dependency,h.requiresCurrentVersion]

-- `fb` and `ft` say what becomes of each branch and of each task
section Restatus
variable {fb : BranchId → Branch → Branch} {ft : TaskId → AnalysisTask PyFloat → AnalysisTask PyFloat}

theorem named_restatus (h : g.Named)
    (hbranches : ∀ id, g'.branches.get? id = (g.branches.get? id).map (fb id))
    (hfb : ∀ id b, g.branches.get? id = some b → SameBranch b (fb id b)) : g'.Named := by
  intro id b hb
  rw [hbranches] at hb
  obtain ⟨b0,hb0,rfl⟩ := Option.map_eq_some_iff.mp hb
  have hn := h id b0 hb0
  rw [hfb id b0 hb0]
  exact hn

theorem tasksNamed_restatus (h : q.Named)
    (htasks : ∀ j, q'.tasks.get? j = (q.tasks.get? j).map (ft j))
    (hft : ∀ j t, q.tasks.get? j = some t → SameTask t (ft j t)) : q'.Named := by
  intro j t ht
  rw [htasks] at ht
  obtain ⟨t0,ht0,rfl⟩ := Option.map_eq_some_iff.mp ht
  rw [hft j t0 ht0]
  exact h j t0 ht0

theorem grounded_restatus (h : ∀ id b, g.branches.get? id = some b → Grounded m b)
    (hm : Progress m next) (hbranches : ∀ id, g'.branches.get? id = (g.branches.get? id).map (fb id))
    (hfb : ∀ id b, g.branches.get? id = some b → SameBranch b (fb id b)) :
    ∀ id b, g'.branches.get? id = some b → Grounded next b := by
  intro id b hb
  rw [hbranches] at hb
  obtain ⟨b0,hb0,rfl⟩ := Option.map_eq_some_iff.mp hb
  exact (h id b0 hb0).progress hm (hfb id b0 hb0)

/-- The branches that keep their references stay active. -/
theorem held_restatus (h : ∀ id, g.kv.view.branches id ≠ none →
      ∃ b, g.branches.get? id = some b ∧ b.status.active = true)
    (hbranches : ∀ id, g'.branches.get? id = (g.branches.get? id).map (fb id))
    (hheld : ∀ id, g'.kv.view.branches id ≠ none → g.kv.view.branches id ≠ none)
    (hactive : ∀ id b, g.branches.get? id = some b → g'.kv.view.branches id ≠ none →
      b.status.active = true → (fb id b).status.active = true) :
    ∀ id, g'.kv.view.branches id ≠ none →
      ∃ b, g'.branches.get? id = some b ∧ b.status.active = true := by
  intro id hid
  obtain ⟨b0,hb0,ha⟩ := h id (hheld id hid)
  exact ⟨fb id b0,by rw [hbranches,hb0]; rfl,hactive id b0 hb0 hid ha⟩

end Restatus

namespace Orderly

/-- Status changes: `fb` on branches and `ft` on tasks, with the sessions moving on. -/
theorem restatus (h : Orderly m g q) (hm : Progress m next)
    (fb : BranchId → Branch → Branch) (ft : TaskId → AnalysisTask PyFloat → AnalysisTask PyFloat)
    (hbranches : ∀ id, g'.branches.get? id = (g.branches.get? id).map (fb id))
    (htasks : ∀ j, q'.tasks.get? j = (q.tasks.get? j).map (ft j))
    (hfb : ∀ id b, g.branches.get? id = some b → SameBranch b (fb id b))
    (hft : ∀ j t, q.tasks.get? j = some t → SameTask t (ft j t))
    (hsound : g'.kv.Sound)
    (hheld : ∀ id, g'.kv.view.branches id ≠ none → g.kv.view.branches id ≠ none)
    (hactive : ∀ id b, g.branches.get? id = some b → g'.kv.view.branches id ≠ none →
      b.status.active = true → (fb id b).status.active = true)
    (hqueued : ∀ j t b, q.tasks.get? j = some t → g.branches.get? (branchIdOf j) = some b →
      (ft j t).status = .queued → t.status = .queued ∧
      (b.status = .queued → (fb (branchIdOf j) b).status = .queued ∨
        Outdated next (fb (branchIdOf j) b))) :
    Orderly next g' q' where
  sound := hsound
  named := named_restatus h.named hbranches hfb
  tasksNamed := tasksNamed_restatus h.tasksNamed htasks hft
  grounded := grounded_restatus h.grounded hm hbranches hfb
  held := held_restatus h.held hbranches hheld hactive
  attached j t ht := by
    rw [htasks] at ht
    obtain ⟨t0,ht0,rfl⟩ := Option.map_eq_some_iff.mp ht
    obtain ⟨b0,hb0,ha⟩ := h.attached j t0 ht0
    refine ⟨fb (branchIdOf j) b0,by rw [hbranches,hb0]; rfl,?_⟩
    refine ha.restatus (hft j t0 ht0) (hfb _ b0 hb0) (fun hq => ?_)
    obtain ⟨hq0,hkeep⟩ := hqueued j t0 b0 ht0 hb0 hq
    rcases ha.queued hq0 with hb | ho
    · exact hkeep hb
    · exact Or.inr (ho.progress hm (hfb _ b0 hb0))

/-- The sessions move on alone. -/
theorem sessions (h : Orderly m g q) (hm : Progress m next) : Orderly next g q :=
  h.restatus hm (fun _ b => b) (fun _ t => t) (fun _ => by simp) (fun _ => by simp)
    (fun _ b _ => .refl b) (fun _ t _ => .refl t) h.sound (fun _ => id) (fun _ _ _ _ => id)
    (fun _ _ _ _ _ hq => ⟨hq,Or.inl⟩)

/-- The tasks change their statuses alone, and none is queued again. -/
theorem tasks (h : Orderly m g q) (ft : TaskId → AnalysisTask PyFloat → AnalysisTask PyFloat)
    (htasks : ∀ j, q'.tasks.get? j = (q.tasks.get? j).map (ft j))
    (hft : ∀ j t, q.tasks.get? j = some t →
      SameTask t (ft j t) ∧ ((ft j t).status = .queued → t.status = .queued)) : Orderly m g q' :=
  h.restatus (.refl m) (fun _ b => b) ft (fun _ => by simp) htasks (fun _ b _ => .refl b)
    (fun j t ht => (hft j t ht).1) h.sound (fun _ => id) (fun _ _ _ _ => id)
    (fun j t _ ht _ hq => ⟨(hft j t ht).2 hq,Or.inl⟩)

/-- A call on the cache that leaves the references of all branches. -/
theorem cache (h : Orderly m g q) {kv : VersionedKVManager} (hsound : kv.Sound)
    (hview : kv.view.branches = g.kv.view.branches) : Orderly m { g with kv := kv } q :=
  h.restatus (.refl m) (fun _ b => b) (fun _ t => t) (fun _ => by simp) (fun _ => by simp)
    (fun _ b _ => .refl b) (fun _ t _ => .refl t) hsound (fun id hid => hview ▸ hid)
    (fun _ _ _ _ => id) (fun _ _ _ _ _ hq => ⟨hq,Or.inl⟩)

/-- A new branch, and possibly the task that it belongs to. -/
theorem addBranch (h : Orderly m g q) {branch : Branch}
    (hnew : g.branches.get? branch.branchId = none)
    (hid : branch.branchId = branchIdOf branch.taskId) (hground : Grounded m branch)
    (hget : ∀ id, g'.branches.get? id =
      if id = branch.branchId then some branch else g.branches.get? id) (hsound : g'.kv.Sound)
    (hothers : ∀ id, id ≠ branch.branchId → g'.kv.view.branches id = g.kv.view.branches id)
    (hheld : g'.kv.view.branches branch.branchId ≠ none → branch.status.active = true)
    (htasks : ∀ j, j ≠ branch.taskId → q'.tasks.get? j = q.tasks.get? j)
    (htask : ∀ t, q'.tasks.get? branch.taskId = some t →
      t.taskId = branch.taskId ∧ Attached m t branch) : Orderly m g' q' := by
  have hne : ∀ {id b}, g.branches.get? id = some b → id ≠ branch.branchId := by
    rintro id b hb rfl
    rw [hnew] at hb
    cases hb
  refine ⟨hsound,?_,?_,?_,?_,?_⟩
  · intro id b hb
    rw [hget] at hb
    by_cases he : id = branch.branchId
    · rw [if_pos he,Option.some.injEq] at hb
      exact hb ▸ ⟨he.symm,he.trans hid⟩
    · rw [if_neg he] at hb
      exact h.named id b hb
  · intro j t ht
    by_cases hj : j = branch.taskId
    · subst hj
      exact (htask t ht).1
    · rw [htasks j hj] at ht
      exact h.tasksNamed j t ht
  · intro id b hb
    rw [hget] at hb
    by_cases he : id = branch.branchId
    · rw [if_pos he,Option.some.injEq] at hb
      exact hb ▸ hground
    · rw [if_neg he] at hb
      exact h.grounded id b hb
  · intro id hidk
    by_cases he : id = branch.branchId
    · subst he
      exact ⟨branch,by rw [hget,if_pos rfl],hheld hidk⟩
    · rw [hothers id he] at hidk
      obtain ⟨b,hb,ha⟩ := h.held id hidk
      exact ⟨b,by rw [hget,if_neg he,hb],ha⟩
  · intro j t ht
    by_cases hj : j = branch.taskId
    · subst hj
      exact ⟨branch,by rw [hget,hid,if_pos rfl],(htask t ht).2⟩
    · rw [htasks j hj] at ht
      obtain ⟨b,hb,ha⟩ := h.attached j t ht
      exact ⟨b,by rw [hget,if_neg (hne hb),hb],ha⟩

/-- A branch id that the graph does not know has no references. -/
theorem unheld (h : Orderly m g q) {id : BranchId} (hid : g.branches.get? id = none) :
    g.kv.view.branches id = none := by
  by_contra hne
  obtain ⟨b,hb,-⟩ := h.held id hne
  rw [hid] at hb
  cases hb

/-- A task id whose branch does not exist is new to the scheduler as well. -/
theorem unscheduled (h : Orderly m g q) {taskId : TaskId}
    (hid : g.branches.get? (branchIdOf taskId) = none) : q.tasks.get? taskId = none := by
  cases hq : q.tasks.get? taskId with
  | none => rfl
  | some t =>
    obtain ⟨b,hb,-⟩ := h.attached taskId t hq
    rw [hid] at hb
    cases hb

/-- A queued task that is not stale has a queued branch. -/
theorem queued_branch (h : Orderly m g q) {id : TaskId} (ht : q.tasks.get? id = some task)
    (hq : task.status = .queued)
    (hfresh : VersionDeadlineScheduler.staleBase
      (fun s => (m.sessions.get? s).map ConversationSession.version) task = false) :
    ∃ branch, g.branches.get? (branchIdOf id) = some branch ∧ Attached m task branch ∧
      branch.status = .queued := by
  obtain ⟨branch,hb,ha⟩ := h.attached id task ht
  refine ⟨branch,hb,ha,(ha.queued hq).resolve_right ?_⟩
  rintro ⟨hr,session,hget,hlt⟩
  rw [← ha.baseVersion] at hlt
  rw [← ha.sessionId] at hget
  rw [← ha.requiresCurrentVersion] at hr
  simp [VersionDeadlineScheduler.staleBase,hq,hr,hget] at hfresh
  omega

end Orderly

end CueBee.Runtime
