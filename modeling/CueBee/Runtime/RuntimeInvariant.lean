import CueBee.Runtime.OrderlyRuntime

/-! # The invariant of the runtime

`Coherent` couples the sessions, the branch graph with its cache, and the scheduler. The
runtime's methods only change statuses, release references or add a branch with its task,
so two lemmas carry the invariant through all of them.
-/
namespace CueBee.Runtime
open Cache Transcript Raising SessionManager

variable {task task' : AnalysisTask PyFloat} {branch branch' : Branch}

/-- The statuses of a task and of its branch. -/
structure StatusesAgree (task : TaskStatus) (branch : BranchStatus) : Prop where
  queued : task = .queued → branch = .queued
  running : task = .running ↔ branch = .running
  completed : task = .completed ↔ branch = .completed

theorem StatusesAgree.bothQueued : StatusesAgree .queued .queued :=
  ⟨fun _ => rfl,by decide,by decide⟩

theorem StatusesAgree.bothRunning : StatusesAgree .running .running :=
  ⟨nofun,by decide,by decide⟩

theorem StatusesAgree.bothCompleted : StatusesAgree .completed .completed :=
  ⟨nofun,by decide,by decide⟩

/-- `pop_next` cancels a task and leaves its branch queued. -/
theorem StatusesAgree.staleQueued : StatusesAgree .cancelled .queued :=
  ⟨nofun,by decide,by decide⟩

theorem StatusesAgree.shedCancelled : StatusesAgree .dropped .cancelled :=
  ⟨nofun,by decide,by decide⟩

/-- A task carries the data of its branch. -/
structure Paired (task : AnalysisTask PyFloat) (branch : Branch) : Prop where
  branchId : task.branchId = branch.branchId
  sessionId : task.sessionId = branch.sessionId
  kind : task.kind = branch.kind
  baseVersion : task.baseVersion = branch.baseVersion
  dependency : task.dependency = branch.dependency
  requiresCurrentVersion : task.requiresCurrentVersion = branch.requiresCurrentVersion
  statuses : StatusesAgree task.status branch.status

structure Coherent (m : SessionManager) (g : BranchGraph) (q : VersionDeadlineScheduler PyFloat) :
    Prop where
  sound : g.kv.Sound
  named : g.Named
  tasksNamed : q.Named
  agrees : ∀ s, Agrees (m.current s) (g.kv.view.sessions s)
  grounded : ∀ id branch, g.branches.get? id = some branch → Grounded m branch
  held : ∀ id, g.kv.view.branches id ≠ none →
    ∃ branch, g.branches.get? id = some branch ∧ branch.status.active = true
  paired : ∀ id task, q.tasks.get? id = some task →
    ∃ branch, g.branches.get? (branchIdOf id) = some branch ∧ Paired task branch
  known : ∀ id branch, g.branches.get? id = some branch → branch.status.active = true →
    branch.requiresCurrentVersion = true → ∃ task, q.tasks.get? branch.taskId = some task

theorem Paired.attached (h : Paired task branch) : Attached m task branch :=
  ⟨h.branchId,h.sessionId,h.kind,h.baseVersion,h.dependency,h.requiresCurrentVersion,
    fun hq => Or.inl (h.statuses.queued hq)⟩

theorem Coherent.orderly {m : SessionManager} {g : BranchGraph} {q : VersionDeadlineScheduler PyFloat}
    (h : Coherent m g q) : Orderly m g q where
  sound := h.sound
  named := h.named
  tasksNamed := h.tasksNamed
  grounded := h.grounded
  held := h.held
  attached id task ht := by
    obtain ⟨branch,hb,hp⟩ := h.paired id task ht
    exact ⟨branch,hb,hp.attached⟩

theorem coherent_init (guardTokens blockSize : ℕ) (hblock : 0 < blockSize) (admissionCap : ℕ)
    (hcap : 0 < admissionCap) : Coherent (SessionManager.init guardTokens)
      (BranchGraph.init blockSize hblock) (VersionDeadlineScheduler.init admissionCap hcap) where
  sound := VersionedKVManager.sound_init blockSize hblock
  named id b h := by cases h
  tasksNamed id t h := by cases h
  agrees s := agrees_fresh s
  grounded id b h := by cases h
  held id h := absurd rfl h
  paired id t h := by cases h
  known id b h := by cases h

theorem Paired.restatus (h : Paired task branch) (ht : SameTask task task') (hb : SameBranch branch branch')
    (hs : StatusesAgree task'.status branch'.status) : Paired task' branch' := by
  rw [ht,hb]
  exact ⟨h.branchId,h.sessionId,h.kind,h.baseVersion,h.dependency,h.requiresCurrentVersion,hs⟩

namespace Coherent
variable {m next : SessionManager} {g g' : BranchGraph} {q q' : VersionDeadlineScheduler PyFloat}

/-- Status changes: `fb` on branches and `ft` on tasks, with the sessions moving on. -/
theorem restatus (h : Coherent m g q) (hm : Progress m next)
    (fb : BranchId → Branch → Branch) (ft : TaskId → AnalysisTask PyFloat → AnalysisTask PyFloat)
    (hbranches : ∀ id, g'.branches.get? id = (g.branches.get? id).map (fb id))
    (htasks : ∀ j, q'.tasks.get? j = (q.tasks.get? j).map (ft j))
    (hfb : ∀ id b, g.branches.get? id = some b →
      SameBranch b (fb id b) ∧ ((fb id b).status.active = true → b.status.active = true))
    (hft : ∀ j t, q.tasks.get? j = some t → SameTask t (ft j t))
    (hsound : g'.kv.Sound) (hagrees : ∀ s, Agrees (next.current s) (g'.kv.view.sessions s))
    (hheld : ∀ id, g'.kv.view.branches id ≠ none → g.kv.view.branches id ≠ none)
    (hactive : ∀ id b, g.branches.get? id = some b → g'.kv.view.branches id ≠ none →
      b.status.active = true → (fb id b).status.active = true)
    (hpair : ∀ j t b, q.tasks.get? j = some t → g.branches.get? (branchIdOf j) = some b →
      StatusesAgree t.status b.status →
      StatusesAgree (ft j t).status (fb (branchIdOf j) b).status) :
    Coherent next g' q' where
  sound := hsound
  named := named_restatus h.named hbranches fun id b hb => (hfb id b hb).1
  tasksNamed := tasksNamed_restatus h.tasksNamed htasks hft
  agrees := hagrees
  grounded := grounded_restatus h.grounded hm hbranches fun id b hb => (hfb id b hb).1
  held := held_restatus h.held hbranches hheld hactive
  paired j t ht := by
    rw [htasks] at ht
    obtain ⟨t0,ht0,rfl⟩ := Option.map_eq_some_iff.mp ht
    obtain ⟨b0,hb0,hp⟩ := h.paired j t0 ht0
    refine ⟨fb (branchIdOf j) b0,by rw [hbranches,hb0]; rfl,?_⟩
    exact hp.restatus (hft j t0 ht0) (hfb _ b0 hb0).1 (hpair j t0 b0 ht0 hb0 hp.statuses)
  known id b hb ha hr := by
    rw [hbranches] at hb
    obtain ⟨b0,hb0,rfl⟩ := Option.map_eq_some_iff.mp hb
    obtain ⟨hsame,hact⟩ := hfb id b0 hb0
    have hr0 : b0.requiresCurrentVersion = true := by
      rw [hsame] at hr
      exact hr
    obtain ⟨t0,ht0⟩ := h.known id b0 hb0 (hact ha) hr0
    refine ⟨ft b0.taskId t0,?_⟩
    rw [hsame,htasks]
    show (q.tasks.get? b0.taskId).map _ = _
    rw [ht0]
    rfl

/-- A rejected event: only the sessions move, and no transcript changes. -/
theorem sessions (h : Coherent m g q) (hm : Progress m next)
    (hsame : ∀ s, ConversationSession.SameTranscript (m.current s) (next.current s)) :
    Coherent next g q := by
  refine h.restatus hm (fun _ b => b) (fun _ t => t) (fun _ => by simp) (fun _ => by simp)
    (fun _ b _ => ⟨.refl b,id⟩) (fun _ t _ => .refl t) h.sound
    (fun s => (h.agrees s).of_same (hsame s)) (fun _ => id) (fun _ _ _ _ => id) (fun _ _ _ _ _ => id)

/-- A new branch, and possibly the task that it belongs to. -/
theorem addBranch (h : Coherent m g q) {branch : Branch}
    (hnew : g.branches.get? branch.branchId = none)
    (hid : branch.branchId = branchIdOf branch.taskId) (hground : Grounded m branch)
    (hget : ∀ id, g'.branches.get? id =
      if id = branch.branchId then some branch else g.branches.get? id) (hsound : g'.kv.Sound)
    (hsessions : g'.kv.view.sessions = g.kv.view.sessions)
    (hothers : ∀ id, id ≠ branch.branchId → g'.kv.view.branches id = g.kv.view.branches id)
    (hheld : g'.kv.view.branches branch.branchId ≠ none → branch.status.active = true)
    (htasks : ∀ j, j ≠ branch.taskId → q'.tasks.get? j = q.tasks.get? j)
    (htask : ∀ t, q'.tasks.get? branch.taskId = some t → t.taskId = branch.taskId ∧ Paired t branch)
    (hknown : branch.status.active = true → branch.requiresCurrentVersion = true →
      ∃ t, q'.tasks.get? branch.taskId = some t) : Coherent m g' q' := by
  have hne : ∀ {id b}, g.branches.get? id = some b → id ≠ branch.branchId := by
    rintro id b hb rfl
    rw [hnew] at hb
    cases hb
  have horder : Orderly m g' q' := h.orderly.addBranch hnew hid hground hget hsound hothers hheld
    htasks (fun t ht => ⟨(htask t ht).1,(htask t ht).2.attached⟩)
  refine ⟨hsound,horder.named,horder.tasksNamed,?_,horder.grounded,horder.held,?_,?_⟩
  · intro s
    rw [hsessions]
    exact h.agrees s
  · intro j t ht
    by_cases hj : j = branch.taskId
    · subst hj
      exact ⟨branch,by rw [hget,hid,if_pos rfl],(htask t ht).2⟩
    · rw [htasks j hj] at ht
      obtain ⟨b,hb,hp⟩ := h.paired j t ht
      exact ⟨b,by rw [hget,if_neg (hne hb),hb],hp⟩
  · intro id b hb ha hr
    rw [hget] at hb
    by_cases he : id = branch.branchId
    · rw [if_pos he,Option.some.injEq] at hb
      subst hb
      exact hknown ha hr
    · rw [if_neg he] at hb
      obtain ⟨t,ht⟩ := h.known id b hb ha hr
      have hj : b.taskId ≠ branch.taskId := by
        intro hj
        exact he ((h.named id b hb).2.trans (hj ▸ hid.symm))
      exact ⟨t,by rw [htasks _ hj,ht]⟩

end Coherent

namespace CueBeeRuntime
variable {S : Type} {r mid next : CueBeeRuntime S} {m : SessionManager}
  {fb : BranchId → Branch → Branch} {ft : TaskId → AnalysisTask PyFloat → AnalysisTask PyFloat}
  {released : BranchId → Prop}

/-- The invariant as a property of the runtime. -/
def Inv (r : CueBeeRuntime S) : Prop := Coherent r.sessions r.branches r.scheduler

/-- The part of it that needs nothing of the engine and the tokenizer. -/
def InOrder (r : CueBeeRuntime S) : Prop := Orderly r.sessions r.branches r.scheduler

theorem Inv.inOrder (h : Inv r) : InOrder r := Coherent.orderly h

/-- Statuses change by `fb` and `ft`, and the branches in `released` lose their references. -/
structure StatusChange (fb : BranchId → Branch → Branch)
    (ft : TaskId → AnalysisTask PyFloat → AnalysisTask PyFloat)
    (released : BranchId → Prop) (r next : CueBeeRuntime S) : Prop where
  revisions : next.revisions = r.revisions
  sessions : next.sessions = r.sessions
  gpuLoad : next.gpuLoad = r.gpuLoad
  branches : ∀ id, next.branches.branches.get? id = (r.branches.branches.get? id).map (fb id)
  tasks : ∀ j, next.scheduler.tasks.get? j = (r.scheduler.tasks.get? j).map (ft j)
  sound : next.kv.Sound
  dropped : ∀ id, released id → next.kv.view.branches id = none
  kept : ∀ id, ¬released id → next.kv.view.branches id = r.kv.view.branches id

/-- Moreover, the cache reads as before for every session. -/
structure Restatused (fb : BranchId → Branch → Branch)
    (ft : TaskId → AnalysisTask PyFloat → AnalysisTask PyFloat)
    (released : BranchId → Prop) (r next : CueBeeRuntime S) : Prop
    extends StatusChange fb ft released r next where
  reads : next.kv.view.sessions = r.kv.view.sessions

theorem StatusChange.onlyCache (h : StatusChange fb ft released r mid) (honly : OnlyCache mid next)
    (hsound : next.kv.Sound) (hview : next.kv.view.branches = mid.kv.view.branches) :
    StatusChange fb ft released r next where
  revisions := honly.revisions.trans h.revisions
  sessions := honly.sessions.trans h.sessions
  gpuLoad := honly.gpuLoad.trans h.gpuLoad
  branches id := by rw [honly.branches,h.branches]
  tasks j := by rw [honly.scheduler,h.tasks]
  sound := hsound
  dropped id hid := by rw [hview,h.dropped id hid]
  kept id hid := by rw [hview,h.kept id hid]

/-- `m` stands for the sessions before the step that the statuses follow. -/
theorem StatusChange.inv (h : StatusChange fb ft released r next)
    (hbase : Coherent m r.branches r.scheduler) (hm : Progress m r.sessions)
    (hagrees : ∀ s, Agrees (r.sessions.current s) (next.kv.view.sessions s))
    (hfb : ∀ id b, r.branches.branches.get? id = some b →
      SameBranch b (fb id b) ∧ ((fb id b).status.active = true → b.status.active = true))
    (hft : ∀ j t, r.scheduler.tasks.get? j = some t → SameTask t (ft j t))
    (hactive : ∀ id b, r.branches.branches.get? id = some b → ¬released id →
      b.status.active = true → (fb id b).status.active = true)
    (hpair : ∀ j t b, r.scheduler.tasks.get? j = some t →
      r.branches.branches.get? (branchIdOf j) = some b → StatusesAgree t.status b.status →
      StatusesAgree (ft j t).status (fb (branchIdOf j) b).status) : Inv next := by
  have hnot : ∀ {id}, next.kv.view.branches id ≠ none → ¬released id :=
    fun hid hrel => hid (h.dropped _ hrel)
  unfold Inv
  rw [h.sessions]
  refine hbase.restatus hm fb ft h.branches h.tasks hfb hft h.sound hagrees ?_ ?_ hpair
  · intro id hid
    show r.kv.view.branches id ≠ none
    rw [← h.kept id (hnot hid)]
    exact hid
  · intro id b hb hid
    exact hactive id b hb (hnot hid)

theorem Restatused.inv (h : Restatused fb ft released r next) (hinv : Inv r)
    (hfb : ∀ id b, r.branches.branches.get? id = some b →
      SameBranch b (fb id b) ∧ ((fb id b).status.active = true → b.status.active = true))
    (hft : ∀ j t, r.scheduler.tasks.get? j = some t → SameTask t (ft j t))
    (hactive : ∀ id b, r.branches.branches.get? id = some b → ¬released id →
      b.status.active = true → (fb id b).status.active = true)
    (hpair : ∀ j t b, r.scheduler.tasks.get? j = some t →
      r.branches.branches.get? (branchIdOf j) = some b → StatusesAgree t.status b.status →
      StatusesAgree (ft j t).status (fb (branchIdOf j) b).status) : Inv next := by
  refine h.toStatusChange.inv hinv (.refl _) (fun s => ?_) hfb hft hactive hpair
  rw [h.reads]
  exact hinv.agrees s

end CueBeeRuntime
end CueBee.Runtime
