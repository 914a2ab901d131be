import CueBee.Runtime.Interleaving
import CueBee.Runtime.TasksInFlight

/-! # What one move does

`Flying` is what holds between moves about the tasks in generation, with any engine and any
tokenizer. `Stepped` lists the four ways a move changes a system: it only moves the runtime on,
adds a task, adds a generation, or turns a generation into an outcome.
-/
namespace CueBee.Runtime
open Cache Transcript Raising ConversationSession SessionManager CueBeeRuntime

namespace CueBeeRuntime
variable {S : Type} {c : Services S} {r next : CueBeeRuntime S}

/-- No task is new. -/
def NoNewTask (r next : CueBeeRuntime S) : Prop :=
  ∀ id task, next.scheduler.tasks.get? id = some task →
    ∃ before, r.scheduler.tasks.get? id = some before

theorem noNewTask_of_absent (h : ∀ id, r.scheduler.tasks.get? id = none →
    next.scheduler.tasks.get? id = none) : NoNewTask r next := by
  intro id task ht
  refine Option.ne_none_iff_exists'.mp (fun hnone => ?_)
  rw [h id hnone] at ht
  cases ht

theorem StatusChange.noNewTask {fb : BranchId → Branch → Branch}
    {ft : TaskId → AnalysisTask PyFloat → AnalysisTask PyFloat} {released : BranchId → Prop}
    (h : StatusChange fb ft released r next) : NoNewTask r next :=
  noNewTask_of_absent (fun id hnone => by rw [h.tasks,hnone]; rfl)

end CueBeeRuntime

namespace LiveRuntime
variable {S : Type} {c : Services S} {s next : LiveRuntime S}

structure Flying (s : LiveRuntime S) : Prop where
  inOrder : InOrder s.runtime
  inFlight : ∀ g ∈ s.generations, InFlight s.runtime g.flight
  distinct : (s.generations.map Generation.taskId).Nodup

theorem flying_init (blockSize : ℕ) (hblock : 0 < blockSize) (admissionCap : ℕ)
    (hcap : 0 < admissionCap) (e : S) : Flying (init blockSize hblock admissionCap hcap e) where
  inOrder := inOrder_init blockSize hblock admissionCap hcap e
  inFlight g hg := by cases hg
  distinct := List.nodup_nil

/-- How the task of a finished generation ended. -/
def Ended (outcome : TaskOutcome) (r : CueBeeRuntime S) : Prop :=
  ∃ task, r.scheduler.tasks.get? outcome.taskId = some task ∧ task.status.active = false ∧
    (outcome.decision = .allow → task.status = .completed)

inductive Stepped (s : LiveRuntime S) : LiveRuntime S → Prop
  | quiet (r : CueBeeRuntime S) (hsince : Since s.runtime r)
      (hfly : ∀ g ∈ s.generations, InFlight r g.flight) (hold : NoNewTask s.runtime r) :
      Stepped s { s with runtime := r }
  | submitted (a : Submission) (session : ConversationSession) (deadline : PyFloat)
      (r : CueBeeRuntime S) (hsince : Since s.runtime r)
      (hfly : ∀ g ∈ s.generations, InFlight r g.flight)
      (hget : s.runtime.sessions.sessions.get? a.sessionId = some session)
      (hnew : s.runtime.branches.branches.get? (branchIdOf (resolvedTaskId a)) = none)
      (htasks : r.scheduler =
        s.runtime.scheduler.store (newTask a session (submittedBranch a session) deadline)) :
      Stepped s { s with
        runtime := r, submitted := s.submitted.set (resolvedTaskId a) session }
  | started (task : AnalysisTask PyFloat) (branch : Branch) (session : ConversationSession)
      (promptTokens : List Token) (r : CueBeeRuntime S) (hsince : Since s.runtime r)
      (hfly : ∀ g ∈ s.generations, InFlight r g.flight)
      (hpop : Popping task branch session s.runtime r) :
      Stepped s { s with
        runtime := r
        generations := s.generations ++ [⟨⟨task,branchIdOf task.taskId,
          newRequest task (promptOf task branch session) promptTokens⟩,session⟩] }
  | finished (i : ℕ) (g : Generation) (result : EngineResult) (outcome : TaskOutcome)
      (r : CueBeeRuntime S) (hsince : Since s.runtime r) (hg : s.generations[i]? = some g)
      (hfly : ∀ g' ∈ s.generations.eraseIdx i, InFlight r g'.flight)
      (hold : NoNewTask s.runtime r) (hrun : finishNext g.flight result s.runtime = .ok outcome r)
      (hid : outcome.taskId = g.taskId) (hend : Ended outcome r) :
      Stepped s { s with
        runtime := r
        generations := s.generations.eraseIdx i
        outcomes := s.outcomes ++ [outcome] }

/-- The generations that stay are of other tasks. -/
theorem mem_eraseIdx_ne {gs : List Generation} (hnodup : (gs.map Generation.taskId).Nodup) {i : ℕ}
    {g g' : Generation} (hg : gs[i]? = some g) (hg' : g' ∈ gs.eraseIdx i) :
    g' ∈ gs ∧ g'.taskId ≠ g.taskId := by
  obtain ⟨j,hj,hji,rfl⟩ := List.mem_eraseIdx_iff_getElem.mp hg'
  obtain ⟨hi,rfl⟩ := List.getElem?_eq_some_iff.mp hg
  refine ⟨List.getElem_mem hj,fun he => hji ?_⟩
  have hmap : (gs.map Generation.taskId).get ⟨j,by simpa using hj⟩ =
      (gs.map Generation.taskId).get ⟨i,by simpa using hi⟩ := by simpa using he
  exact congrArg Fin.val (hnodup.get_inj_iff.mp hmap)

/-- A move that leaves sessions, branches and tasks. -/
theorem Flying.aside (h : Flying s) {r : CueBeeRuntime S} (hm : r.sessions = s.runtime.sessions)
    (hb : r.branches = s.runtime.branches) (hq : r.scheduler = s.runtime.scheduler) :
    Stepped s { s with runtime := r } :=
  .quiet r ((Since.refl h.inOrder).congr hm hb hq)
    (fun g hg => (h.inFlight g hg).congr (by rw [hb]) hq) (fun _ task ht => ⟨task,hq ▸ ht⟩)

theorem stepped_handleEvent (h : Flying s) (event : STTEvent) :
    Stepped s (step c (.handleEvent event) s) := by
  refine .quiet _ (since_handleEvent event _ (.refl h.inOrder))
    (fun g hg => inFlight_handleEvent event h.inOrder (h.inFlight g hg))
    (noNewTask_of_absent (fun id hnone => ?_))
  exact (tasks_handleEvent VersionDeadlineScheduler.absent_cancel event s.runtime
    ⟨h.inOrder.tasksNamed,hnone⟩).2

theorem stepped_submitTask (h : Flying s) (a : Submission) :
    Stepped s (step c (.submitTask a) s) := by
  have hsince := since_submitTask (c := c) a _ (.refl h.inOrder)
  have hfly : ∀ g ∈ s.generations, InFlight (after (submitTask c a) s.runtime) g.flight :=
    fun g hg => inFlight_submitTask a h.inOrder (h.inFlight g hg)
  cases CueBeeRuntime.submitted c a h.inOrder with
  | unknownSession hget hrun | branchExists session branch hget hbranch hrun =>
    simp only [step,hrun]
    exact h.aside rfl rfl rfl
  | abandoned session e tokens next hget hnew hfail he hadded htasks hrun
  | refused session e next hget hnew hadded htasks hrun =>
    rw [after_error hrun] at hsince hfly
    simp only [step,hrun]
    exact .quiet _ hsince hfly (fun id task ht => ⟨task,htasks ▸ ht⟩)
  | accepted session promptTokens deadline next hget hnew hencode hadded hdeadline htasks hrun =>
    rw [after_ok hrun] at hsince hfly
    simp only [step,hrun]
    rw [current_of_some hget]
    exact .submitted a session deadline _ hsince hfly hget hnew htasks

theorem stepped_swept (h : Flying s) {r : CueBeeRuntime S}
    (heffect : Restatused (popBranch none) (popTask s.runtime.currentVersions none)
      (fun _ => False) s.runtime r) : Stepped s { s with runtime := r } := by
  have hlast := lasting_popped (fun id hid => by cases hid) heffect
  exact .quiet _ ⟨inOrder_popped h.inOrder heffect,hlast⟩
    (fun g hg => (h.inFlight g hg).popped (fun id hid => by cases hid) heffect.toStatusChange hlast)
    heffect.toStatusChange.noNewTask

theorem Flying.popping (h : Flying s) {task : AnalysisTask PyFloat} {branch : Branch}
    {session : ConversationSession} {r : CueBeeRuntime S}
    (hpop : Popping task branch session s.runtime r) :
    ∀ g ∈ s.generations, InFlight r g.flight := by
  intro g hg
  refine (h.inFlight g hg).popped (fun id hid => ?_) hpop.effect.toStatusChange hpop.lasting
  cases hid
  obtain ⟨before,hget,hq,-⟩ := hpop.source
  exact ⟨before,hget,hq⟩

theorem stepped_start (h : Flying s) (now : PyFloat) : Stepped s (step c (.start now) s) := by
  cases started c now h.inOrder with
  | overflow next heffect hrun | idle next heffect hrun =>
    simp only [step,hrun]
    exact stepped_swept h heffect
  | unencodable task branch session next hpop hencode hrun =>
    simp only [step,hrun]
    exact .quiet _ (hpop.since h.inOrder) (h.popping hpop) hpop.effect.toStatusChange.noNewTask
  | started task branch session promptTokens next hpop hencode hrun =>
    simp only [step,hrun]
    rw [current_of_some hpop.session]
    exact .started task branch session promptTokens _ (hpop.since h.inOrder) (h.popping hpop) hpop

theorem stepped_shedLoad (h : Flying s) (targetActive : ℤ) :
    Stepped s (step c (.shedLoad targetActive) s) := by
  refine .quiet _ (since_shedLoad targetActive _ (.refl h.inOrder))
    (fun g hg => inFlight_shedLoad targetActive h.inOrder (h.inFlight g hg))
    (noNewTask_of_absent (fun id hnone => ?_))
  exact (tasks_shedLoad VersionDeadlineScheduler.absent_shedLoad targetActive s.runtime
    ⟨h.inOrder.tasksNamed,hnone⟩).2

theorem stepped_finish (h : Flying s) (i : ℕ) (result : EngineResult) :
    Stepped s (step c (.finish i result) s) := by
  cases hg : s.generations[i]? with
  | none =>
    simp only [step,hg]
    exact h.aside rfl rfl rfl
  | some g =>
    have hf := h.inFlight g (List.mem_of_getElem? hg)
    obtain ⟨task,ht,-⟩ := hf.task
    have hothers : ∀ g' ∈ s.generations.eraseIdx i, InFlight s.runtime g'.flight ∧
        g'.flight.task.taskId ≠ g.flight.task.taskId := by
      intro g' hg'
      obtain ⟨hin,hne⟩ := mem_eraseIdx_ne h.distinct hg hg'
      exact ⟨h.inFlight g' hin,hne⟩
    cases finished h.inOrder hf result with
    | allowed branch session next hbranch hrunning hsession hallow heffect hrun =>
      have hsince := since_allowed h.inOrder hf hbranch hrunning heffect
      simp only [step,hg,hrun]
      refine .finished i g result _ next hsince hg (fun g' hg' => ?_)
        heffect.toStatusChange.noNewTask hrun rfl ?_
      · exact (hothers g' hg').1.completed hf (hothers g' hg').2 heffect.toStatusChange
          hsince.lasting
      · refine ⟨_,by rw [heffect.tasks,ht]; rfl,?_⟩
        rw [completeTask,if_pos rfl]
        exact ⟨rfl,fun _ => rfl⟩
    | refused branch session reason next hbranch hsession hrefuse heffect hrun =>
      have hsince := since_refused h.inOrder hf heffect
      simp only [step,hg,hrun]
      refine .finished i g result _ next hsince hg (fun g' hg' => ?_)
        heffect.toStatusChange.noNewTask hrun rfl ?_
      · exact (hothers g' hg').1.cancelled hf (hothers g' hg').2 heffect.toStatusChange
          hsince.lasting
      · refine ⟨_,by rw [heffect.tasks,ht]; rfl,?_,fun ha => absurd ha hrefuse⟩
        rw [dropTask,if_pos rfl]
        exact task.stop_inactive (by decide) reason

theorem stepped (h : Flying s) (move : Move S) : Stepped s (step c move s) := by
  cases move with
  | handleEvent event => exact stepped_handleEvent h event
  | submitTask a => exact stepped_submitTask h a
  | shedLoad targetActive => exact stepped_shedLoad h targetActive
  | start now => exact stepped_start h now
  | finish i result => exact stepped_finish h i result
  | setGpuLoad load | engine state => exact h.aside rfl rfl rfl

theorem Stepped.since (hs : Stepped s next) : Since s.runtime next.runtime := by
  cases hs with
  | quiet r hsince hfly hold => exact hsince
  | submitted a session deadline r hsince hfly hget hnew htasks => exact hsince
  | started task branch session promptTokens r hsince hfly hpop => exact hsince
  | finished i g result outcome r hsince hg hfly hold hrun hid hend => exact hsince

theorem Stepped.flying (h : Flying s) (hs : Stepped s next) : Flying next := by
  cases hs with
  | quiet r hsince hfly hold => exact ⟨hsince.inOrder,hfly,h.distinct⟩
  | submitted a session deadline r hsince hfly hget hnew htasks =>
    exact ⟨hsince.inOrder,hfly,h.distinct⟩
  | started task branch session promptTokens r hsince hfly hpop =>
    refine ⟨hsince.inOrder,fun g hg => ?_,?_⟩
    · rcases List.mem_append.mp hg with hg | hg
      · exact hfly g hg
      · rw [List.mem_singleton.mp hg]
        exact hpop.inFlight _
    · -- the popped task was queued, and no task in flight is
      rw [List.map_append,List.nodup_append]
      refine ⟨h.distinct,List.nodup_singleton _,fun id hid other hother he => ?_⟩
      obtain ⟨g,hg,rfl⟩ := List.mem_map.mp hid
      rw [List.map_singleton,List.mem_singleton] at hother
      obtain ⟨before,hget,hq,-⟩ := hpop.source
      have htask : g.flight.task.taskId = task.taskId := he.trans hother
      rw [← htask] at hget
      exact (h.inFlight g hg).not_queued hget hq
  | finished i g result outcome r hsince hg hfly hold hrun hid hend =>
    exact ⟨hsince.inOrder,hfly,((List.eraseIdx_sublist _ _).map _).nodup h.distinct⟩

theorem keeps_flying (move : Move S) : Keeps Flying (act c move) :=
  fun _ h => (stepped h move).flying h

theorem flying_run (moves : List (Move S)) (h : Flying s) : Flying (runAll (act c) moves s) :=
  runAll_keeps keeps_flying moves h

theorem lasting_run (moves : List (Move S)) (h : Flying s) :
    Lasting s.runtime (runAll (act c) moves s).runtime := by
  refine runAll_relates (R := fun s t => Lasting s.runtime t.runtime) (fun s => .refl s.runtime)
    ?_ keeps_flying (fun move _ hs => (stepped hs move).since.lasting) moves h
  intro a b d hab hbd
  exact Lasting.trans hab hbd

/-- No submission of a kind that requires the current version overflows behind its fork. -/
def SafeMove : Move S → LiveRuntime S → Prop
  | .submitTask a, s => DeadlineFits (.submitTask a) s.runtime
  | _, _ => True

/-- With a total tokenizer and an engine that never raises, the invariant of the runtime holds
again after a safe move. -/
theorem inv_step (htok : c.tokenizer.Total) (hengine : c.engine.NeverRaises) (h : Flying s)
    (hinv : Inv s.runtime) {move : Move S} (hsafe : SafeMove move s) :
    Inv (step c move s).runtime := by
  cases move with
  | handleEvent event => exact keeps_handleEvent hengine event s.runtime hinv
  | submitTask a =>
    have hfits : DeadlineFits (.submitTask a) s.runtime := hsafe
    have hnext := inv_submitTask hinv (hfits.safeCall htok)
    cases hx : submitTask c a s.runtime with
    | ok task r | error e r =>
      simp only [after,hx] at hnext
      simpa only [step,hx] using hnext
  | shedLoad targetActive => exact keeps_shedLoad targetActive s.runtime hinv
  | setGpuLoad load | engine state => exact hinv
  | start now =>
    cases started c now h.inOrder with
    | overflow r heffect hrun | idle r heffect hrun =>
      simp only [step,hrun]
      exact inv_popped hinv (fun id hid => by cases hid) heffect
    | unencodable task branch session r hpop hencode hrun
    | started task branch session promptTokens r hpop hencode hrun =>
      simp only [step,hrun]
      exact hpop.inv hinv
  | finish i result =>
    cases hg : s.generations[i]? with
    | none => simpa only [step,hg] using hinv
    | some g =>
      obtain ⟨o,r,hrun,hnext,-⟩ :=
        finishNext_ok hinv (h.inFlight g (List.mem_of_getElem? hg)) result
      simpa only [step,hg,hrun] using hnext

theorem inv_run (htok : c.tokenizer.Total) (hengine : c.engine.NeverRaises)
    {moves : List (Move S)} (h : Flying s) (hinv : Inv s.runtime)
    (hsafe : RunMeets (act c) SafeMove moves s) : Inv (runAll (act c) moves s).runtime := by
  refine (hsafe.keeps (I := fun t => Flying t ∧ Inv t.runtime) (fun move t ht hmove => ?_)
    ⟨h,hinv⟩).2
  exact ⟨keeps_flying move t ht.1,inv_step htok hengine ht.1 ht.2 hmove⟩

end LiveRuntime
end CueBee.Runtime
