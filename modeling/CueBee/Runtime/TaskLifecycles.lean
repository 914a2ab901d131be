import CueBee.Runtime.MoveEffects

/-! # Tasks and branches agree

The statuses of a task and of its branch move together through every interleaving without a
submission that is abandoned behind its fork, the second half of `run_next` always returns, and
every task has one outcome at most.
-/
namespace CueBee.Runtime
open Cache Transcript Raising VersionedKVManager PyStr CueBeeRuntime

namespace LiveRuntime
variable {S : Type} {c : Services S} {s next : LiveRuntime S}

/-- Every task is in flight at most once, and never after its outcome. -/
structure OnceOnly (s : LiveRuntime S) : Prop where
  distinct : (s.generations.map Generation.taskId ++ s.outcomes.map TaskOutcome.taskId).Nodup
  ended : ∀ o ∈ s.outcomes, Ended o s.runtime

theorem onceOnly_init (blockSize : ℕ) (hblock : 0 < blockSize) (admissionCap : ℕ)
    (hcap : 0 < admissionCap) (e : S) : OnceOnly (init blockSize hblock admissionCap hcap e) where
  distinct := List.nodup_nil
  ended o ho := by cases ho

theorem Ended.lasting {o : TaskOutcome} {r r' : CueBeeRuntime S} (h : Ended o r)
    (hlast : Lasting r r') : Ended o r' := by
  obtain ⟨task,ht,hend,hallow⟩ := h
  obtain ⟨task',ht',hs⟩ := hlast.task_final ht hend
  exact ⟨task',ht',by rw [hs]; exact hend,fun ha => hs.trans (hallow ha)⟩

theorem perm_eraseIdx {α : Type} {xs : List α} {i : ℕ} {x : α} (h : xs[i]? = some x) :
    xs.Perm (x :: xs.eraseIdx i) := by
  obtain ⟨hi,rfl⟩ := List.getElem?_eq_some_iff.mp h
  exact (List.getElem_cons_eraseIdx_perm hi).symm

theorem Stepped.onceOnly (h : OnceOnly s) (hf : Flying s) (hs : Stepped s next) : OnceOnly next := by
  cases hs with
  | quiet r hsince hfly hold =>
    exact ⟨h.distinct,fun o ho => (h.ended o ho).lasting hsince.lasting⟩
  | submitted a session deadline r hsince hfly hget hnew htasks =>
    exact ⟨h.distinct,fun o ho => (h.ended o ho).lasting hsince.lasting⟩
  | started task branch session promptTokens r hsince hfly hpop =>
    refine ⟨?_,fun o ho => (h.ended o ho).lasting hsince.lasting⟩
    -- the popped task was queued: it is neither in flight nor has it an outcome
    obtain ⟨before,hget,hq,-⟩ := hpop.source
    have hfresh : task.taskId ∉
        s.generations.map Generation.taskId ++ s.outcomes.map TaskOutcome.taskId := by
      intro hmem
      rcases List.mem_append.mp hmem with hmem | hmem
      · obtain ⟨g,hg,hid⟩ := List.mem_map.mp hmem
        have hid' : g.flight.task.taskId = task.taskId := hid
        rw [← hid'] at hget
        exact (hf.inFlight g hg).not_queued hget hq
      · obtain ⟨o,ho,hid⟩ := List.mem_map.mp hmem
        obtain ⟨task',ht',hend,-⟩ := h.ended o ho
        rw [hid,hget,Option.some.injEq] at ht'
        subst ht'
        rw [hq] at hend
        cases hend
    have hperm : ((s.generations.map Generation.taskId ++ [task.taskId]) ++
        s.outcomes.map TaskOutcome.taskId).Perm (task.taskId ::
        (s.generations.map Generation.taskId ++ s.outcomes.map TaskOutcome.taskId)) := by
      rw [List.append_assoc]
      exact List.perm_middle
    show ((s.generations ++ [_]).map Generation.taskId ++ _).Nodup
    rw [List.map_append]
    exact hperm.nodup_iff.mpr (List.nodup_cons.mpr ⟨hfresh,h.distinct⟩)
  | finished i g result outcome r hsince hg hfly hold hrun hid hend =>
    refine ⟨?_,fun o ho => ?_⟩
    · have hperm := (perm_eraseIdx hg).map Generation.taskId
      rw [List.map_cons,← hid] at hperm
      show ((s.generations.eraseIdx i).map Generation.taskId ++
        (s.outcomes ++ [outcome]).map TaskOutcome.taskId).Nodup
      have hall : ((s.generations.eraseIdx i).map Generation.taskId ++
          (s.outcomes ++ [outcome]).map TaskOutcome.taskId).Perm
          (s.generations.map Generation.taskId ++ s.outcomes.map TaskOutcome.taskId) := by
        rw [List.map_append,List.map_singleton,← List.append_assoc]
        refine (List.perm_append_singleton _ _).trans ?_
        exact (hperm.append_right _).symm
      exact hall.nodup_iff.mpr h.distinct
    · rcases List.mem_append.mp ho with ho | ho
      · exact (h.ended o ho).lasting hsince.lasting
      · rw [List.mem_singleton.mp ho]
        exact hend

theorem onceOnly_run (moves : List (Move S)) (hf : Flying s) (h : OnceOnly s) :
    OnceOnly (runAll (act c) moves s) := by
  have hstep : ∀ move, Keeps (fun s => Flying s ∧ OnceOnly s) (act c move) := by
    intro move t ht
    have hs := stepped (c := c) ht.1 move
    exact ⟨hs.flying ht.1,hs.onceOnly ht.2 ht.1⟩
  exact (runAll_keeps hstep moves ⟨hf,h⟩).2

/-- The two status machines are in step. -/
structure InStep (r : CueBeeRuntime S) (id : TaskId) (task : AnalysisTask PyFloat) : Prop where
  branch : ∃ branch, r.branches.branches.get? (branchIdOf id) = some branch ∧
    (task.status = .queued → branch.status = .queued) ∧
    (task.status = .running → branch.status = .running) ∧
    (task.status = .completed → branch.status = .completed ∧
      r.kv.branches.get? (branchIdOf id) = none)

theorem inStep {r : CueBeeRuntime S} (h : Inv r) {id : TaskId} {task : AnalysisTask PyFloat}
    (ht : r.scheduler.tasks.get? id = some task) : InStep r id task := by
  obtain ⟨b,hb,hp⟩ := h.paired id task ht
  refine ⟨b,hb,hp.statuses.queued,hp.statuses.running.mp,fun hc => ⟨hp.statuses.completed.mp hc,?_⟩⟩
  -- only active branches hold references
  cases hkv : r.kv.branches.get? (branchIdOf id) with
  | none => rfl
  | some refs =>
    have hne : r.branches.kv.view.branches (branchIdOf id) ≠ none := by
      show (r.kv.branches.get? (branchIdOf id)).map _ ≠ none
      rw [hkv]
      simp
    obtain ⟨b',hb',ha⟩ := h.held _ hne
    rw [hb,Option.some.injEq] at hb'
    subst hb'
    rw [hp.statuses.completed.mp hc] at ha
    cases ha

/-- What the two halves of `run_next` and `shed_load` call returns, except for a score of
`pop_next` that overflows. -/
structure NoFailures (c : Services S) (s : LiveRuntime S) : Prop where
  start : ∀ now error next, startNext c now s.runtime = .error error next →
    error = .scheduler .overflow
  finish : ∀ g ∈ s.generations, ∀ result, ∃ o next,
    finishNext g.flight result s.runtime = .ok o next
  shed : ∀ targetActive error next,
    CueBeeRuntime.shedLoad targetActive s.runtime = .error error next →
    targetActive < 0 ∧ error = .scheduler .negativeTarget

theorem noFailures (htok : c.tokenizer.Total) (h : Flying s) (hinv : Inv s.runtime) :
    NoFailures c s where
  start now error next hstart := by
    cases started c now h.inOrder with
    | unencodable task branch session next hpop hencode hrun => exact absurd hencode (htok _)
    | overflow next heffect hrun =>
      rw [hrun] at hstart
      cases hstart
      rfl
    | idle next heffect hrun | started task branch session promptTokens next hpop hencode hrun =>
      rw [hrun] at hstart
      cases hstart
  finish g hg result := by
    obtain ⟨o,next,hrun,-⟩ := finishNext_ok hinv (h.inFlight g hg) result
    exact ⟨o,next,hrun⟩
  shed targetActive error next hrun := by
    cases loadShed hinv.inOrder targetActive with
    | negative htarget hrun' =>
      rw [hrun'] at hrun
      cases hrun
      exact ⟨htarget,rfl⟩
    | shed dropped next' hqueued heffect hrun' =>
      rw [hrun'] at hrun
      cases hrun

/-- Neither the task nor its branch has been stopped. -/
structure NotStopped (r : CueBeeRuntime S) (id : TaskId) : Prop where
  task : ∀ task, r.scheduler.tasks.get? id = some task →
    task.status ≠ .cancelled ∧ task.status ≠ .dropped
  branch : ∀ b, r.branches.branches.get? (branchIdOf id) = some b →
    b.status ≠ .cancelled ∧ b.status ≠ .invalidated

/-- A status that is `done` once it is not active is no other status that is not active. -/
theorem ne_of_final {σ : Type} {active : σ → Bool} {status stopped done : σ}
    (hfinal : active status = false → status = done) (hstopped : active stopped = false)
    (hne : stopped ≠ done) : status ≠ stopped := by
  rintro rfl
  exact hne (hfinal hstopped)

theorem notStopped_of_completed {r r' : CueBeeRuntime S} (hinv : Inv r') (hlast : Lasting r r')
    {id : TaskId} {task : AnalysisTask PyFloat} (ht : r'.scheduler.tasks.get? id = some task)
    (hc : task.status = .completed) : NotStopped r id where
  task before hb := by
    have hfinal : before.status.active = false → before.status = .completed := by
      intro ha
      obtain ⟨task',ht',hs⟩ := hlast.task_final hb ha
      rw [ht,Option.some.injEq] at ht'
      subst ht'
      exact hs.symm.trans hc
    constructor
    · exact ne_of_final hfinal rfl (by decide)
    · exact ne_of_final hfinal rfl (by decide)
  branch b hb := by
    obtain ⟨b',hb',hp⟩ := hinv.paired id task ht
    have hdone := hp.statuses.completed.mp hc
    have hfinal : b.status.active = false → b.status = .completed := by
      intro ha
      obtain ⟨b'',hb'',hs⟩ := hlast.branch_final hb ha
      have hb3 : r'.branches.branches.get? (branchIdOf id) = some b' := hb'
      rw [hb3,Option.some.injEq] at hb''
      subst hb''
      exact hs.symm.trans hdone
    constructor
    · exact ne_of_final hfinal rfl (by decide)
    · exact ne_of_final hfinal rfl (by decide)

end LiveRuntime
open LiveRuntime

/-- If no deadline overflows behind the fork of a submission, tasks and branches agree after every
move. -/
theorem lifecycles_agree {S : Type} (c : Services S) (htok : c.tokenizer.Total)
    (hengine : c.engine.NeverRaises) (blockSize : ℕ) (hblock : 0 < blockSize) (admissionCap : ℕ)
    (hcap : 0 < admissionCap) (e : S) (moves : List (Move S))
    (hsafe : RunMeets (act c) SafeMove moves
      (LiveRuntime.init blockSize hblock admissionCap hcap e)) :
    let start := LiveRuntime.init blockSize hblock admissionCap hcap e
    let s := runAll (act c) moves start
    (∀ id task, s.runtime.scheduler.tasks.get? id = some task → InStep s.runtime id task) ∧
    NoFailures c s ∧ (s.outcomes.map TaskOutcome.taskId).Nodup ∧
    ∀ o ∈ s.outcomes, o.decision = .allow → ∀ earlier later, moves = earlier ++ later →
      NotStopped (runAll (act c) earlier start).runtime o.taskId := by
  intro start s
  have hstart : Flying start := flying_init blockSize hblock admissionCap hcap e
  have hf : Flying s := flying_run moves hstart
  have hinv : Inv s.runtime :=
    inv_run htok hengine hstart (inv_init blockSize hblock admissionCap hcap e) hsafe
  have honce : OnceOnly s :=
    onceOnly_run moves hstart (onceOnly_init blockSize hblock admissionCap hcap e)
  refine ⟨fun id task ht => inStep hinv ht,noFailures htok hf hinv,
    (List.nodup_append.mp honce.distinct).2.1,?_⟩
  rintro o ho hallow earlier later rfl
  obtain ⟨task,ht,-,hdone⟩ := honce.ended o ho
  have hlast := lasting_run (c := c) later (flying_run (c := c) earlier hstart)
  rw [← runAll_append] at hlast
  exact notStopped_of_completed hinv hlast ht (hdone hallow)

/-- A revision arrives while a hint is generated: the hint is not shown. -/
theorem lifecycles_agree_revision :
    let moves : List (Move Unit) := [
      .handleEvent (heard "g" 0 .appendPartial "hello" (by decide) (by decide)),
      .submitTask (asked "t" .proactiveHint (lit "why")),.start (.fin 1),
      .handleEvent (heard "g" 1 .revisePartial "help" (by decide) (by decide)),
      .finish 0 ⟨lit "t",[],0,0⟩]
    let s := runAll (act (quietServices lenientTokenizer)) moves
      (LiveRuntime.init 4 (by decide) 8 (by decide) ())
    (∀ id task, s.runtime.scheduler.tasks.get? id = some task → InStep s.runtime id task) ∧
    (s.outcomes.map TaskOutcome.taskId).Nodup ∧ s.outcomes = [⟨lit "t",.restart,none⟩] := by
  intro moves s
  obtain ⟨hstep,-,honce,-⟩ := lifecycles_agree (quietServices lenientTokenizer)
    lenientTokenizer_total quietEngine_neverRaises 4 (by decide) 8 (by decide) () moves
    ⟨trivial,fun _ => .inl (by decide +kernel),trivial,trivial,trivial,trivial⟩
  exact ⟨hstep,honce,by decide +kernel⟩

/-- A hint with a deadline of `10 ^ 400` milliseconds is abandoned, another one is queued, and the
revision that invalidates both branches raises before it cancels the task of the second. -/
theorem endless_hint_splits_statuses :
    let moves : List (Move Unit) := [
      .handleEvent (heard "g" 0 .appendPartial "hello" (by decide) (by decide)),
      .submitTask (askedEndless "t" .proactiveHint (lit "why")),
      .submitTask (asked "u" .proactiveHint (lit "who")),
      .handleEvent (heard "g" 1 .revisePartial "help" (by decide) (by decide))]
    let s := runAll (act (quietServices lenientTokenizer)) moves
      (LiveRuntime.init 4 (by decide) 8 (by decide) ())
    ∃ task, s.runtime.scheduler.tasks.get? (lit "u") = some task ∧
      ¬InStep s.runtime (lit "u") task := by
  intro moves s
  have hqueued : (s.runtime.scheduler.tasks.get? (lit "u")).map AnalysisTask.status =
      some .queued := by decide +kernel
  have hended : (s.runtime.branches.branches.get? (branchIdOf (lit "u"))).map Branch.status =
      some .invalidated := by decide +kernel
  obtain ⟨task,ht,hstatus⟩ := Option.map_eq_some_iff.mp hqueued
  refine ⟨task,ht,fun h => ?_⟩
  obtain ⟨branch,hb,hkeeps,-⟩ := h.branch
  rw [hb,Option.map_some,hkeeps hstatus] at hended
  cases hended

end CueBee.Runtime
