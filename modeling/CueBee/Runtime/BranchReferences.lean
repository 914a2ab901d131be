import CueBee.Cache.ReferenceCounts
import CueBee.Runtime.RuntimeRuns
import CueBee.Runtime.StatusProgress

/-! # Branches that keep references

Every method that ends a task releases its branch, except `pop_next`: a queued task whose
session has moved on is cancelled by the scheduler, which does not know the branch graph. And
`submit_task` gives up on a deadline too large for a float when the branch exists already.
-/
namespace CueBee.Runtime
open Cache Transcript Raising VersionedKVManager PyStr
open VersionDeadlineScheduler (staleBase cancelStale)

namespace CueBeeRuntime
variable {S : Type} {c : Services S} {r next : CueBeeRuntime S}

/-- Each entry of the cache's branch table belongs to a task that is queued or running. -/
def Tracked (r : CueBeeRuntime S) : Prop :=
  ∀ id, r.kv.view.branches id ≠ none → ∃ j task, id = branchIdOf j ∧
    r.scheduler.tasks.get? j = some task ∧ task.status.active = true

/-- At `run_next`, no queued task waits for a session that has moved on; at `submit_task`, the
deadline is not too large for a float, or the submission is refused before it is computed. -/
def Tidy : Call → CueBeeRuntime S → Prop
  | .runNext _, r => ∀ j task, r.scheduler.tasks.get? j = some task →
      staleBase r.currentVersions task = false
  | .submitTask a, r => a.deadlineMs.natAbs < PyFloat.intLimit ∨
      r.sessions.sessions.get? a.sessionId = none ∨
      r.branches.branches.get? (branchIdOf (resolvedTaskId a)) ≠ none
  | _, _ => True

theorem tidy_runNext {now : PyFloat}
    (h : ∀ task ∈ r.scheduler.tasks.values, staleBase r.currentVersions task = false) :
    Tidy (.runNext now) r :=
  fun j task ht => h task ((Dict.mem_values_iff _ _).mpr ⟨j,ht⟩)

theorem Tidy.deadlineFits {call : Call} (h : Tidy call r) : DeadlineFits call r := by
  cases call with
  | submitTask a => exact fun _ => h
  | handleEvent _ | runNext _ | shedLoad _ | setGpuLoad _ => trivial

section StatusChanges
variable {fb : BranchId → Branch → Branch} {ft : TaskId → AnalysisTask PyFloat → AnalysisTask PyFloat}
  {released : BranchId → Prop}

/-- Statuses may change as long as a task that ends has its branch released. -/
theorem Tracked.statusChange (h : Tracked r) (hc : StatusChange fb ft released r next)
    (hft : ∀ j t, r.scheduler.tasks.get? j = some t → ¬released (branchIdOf j) →
      t.status.active = true → (ft j t).status.active = true) : Tracked next := by
  intro id hid
  have hkeep : ¬released id := fun hr => hid (hc.dropped id hr)
  rw [hc.kept id hkeep] at hid
  obtain ⟨j,task,rfl,ht,ha⟩ := h id hid
  exact ⟨j,ft j task,rfl,by rw [hc.tasks,ht]; rfl,hft j task ht hkeep ha⟩

end StatusChanges

theorem tracked_revised {event : STTEvent} {diff : TranscriptDiff} (h : Tracked r)
    (hc : Revised event diff r next) : Tracked next := by
  refine h.statusChange hc (fun j t _ hnot ha => ?_)
  unfold reviseTask
  rw [if_neg hnot]
  exact ha

theorem tracked_handleEvent (hengine : c.engine.NeverRaises) (event : STTEvent) (hinv : Inv r)
    (h : Tracked r) : Tracked (after (handleEvent c event) r) := by
  cases handled c event r with
  | dropped a hnorm hrun =>
    rw [after_ok hrun]
    exact h
  | rejected e a error m hnorm happly hrun =>
    rw [after_error hrun]
    exact h
  | accepted e a diff m hnorm happly hrun =>
    obtain ⟨-,session,hacc,hinst⟩ := SessionManager.apply_ok happly
    obtain ⟨outcome,next,hafter,-,hrevised,-⟩ := afterApply_ok
      (r := { r with revisions := a, sessions := m }) hengine hinv hacc hinst
    rw [after_ok (hrun.trans hafter)]
    have hmid : Tracked { r with revisions := a, sessions := m } := h
    exact tracked_revised hmid hrevised

theorem tracked_submitTask (htok : c.tokenizer.Total) (a : Submission) (hinv : Inv r)
    (h : Tracked r) (htidy : Tidy (.submitTask a) r) : Tracked (after (submitTask c a) r) := by
  cases submitted c a hinv.inOrder with
  | unknownSession hget hrun =>
    rw [after_error hrun]
    exact h
  | branchExists session branch hget hbranch hrun =>
    rw [after_error hrun]
    exact h
  | abandoned session e tokens next hget hnew hfail he hadded htasks hrun =>
    rcases htidy with hd | hs | hb
    · exact absurd ⟨htok _,deadlineAt_ne_none.mpr hd⟩ hfail
    · rw [hget] at hs
      cases hs
    · exact absurd hnew hb
  | refused session e next hget hnew hadded htasks hrun =>
    rw [after_error hrun]
    intro id hid
    by_cases he : id = branchIdOf (resolvedTaskId a)
    · exact absurd (he ▸ hadded.references_self) hid
    · rw [hadded.references_ne he] at hid
      rw [htasks]
      exact h id hid
  | accepted session promptTokens deadline next hget hnew hencode hadded hdeadline htasks hrun =>
    rw [after_ok hrun]
    intro id hid
    by_cases he : id = branchIdOf (resolvedTaskId a)
    · refine ⟨_,newTask a session (submittedBranch a session) deadline,he,?_,rfl⟩
      rw [htasks,VersionDeadlineScheduler.get?_store,taskId_newTask,if_pos rfl]
    · rw [hadded.references_ne he] at hid
      obtain ⟨j,task,rfl,ht,ha⟩ := h id hid
      exact ⟨j,task,rfl,tasks_kept (hinv.inOrder.unscheduled hnew) htasks j task ht,ha⟩

/-- Popping keeps the branches tracked if no queued task is stale. -/
theorem tracked_popped {popped : Option TaskId} (h : Tracked r)
    (hnone : ∀ j task, r.scheduler.tasks.get? j = some task →
      staleBase r.currentVersions task = false)
    (heffect : Restatused (popBranch popped) (popTask r.currentVersions popped) (fun _ => False)
      r next) : Tracked next := by
  refine h.statusChange heffect.toStatusChange (fun j t ht _ ha => ?_)
  unfold popTask
  split
  · rfl
  · unfold cancelStale
    rw [hnone j t ht,if_neg (by simp)]
    exact ha

theorem tracked_finishNext {flight : Flight} (hf : InFlight r flight) (hinv : Inv r) (h : Tracked r)
    (result : EngineResult) : Tracked (after (finishNext flight result) r) := by
  have hother : ∀ {j : TaskId}, branchIdOf j ≠ flight.branchId → j ≠ flight.task.taskId := by
    rintro j hne rfl
    exact hne hf.branchId.symm
  cases finished hinv.inOrder hf result with
  | allowed branch session next hbranch hrunning hsession hallow heffect hrun =>
    rw [after_ok hrun]
    refine h.statusChange heffect.toStatusChange (fun j t ht hnot ha => ?_)
    rw [completeTask,if_neg (hother hnot)]
    exact ha
  | refused branch session reason next hbranch hsession hrefuse heffect hrun =>
    rw [after_ok hrun]
    refine h.statusChange heffect.toStatusChange (fun j t ht hnot ha => ?_)
    rw [dropTask,if_neg (hother hnot)]
    exact ha

theorem tracked_runNext (hengine : c.engine.NeverRaises) (now : PyFloat) (hinv : Inv r) (h : Tracked r)
    (hnone : Tidy (.runNext now) r) : Tracked (after (runNext c now) r) := by
  cases started c now hinv.inOrder with
  | overflow next heffect hrun =>
    have hraise : runNext c now r = .error (.scheduler .overflow) next := bind_error hrun
    rw [after_error hraise]
    exact tracked_popped h hnone heffect
  | idle next heffect hrun =>
    have hidle : runNext c now r = .ok none next := bind_ok hrun
    rw [after_ok hidle]
    exact tracked_popped h hnone heffect
  | unencodable task branch session next hpop hencode hrun =>
    have hraise : runNext c now r = .error .encode next := bind_error hrun
    rw [after_error hraise]
    exact tracked_popped h hnone hpop.effect
  | started task branch session promptTokens next hpop hencode hrun =>
    obtain ⟨result,e,hflight,hdone⟩ := (hpop.inFlight _).answered hengine hrun
    have hnext : Tracked next := tracked_popped h hnone hpop.effect
    have hmid : Tracked { next with engine := e } := hnext
    have hkept : Inv { next with engine := e } := hpop.inv hinv
    have hfin := tracked_finishNext hflight hkept hmid result
    obtain ⟨outcome,last,hlast,-⟩ := finishNext_ok hkept hflight result
    rw [after_ok hlast] at hfin
    rw [after_ok (hdone outcome last hlast)]
    exact hfin

theorem tracked_shedLoad (targetActive : ℤ) (hinv : Inv r) (h : Tracked r) :
    Tracked (after (shedLoad targetActive) r) := by
  cases loadShed hinv.inOrder targetActive with
  | negative htarget hrun =>
    rw [after_error hrun]
    exact h
  | shed dropped next hqueued heffect hrun =>
    rw [after_ok hrun]
    refine h.statusChange heffect.toStatusChange (fun j t ht hnot ha => ?_)
    have hj : j ∉ dropped := fun hj => hnot (List.mem_map.mpr ⟨j,hj,rfl⟩)
    rw [shedTasks,if_neg hj]
    exact ha

theorem tracked_exec (htok : c.tokenizer.Total) (hengine : c.engine.NeverRaises) (call : Call)
    (r : CueBeeRuntime S) (hinv : Inv r) (h : Tracked r) (htidy : Tidy call r) :
    Tracked (after (exec c call) r) := by
  cases call with
  | handleEvent event =>
    rw [exec,after_discard]
    exact tracked_handleEvent hengine event hinv h
  | submitTask a =>
    rw [exec,after_discard]
    exact tracked_submitTask htok a hinv h htidy
  | runNext now =>
    rw [exec,after_discard]
    exact tracked_runNext hengine now hinv h htidy
  | shedLoad targetActive =>
    rw [exec,after_discard]
    exact tracked_shedLoad targetActive hinv h
  | setGpuLoad load => exact h

/-- Every entry of the branch table has a queued or running task; without such a task, every
live block has one reference, and that belongs to a session. -/
structure NoLeaks (r : CueBeeRuntime S) : Prop where
  tracked : ∀ id refs, r.kv.branches.get? id = some refs → ∃ j task, id = branchIdOf j ∧
    r.scheduler.tasks.get? j = some task ∧ (task.status = .queued ∨ task.status = .running)
  baseline : (∀ j task, r.scheduler.tasks.get? j = some task → task.status ≠ .queued ∧
      task.status ≠ .running) →
    ∀ b block, r.kv.pool.blocks.get? b = some block → block.refCount = 1 ∧
      ∃ s, b ∈ (r.kv.sessionRefs s).map KVRef.physicalBlockId

theorem active_iff (status : TaskStatus) :
    status.active = true ↔ status = .queued ∨ status = .running := by
  cases status <;> simp [TaskStatus.active]

theorem allRefs_of_no_branch {m : VersionedKVManager} (h : ∀ id, m.branches.get? id = none) :
    m.allRefs = m.sessions.values.flatten := by
  have hnil : m.branches.values = [] := by
    refine List.eq_nil_iff_forall_not_mem.mpr (fun refs hrefs => ?_)
    obtain ⟨id,hid⟩ := (Dict.mem_values_iff _ _).mp hrefs
    rw [h id] at hid
    cases hid
  rw [allRefs,hnil]
  simp

theorem Tracked.noLeaks (hinv : Inv r) (h : Tracked r) : NoLeaks r := by
  have hsound : r.kv.Sound := hinv.sound
  have htracked : ∀ id refs, r.kv.branches.get? id = some refs → ∃ j task, id = branchIdOf j ∧
      r.scheduler.tasks.get? j = some task ∧ (task.status = .queued ∨ task.status = .running) := by
    intro id refs hrefs
    have hne : r.kv.view.branches id ≠ none := by
      show (r.kv.branches.get? id).map _ ≠ none
      rw [hrefs]
      simp
    obtain ⟨j,task,hj,ht,ha⟩ := h id hne
    exact ⟨j,task,hj,ht,(active_iff _).mp ha⟩
  refine ⟨htracked,fun hidle b block hb => ?_⟩
  have hnone : ∀ id, r.kv.branches.get? id = none := by
    intro id
    cases hid : r.kv.branches.get? id with
    | none => rfl
    | some refs =>
      obtain ⟨j,task,-,ht,hactive⟩ := htracked id refs hid
      obtain ⟨hq,hr⟩ := hidle j task ht
      rcases hactive with ha | ha
      · exact absurd ha hq
      · exact absurd ha hr
  have hexact := hsound.exactCounts
  obtain ⟨hcount,hpos⟩ := hexact.counted b block hb
  rw [allRefs_of_no_branch hnone] at hcount
  have hone := List.nodup_iff_count_le_one.mp hexact.unshared b
  refine ⟨by omega,?_⟩
  -- the one reference is in the list of a session
  have hmem := List.count_pos_iff.mp (hcount ▸ hpos)
  obtain ⟨ref,href,hid⟩ := List.mem_map.mp hmem
  obtain ⟨refs,hrefs,hin⟩ := List.mem_flatten.mp href
  obtain ⟨s,hs⟩ := (Dict.mem_values_iff _ _).mp hrefs
  refine ⟨s,List.mem_map.mpr ⟨ref,?_,hid⟩⟩
  rw [sessionRefs,hs]
  exact hin

end CueBeeRuntime
open CueBeeRuntime

/-- If `pop_next` never finds a stale task and no deadline overflows behind a fork, no branch keeps
references without its task. -/
theorem no_leaked_references {S : Type} (c : Services S) (htok : c.tokenizer.Total)
    (hengine : c.engine.NeverRaises) (blockSize : ℕ) (hblock : 0 < blockSize) (admissionCap : ℕ)
    (hcap : 0 < admissionCap) (e : S) (calls : List Call)
    (htidy : RunMeets (exec c) Tidy calls (init blockSize hblock admissionCap hcap e)) :
    NoLeaks (runAll (exec c) calls (init blockSize hblock admissionCap hcap e)) := by
  have hstep : ∀ call r, (Inv r ∧ Tracked r) → Tidy call r →
      Inv (after (exec c call) r) ∧ Tracked (after (exec c call) r) :=
    fun call r hr hcall => ⟨inv_exec hengine call r hr.1 (hcall.deadlineFits.safeCall htok),
      tracked_exec htok hengine call r hr.1 hr.2 hcall⟩
  have hinit : Tracked (init blockSize hblock admissionCap hcap e) := fun id hid => absurd rfl hid
  obtain ⟨hinv,htracked⟩ := htidy.keeps hstep
    ⟨inv_init blockSize hblock admissionCap hcap e,hinit⟩
  exact htracked.noLeaks hinv

/-- A hint runs to its end, and nothing of it is left in the cache. -/
theorem no_leaked_references_hint :
    let calls : List Call := [
      .handleEvent (heard "g" 0 .appendPartial "one" (by decide) (by decide)),
      .submitTask (asked "t" .proactiveHint (lit "why")),.runNext (.fin 1)]
    let r := runAll (exec (quietServices lenientTokenizer)) calls (init 4 (by decide) 8 (by decide) ())
    NoLeaks r ∧ r.kv.branches.size = 0 ∧ r.kv.pool.blocks.size = 0 := by
  intro calls r
  have htidy : RunMeets (exec (quietServices lenientTokenizer)) Tidy calls
      (init 4 (by decide) 8 (by decide) ()) := by
    refine ⟨trivial,.inl (by decide +kernel),tidy_runNext ?_,trivial⟩
    decide +kernel
  refine ⟨?_,by decide +kernel,by decide +kernel⟩
  exact no_leaked_references (quietServices lenientTokenizer) lenientTokenizer_total
    quietEngine_neverRaises 4 (by decide) 8 (by decide) () calls htidy

/-- A hint is queued, a second segment is rejected, and `run_next` cancels the hint. -/
theorem stale_hint_leaks :
    let calls : List Call := [
      .handleEvent (heard "g" 0 .appendPartial "one" (by decide) (by decide)),
      .submitTask (asked "t" .proactiveHint (lit "why")),
      .handleEvent (heard "h" 0 .appendPartial "two" (by decide) (by decide)),.runNext (.fin 1)]
    let r := runAll (exec (quietServices lenientTokenizer)) calls (init 4 (by decide) 8 (by decide) ())
    (r.scheduler.tasks.get? (lit "t")).map AnalysisTask.status = some .cancelled ∧
    (r.kv.branches.get? (branchIdOf (lit "t"))).isSome = true ∧ ¬NoLeaks r := by
  intro calls r
  have hstatus : (r.scheduler.tasks.get? (lit "t")).map AnalysisTask.status = some .cancelled := by
    decide +kernel
  have hheld : (r.kv.branches.get? (branchIdOf (lit "t"))).isSome = true := by decide +kernel
  refine ⟨hstatus,hheld,fun h => ?_⟩
  obtain ⟨refs,hrefs⟩ := Option.isSome_iff_exists.mp hheld
  obtain ⟨j,task,hj,ht,hactive⟩ := h.tracked _ refs hrefs
  rw [← branchIdOf_injective hj] at ht
  rw [ht,Option.map_some,Option.some.injEq] at hstatus
  rcases hactive with ha | ha <;> rw [hstatus] at ha <;> cases ha

end CueBee.Runtime
