import Mathlib.Tactic.Linarith
import Mathlib.Tactic.Ring
import Mathlib.Algebra.Order.Field.Basic
import Mathlib.Algebra.Order.Field.Rat
import CueBee.Runtime.TaskSelection

/-! # How often a waiting task is passed over

The urgency of a task whose deadline has passed is the greatest there is, and its age grows
with the clock. A task that goes before it has to make up for the difference in age by the
part of its score that does not depend on the clock.
-/
namespace CueBee.Runtime
open Cache Transcript Raising PyStr

namespace AnalysisTask.Moved
variable {task next : AnalysisTask ℚ}

theorem eq_of_queued (h : task.Moved next) (hqueued : next.status = .queued) : next = task := by
  cases h with
  | stays => rfl
  | runs h => cases hqueued
  | completes h => cases hqueued
  | stops h hstatus reason =>
    rcases hstatus with rfl | rfl
    · cases hqueued
    · cases hqueued

end AnalysisTask.Moved

namespace VersionDeadlineScheduler
variable {s next : VersionDeadlineScheduler ℚ} {weights : SchedulerWeights ℚ} {a b : AnalysisTask ℚ}

def urgency (task : AnalysisTask ℚ) (now : ℚ) : ℚ := 1 / max (1 / 1000) (task.deadlineAt - now)

/-- The part of the score that the clock does not enter. -/
def merit (weights : SchedulerWeights ℚ) (task : AnalysisTask ℚ) : ℚ :=
  weights.foreground * (if task.foreground = true then 1 else 0) +
    weights.reuse * task.sharedPrefixTokens - weights.cost * task.estimatedTokens +
    weights.priority * task.priority

theorem exactScore_eq (weights : SchedulerWeights ℚ) (task : AnalysisTask ℚ) (now : ℚ) :
    exactScore weights now task = weights.deadline * urgency task now +
      weights.age * max 0 (now - task.createdAt) + merit weights task := by
  unfold exactScore urgency merit
  ring

theorem urgency_le (task : AnalysisTask ℚ) (now : ℚ) : urgency task now ≤ 1000 := by
  have hslack : (1 / 1000 : ℚ) ≤ max (1 / 1000) (task.deadlineAt - now) := le_max_left _ _
  have hinv := one_div_le_one_div_of_le (by norm_num) hslack
  rwa [one_div_one_div] at hinv

theorem urgency_overdue {now : ℚ} (h : a.deadlineAt ≤ now) : urgency a now = 1000 := by
  have hslack : a.deadlineAt - now ≤ 1 / 1000 := by linarith
  rw [urgency,max_eq_left hslack,one_div_one_div]

/-- `b` makes up for its later creation by its merit. -/
def Overtakes (weights : SchedulerWeights ℚ) (a b : AnalysisTask ℚ) : Prop :=
  weights.age * (b.createdAt - a.createdAt) ≤ merit weights b - merit weights a

instance decidableOvertakes (weights : SchedulerWeights ℚ) (a : AnalysisTask ℚ) :
    DecidablePred (Overtakes weights a) := fun _ => inferInstanceAs (Decidable (_ ≤ _))

theorem overtakes_same {b' : AnalysisTask ℚ} (hsame : SameTask b b') :
    Overtakes weights a b' ↔ Overtakes weights a b := by
  unfold Overtakes merit
  rw [hsame]

/-- A score that is not below the score of an overdue task. -/
theorem overtakes_of_score {now : ℚ} (hage : 0 ≤ weights.age) (hdeadline : 0 ≤ weights.deadline)
    (hoverdue : a.deadlineAt ≤ now) (hcreated : b.createdAt ≤ now)
    (hscore : exactScore weights now a ≤ exactScore weights now b) : Overtakes weights a b := by
  rw [exactScore_eq,exactScore_eq,urgency_overdue hoverdue] at hscore
  have hurgency : weights.deadline * urgency b now ≤ weights.deadline * 1000 :=
    mul_le_mul_of_nonneg_left (urgency_le b now) hdeadline
  have hold : weights.age * (now - a.createdAt) ≤ weights.age * max 0 (now - a.createdAt) :=
    mul_le_mul_of_nonneg_left (le_max_right _ _) hage
  have hyoung : max 0 (now - b.createdAt) = now - b.createdAt := max_eq_right (by linarith)
  rw [hyoung] at hscore
  have hsplit : weights.age * (b.createdAt - a.createdAt) =
      weights.age * (now - a.createdAt) - weights.age * (now - b.createdAt) := by ring
  unfold Overtakes
  linarith

/-- The clock of a `pop_next`: `a` is overdue, and no task is from later. -/
def Timely (a : AnalysisTask ℚ) : Call ℚ → VersionDeadlineScheduler ℚ → Prop
  | .popNext _ now, s =>
    a.deadlineAt ≤ now ∧ ∀ id task, s.tasks.get? id = some task → task.createdAt ≤ now
  | _, _ => True

/-- What is popped while `a` stays in the queue overtakes `a`. -/
theorem popNext_overtakes (h : s.Admitted) (hage : 0 ≤ s.weights.age)
    (hdeadline : 0 ≤ s.weights.deadline) {currentVersions : SessionId → Option ℕ} {now : ℚ}
    (htime : Timely a (.popNext currentVersions now) s) (hqueued : a.status = .queued)
    (hget : s.tasks.get? a.taskId = some a)
    (hstays : (after (exec (.popNext currentVersions now)) s).tasks.get? a.taskId = some a)
    {id : TaskId} (hid : handedOut (outcome (exec (.popNext currentVersions now)) s) = some id) :
    ∃ b, s.tasks.get? id = some b ∧ Overtakes s.weights a b := by
  have hfresh : a ∈ fresh currentVersions s := by
    refine List.mem_filter.mpr ⟨(Dict.mem_values_iff _ _).mpr ⟨_,hget⟩,?_⟩
    by_contra hstale
    have hstale' : staleBase currentVersions a = true := by simpa [hqueued] using hstale
    obtain ⟨task,htask,hcancelled⟩ : ∃ task,
        (after (exec (.popNext currentVersions now)) s).tasks.get? a.taskId = some task ∧
          task.status = .cancelled := stale_step h.named hget hstale'
    rw [hstays,Option.some.injEq] at htask
    rw [← htask,hqueued] at hcancelled
    cases hcancelled
  obtain ⟨choice,next,hrun,-,hbest⟩ := popNext_exact s currentVersions now
  have hexec := map_ok (f := Reply.popped) hrun
  rw [show outcome (exec (.popNext currentVersions now)) s = _ from outcome_ok hexec] at hid
  cases choice with
  | none => cases hid
  | some b =>
    obtain rfl : b.taskId = id := Option.some.inj hid
    have hfirst := hbest b rfl
    have hb : s.tasks.get? b.taskId = some b :=
      h.named.get?_of_mem (List.mem_filter.mp hfirst.mem).1
    exact ⟨b,hb,overtakes_of_score hage hdeadline htime.1 (htime.2 _ b hb) (hfirst.le a hfresh)⟩

theorem handedOut_map {α : Type} {f : α → Reply ℚ} (hf : ∀ v, handedOut (.ok (f v)) = none)
    (o : Except SchedulerError α) : handedOut (o.map f) = none := by
  cases o with
  | ok v => exact hf v
  | error e => rfl

/-- Only `pop_next` hands out tasks. -/
theorem handedOut_popNext {call : Call ℚ} {id : TaskId}
    (hid : handedOut (outcome (exec call) s) = some id) :
    ∃ currentVersions now, call = .popNext currentVersions now := by
  cases call with
  | popNext currentVersions now => exact ⟨currentVersions,now,rfl⟩
  | submit task | cancel taskId reason | complete taskId | drop taskId reason
  | shedLoad targetActive =>
    rw [exec,outcome_map,handedOut_map (fun _ => rfl)] at hid
    cases hid

/-- The task that a call adds. -/
def submittedTask : Call ℚ → Except SchedulerError (Reply ℚ) → Option (AnalysisTask ℚ)
  | .submit task, .ok _ => some task
  | _, _ => none

/-- The tasks that a run adds, in order. -/
def submittedTasks : List (Call ℚ) → VersionDeadlineScheduler ℚ → List (AnalysisTask ℚ)
  | [], _ => []
  | call :: rest, s =>
    (submittedTask call (outcome (exec call) s)).toList ++ submittedTasks rest (after (exec call) s)

/-- A task that a call leaves behind was there before, or the call has added it. -/
theorem task_source (h : s.Named) (call : Call ℚ) {id : TaskId} {task : AnalysisTask ℚ}
    (hget : (after (exec call) s).tasks.get? id = some task) :
    (∃ before, s.tasks.get? id = some before ∧ before.Moved task) ∨
      submittedTask call (outcome (exec call) s) = some task := by
  cases hbefore : s.tasks.get? id with
  | some before =>
    obtain ⟨task',hget',hmoved⟩ := task_step h call hbefore
    rw [hget,Option.some.injEq] at hget'
    exact .inl ⟨before,rfl,hget' ▸ hmoved⟩
  | none =>
    refine .inr ?_
    cases handled h call with
    | raised e hrun =>
      rw [after_error hrun,hbefore] at hget
      cases hget
    | swept currentVersions now e next hcall hrun hmoves =>
      rw [after_error hrun,hmoves.known id hbefore] at hget
      cases hget
    | added new hcall hfree hroom hrun =>
      subst hcall
      rw [after_ok hrun,get?_store] at hget
      by_cases hid : id = new.taskId
      · rw [if_pos hid] at hget
        rw [outcome_ok hrun]
        exact hget
      · rw [if_neg hid,hbefore] at hget
        cases hget
    | moved reply next hrun hmoves hreply =>
      rw [after_ok hrun,hmoves.known id hbefore] at hget
      cases hget

/-- A task that waits at the end of a run waits all the time. -/
theorem waits_before (h : s.Admitted) (calls : List (Call ℚ)) {id : TaskId} {task task' : AnalysisTask ℚ}
    (hget : s.tasks.get? id = some task) (hend : (runAll exec calls s).tasks.get? id = some task')
    (hqueued : task'.status = .queued) : task' = task := by
  induction calls generalizing s task with
  | nil => exact Option.some.inj (hend.symm.trans hget)
  | cons call rest ih =>
    obtain ⟨mid,hmid,hmoved⟩ := task_step h.named call hget
    have hlast := ih (h.step call) hmid hend
    rw [hlast] at hqueued
    exact hlast.trans (hmoved.eq_of_queued hqueued)

theorem submitted_stored {call : Call ℚ} {task : AnalysisTask ℚ}
    (h : submittedTask call (outcome (exec call) s) = some task) :
    (after (exec call) s).tasks.get? task.taskId = some task := by
  cases call with
  | submit new =>
    cases hrun : submit new s with
    | error e next =>
      rw [exec,outcome_error (map_error hrun)] at h
      cases h
    | ok u next =>
      obtain ⟨-,-,rfl⟩ := submit_eq hrun
      rw [exec,outcome_ok (map_ok hrun)] at h
      obtain rfl := Option.some.inj h
      rw [exec,after_ok (map_ok hrun),get?_store,if_pos rfl]
  | popNext currentVersions now | cancel taskId reason | complete taskId | drop taskId reason
  | shedLoad targetActive => cases h

theorem submitted_lasts (h : s.Admitted) (calls : List (Call ℚ)) :
    ∀ task ∈ submittedTasks calls s,
      ∃ task', (runAll exec calls s).tasks.get? task.taskId = some task' ∧ SameTask task task' := by
  induction calls generalizing s with
  | nil => exact fun task htask => by cases htask
  | cons call rest ih =>
    intro task htask
    rcases List.mem_append.mp htask with hnow | hlater
    · have hstored := submitted_stored (Option.mem_toList.mp hnow)
      exact (lasts_run (h.step call) rest).kept _ _ hstored
    · exact ih (h.step call) task hlater

/-- What is popped was waiting at the start of the run or has been submitted during the run. -/
theorem popped_source (h : s.Admitted) (calls : List (Call ℚ)) : ∀ id ∈ poppedIds calls s,
    (∃ b, s.tasks.get? id = some b ∧ b.status = .queued) ∨
      ∃ task ∈ submittedTasks calls s, task.taskId = id := by
  induction calls generalizing s with
  | nil => exact fun id hid => by cases hid
  | cons call rest ih =>
    intro id hid
    rw [poppedIds_cons,List.mem_append,Option.mem_toList] at hid
    rcases hid with hnow | hlater
    · exact .inl (handedOut_step h.named hnow).1
    · rcases ih (h.step call) id hlater with ⟨b,hb,hqueued⟩ | ⟨task,htask,hid⟩
      · rcases task_source h.named call hb with ⟨before,hbefore,hmoved⟩ | hsubmitted
        · exact .inl ⟨b,hmoved.eq_of_queued hqueued ▸ hbefore,hqueued⟩
        · refine .inr ⟨b,List.mem_append_left _ (Option.mem_toList.mpr hsubmitted),?_⟩
          exact (h.step call).named id b hb
      · exact .inr ⟨task,List.mem_append_right _ htask,hid⟩

/-- What is popped while an overdue task waits overtakes it. -/
theorem popped_overtakes (h : s.Admitted) (hage : 0 ≤ s.weights.age)
    (hdeadline : 0 ≤ s.weights.deadline) (calls : List (Call ℚ)) (hqueued : a.status = .queued)
    (hget : s.tasks.get? a.taskId = some a) (htime : RunMeets exec (Timely a) calls s)
    (hend : (runAll exec calls s).tasks.get? a.taskId = some a) :
    ∀ id ∈ poppedIds calls s, id ≠ a.taskId ∧
      ∃ b, (runAll exec calls s).tasks.get? id = some b ∧ Overtakes s.weights a b := by
  induction calls generalizing s with
  | nil => exact fun id hid => by cases hid
  | cons call rest ih =>
    have hstep := h.step call
    obtain ⟨mid,hmid,-⟩ := task_step h.named call hget
    obtain rfl := waits_before hstep rest hmid hend hqueued
    have hweights : (after (exec call) s).weights = s.weights :=
      keeps_exec (I := fun t => t.weights = s.weights) (fun _ _ h => h) call s rfl
    have hrest := ih hstep (hweights ▸ hage) (hweights ▸ hdeadline) hmid htime.2 hend
    rw [hweights] at hrest
    intro id hid
    rw [poppedIds_cons,List.mem_append,Option.mem_toList] at hid
    rcases hid with hnow | hlater
    · obtain ⟨-,task,hrun,hrunning⟩ := handedOut_step h.named hnow
      obtain ⟨currentVersions,now,rfl⟩ := handedOut_popNext hnow
      obtain ⟨b,hb,hovertakes⟩ :=
        popNext_overtakes h hage hdeadline htime.1 hqueued hget hmid hnow
      refine ⟨?_,?_⟩
      · rintro rfl
        rw [hmid,Option.some.injEq] at hrun
        rw [← hrun,hqueued] at hrunning
        cases hrunning
      · obtain ⟨b',hb',hsame⟩ :=
          (lasts_run h (.popNext currentVersions now :: rest)).kept id b hb
        exact ⟨b',hb',(overtakes_same hsame).mpr hovertakes⟩
    · exact hrest id hlater

/-- While an overdue task waits, only tasks that overtake it are popped: fewer than the cap and
the submitted tasks that overtake it together. -/
theorem overdue_overtaken_boundedly (admissionCap : ℕ) (h : 0 < admissionCap)
    (weights : SchedulerWeights ℚ) (hage : 0 ≤ weights.age) (hdeadline : 0 ≤ weights.deadline)
    (calls more : List (Call ℚ)) (a : AnalysisTask ℚ) (hqueued : a.status = .queued) :
    let s := runAll exec calls (start admissionCap h weights)
    s.tasks.get? a.taskId = some a → RunMeets exec (Timely a) more s →
    (runAll exec more s).tasks.get? a.taskId = some a →
    (∀ id ∈ poppedIds more s, ∃ b, (runAll exec more s).tasks.get? id = some b ∧
      Overtakes weights a b) ∧
    (poppedIds more s).length <
      admissionCap + ((submittedTasks more s).filter (Overtakes weights a)).length := by
  intro s hget htime hend
  have hstart : (start admissionCap h weights).Admitted :=
    ⟨(admitted_init admissionCap h).named,(admitted_init admissionCap h).bounded⟩
  obtain ⟨hs,hcap⟩ := admitted_run hstart calls
  have hweights : s.weights = weights := (submitted_run admissionCap h weights calls).weights
  have hpopped := popped_overtakes hs (hweights.symm ▸ hage) (hweights.symm ▸ hdeadline) more
    hqueued hget htime hend
  rw [hweights] at hpopped
  refine ⟨fun id hid => (hpopped id hid).2,?_⟩
  let overtakers := (submittedTasks more s).filter (Overtakes weights a)
  have hsubset : poppedIds more s ⊆
      s.activeIds.erase a.taskId ++ overtakers.map AnalysisTask.taskId := by
    intro id hid
    obtain ⟨hne,b,hb,hovertakes⟩ := hpopped id hid
    rcases popped_source hs more id hid with ⟨b',hb',hwaiting⟩ | ⟨task,htask,rfl⟩
    · have hactive := mem_activeIds hs.named hb' (by rw [hwaiting]; rfl)
      exact List.mem_append_left _ ((List.mem_erase_of_ne hne).mpr hactive)
    · obtain ⟨task',htask',hsame⟩ := submitted_lasts hs more task htask
      rw [hb,Option.some.injEq] at htask'
      refine List.mem_append_right _ (List.mem_map_of_mem (List.mem_filter.mpr ⟨htask,?_⟩))
      exact decide_eq_true ((overtakes_same hsame).mp (htask' ▸ hovertakes))
  have hle := (List.subperm_of_subset (nodup_poppedIds hs more) hsubset).length_le
  have hwaits := mem_activeIds hs.named hget (by rw [hqueued]; rfl)
  have hpos : 0 < s.activeCount := length_activeIds s ▸ List.length_pos_of_mem hwaits
  have hbound : s.activeCount ≤ admissionCap := hs.bounded.trans_eq hcap
  rw [List.length_append,List.length_map,List.length_erase_of_mem hwaits,length_activeIds] at hle
  calc (poppedIds more s).length
      ≤ s.activeCount - 1 + overtakers.length := hle
    _ < admissionCap + overtakers.length := by omega

/-- A summary that is overdue is passed over for a question that came ten seconds later. -/
theorem overdue_overtaken_question :
    let waiting : AnalysisTask ℚ := ⟨lit "w",lit "branch:w",lit "s",.contextSummary,0,⟨0,0,le_rfl⟩,1,0,
      10,0,false,false,lit "sum up",0,.queued,none⟩
    let question : AnalysisTask ℚ := { waiting with
      taskId := lit "q", kind := .userQuery, foreground := true, createdAt := 10, deadlineAt := 15 }
    let s := runAll exec [.submit waiting,.submit question] (start 2 (by decide) .standard)
    poppedIds [.popNext (fun _ => none) 20] s = [question.taskId] ∧
    ∃ b, (runAll exec [.popNext (fun _ => none) 20] s).tasks.get? question.taskId = some b ∧
      Overtakes .standard waiting b := by
  intro waiting question s
  have hpopped : poppedIds [.popNext (fun _ => none) 20] s = [question.taskId] := by decide +kernel
  have hcreated : ∀ task ∈ s.tasks.values, task.createdAt ≤ 20 := by decide +kernel
  obtain ⟨hall,-⟩ := overdue_overtaken_boundedly 2 (by decide) .standard (by decide +kernel)
    (by decide +kernel) [.submit waiting,.submit question] [.popNext (fun _ => none) 20] waiting rfl
    (by decide +kernel) ⟨⟨by decide +kernel,fun id task ht =>
      hcreated task ((Dict.mem_values_iff _ _).mpr ⟨id,ht⟩)⟩,trivial⟩ (by decide +kernel)
  exact ⟨hpopped,hall question.taskId (by rw [hpopped]; exact List.mem_singleton_self _)⟩

end VersionDeadlineScheduler
end CueBee.Runtime
