import Mathlib.Algebra.Group.Pi.Lemmas
import CueBee.Transcript.EventIntake
import CueBee.Runtime.MoveEffects
import CueBee.Runtime.TokenAccounting

/-! # The counters agree with the tables

Each counter goes up in one place, apart from the table that the counted event changes. Over
any run of moves the counters of tasks say how many entries the scheduler's table has and how
they ended, and the others what the branch graph and the revision adapter hold.
-/
namespace CueBee.Runtime
open Cache Transcript Raising PyStr

namespace MetricRegistry
variable {m mid next : MetricRegistry} {d e : MetricName → ℕ}

/-- The counters go up by `d`. -/
def Raised (d : MetricName → ℕ) (m next : MetricRegistry) : Prop :=
  ∀ name, next.counter name = m.counter name + d name

theorem raised_refl (m : MetricRegistry) : Raised 0 m m := fun _ => rfl

theorem raised_inc (name : MetricName) (amount : ℕ) (m : MetricRegistry) :
    Raised (Pi.single name amount) m (m.inc name amount) := by
  intro other
  by_cases h : other = name
  · subst h
    rw [counter_inc_self,Pi.single_eq_same]
  · rw [counter_inc_ne h,Pi.single_eq_of_ne h]
    rfl

theorem Raised.trans (h : Raised d m mid) (h' : Raised e mid next) : Raised (d + e) m next := by
  intro name
  rw [h',h,Pi.add_apply,Nat.add_assoc]

end MetricRegistry
open MetricRegistry (Raised)

theorem RevisionAdapter.counts_dropped {event : STTEvent} {a next : RevisionAdapter}
    (h : a.normalize event = (none,next)) : next.duplicatesDropped + next.staleDropped =
      a.duplicatesDropped + a.staleDropped + 1 := by
  have hcounts := RevisionAdapter.normalize_counts event a
  rw [h,Option.toList_none,List.length_nil] at hcounts
  dsimp only at hcounts
  omega

theorem RevisionAdapter.counts_accepted {event e : STTEvent} {a next : RevisionAdapter}
    (h : a.normalize event = (some e,next)) : next.duplicatesDropped + next.staleDropped =
      a.duplicatesDropped + a.staleDropped := by
  have hcounts := RevisionAdapter.normalize_counts event a
  rw [h,Option.toList_some,List.length_singleton] at hcounts
  dsimp only at hcounts
  omega

namespace CueBeeRuntime
variable {S : Type} {c : Services S} {r next : CueBeeRuntime S} {α : Type}

/-- A call that leaves the counters alone. -/
def Silent (x : EStateM RuntimeError (CueBeeRuntime S) α) : Prop :=
  ∀ m, Keeps (fun r => r.metrics = m) x

theorem silent_onGraph (x : EStateM GraphError BranchGraph α) :
    Silent (onGraph x : EStateM RuntimeError (CueBeeRuntime S) α) :=
  fun _ => keeps_onGraph (fun _ _ h => h) x

theorem silent_onEngine (x : EStateM EngineError S α) : Silent (onEngine x) :=
  fun _ => keeps_onEngine (fun _ _ h => h) x

theorem silent_onSessions (x : EStateM SessionError SessionManager α) :
    Silent (onSessions x : EStateM RuntimeError (CueBeeRuntime S) α) :=
  fun _ => keeps_onSessions (fun _ _ h => h) x

theorem silent_onScheduler (x : EStateM SchedulerError (VersionDeadlineScheduler PyFloat) α) :
    Silent (onScheduler x : EStateM RuntimeError (CueBeeRuntime S) α) :=
  fun _ => keeps_focus (fun r hr => by
    unfold Ensures
    cases x r.scheduler with
    | ok a q => exact hr
    | error e q => exact hr)

theorem Silent.ok {x : EStateM RuntimeError (CueBeeRuntime S) α} (h : Silent x) {a : α}
    (hrun : x r = .ok a next) : next.metrics = r.metrics :=
  (h r.metrics).ok rfl hrun

theorem Silent.ensures {x : EStateM RuntimeError (CueBeeRuntime S) α} (h : Silent x)
    {m : MetricRegistry} (hm : r.metrics = m) :
    Ensures x r (fun _ t => t.metrics = m) (fun _ t => t.metrics = m) :=
  keeps_iff.mp (h m) r hm

theorem silent_sendTokens (event : STTEvent) (version commitFrontier replaceFrom : ℕ)
    {missing : List Token} (hmissing : missing ≠ []) :
    Silent (sendTokens c event version commitFrontier replaceFrom missing hmissing) := by
  unfold sendTokens
  split
  · exact silent_onEngine _
  · exact silent_onEngine _

theorem silent_commitCache (event : STTEvent) (frontier version : ℕ) :
    Silent (commitCache event frontier version : EStateM RuntimeError (CueBeeRuntime S) Unit) :=
  fun m => keeps_ite (fun _ => silent_onGraph _ m) (fun _ => keeps_pure _)

theorem silent_startNext (now : PyFloat) : Silent (startNext c now) := by
  intro m
  refine keeps_bind keeps_get (fun r => keeps_bind (silent_onScheduler _ m) (fun popped => ?_))
  cases popped with
  | none => exact keeps_pure _
  | some task =>
    refine keeps_bind (silent_onGraph _ m) (fun branch => keeps_bind (silent_onGraph _ m) (fun _ => ?_))
    refine keeps_bind (silent_onSessions _ m) (fun state => ?_)
    dsimp only
    split
    · exact keeps_throw _
    · exact keeps_pure _

theorem raised_of_eq (h : next.metrics = r.metrics) : Raised 0 r.metrics next.metrics :=
  h ▸ MetricRegistry.raised_refl _

theorem inc_raised {name : MetricName} {amount : ℕ} {u : Unit}
    (hrun : inc name amount r = .ok u next) :
    Raised (Pi.single name amount) r.metrics next.metrics := by
  cases hrun
  exact MetricRegistry.raised_inc name amount r.metrics

theorem cancelInvalidated_raised {ids : List TaskId} {u : Unit}
    (hrun : cancelInvalidated c ids r = .ok u next) :
    Raised (Pi.single .tasksInvalidated ids.length) r.metrics next.metrics := by
  induction ids generalizing r with
  | nil =>
    cases hrun
    rw [List.length_nil,Pi.single_zero]
    exact MetricRegistry.raised_refl _
  | cons id rest ih =>
    obtain ⟨_,r1,hcancel,hrun⟩ := bind_ok_iff.mp hrun
    obtain ⟨_,r2,habort,hrun⟩ := bind_ok_iff.mp hrun
    obtain ⟨_,r3,hinc,hrun⟩ := bind_ok_iff.mp hrun
    have hsame := ((silent_onEngine _).ok habort).trans ((silent_onScheduler _).ok hcancel)
    have hall := (hsame ▸ inc_raised hinc).trans (ih hrun)
    rwa [← Pi.single_add,Nat.add_comm] at hall

theorem cancelDropped_raised {ids : List TaskId} {u : Unit}
    (hrun : cancelDropped ids r = .ok u next) :
    Raised (Pi.single .tasksOverloadDropped ids.length) r.metrics next.metrics := by
  induction ids generalizing r with
  | nil =>
    cases hrun
    rw [List.length_nil,Pi.single_zero]
    exact MetricRegistry.raised_refl _
  | cons id rest ih =>
    obtain ⟨_,r1,hbranch,hrun⟩ := bind_ok_iff.mp hrun
    obtain ⟨_,r2,hcancel,hrun⟩ := bind_ok_iff.mp hrun
    obtain ⟨_,r3,hinc,hrun⟩ := bind_ok_iff.mp hrun
    have hsame := ((silent_onGraph _).ok hcancel).trans ((silent_onGraph _).ok hbranch)
    have hall := (hsame ▸ inc_raised hinc).trans (ih hrun)
    rwa [← Pi.single_add,Nat.add_comm] at hall

theorem rollBack_raised {s : SessionId} {rollbackFrom n : ℕ}
    (hrun : rollBack s rollbackFrom r = .ok n next) :
    Raised (Pi.single .rollbackTokens n) r.metrics next.metrics := by
  obtain ⟨tokens,r1,hread,hrun⟩ := bind_ok_iff.mp hrun
  have h1 := (silent_onGraph _).ok hread
  split at hrun
  · obtain ⟨result,r2,hroll,hrun⟩ := bind_ok_iff.mp hrun
    obtain ⟨_,r3,hinc,hrun⟩ := bind_ok_iff.mp hrun
    cases hrun
    exact ((silent_onGraph _).ok hroll).trans h1 ▸ inc_raised hinc
  · cases hrun
    rw [Pi.single_zero]
    exact raised_of_eq h1

theorem prefillMissing_raised {event : STTEvent} {version commitFrontier replaceFrom n : ℕ}
    {missing : List Token}
    (hrun : prefillMissing c event version commitFrontier replaceFrom missing r = .ok n next) :
    Raised (Pi.single .prefillTokens n) r.metrics next.metrics := by
  unfold prefillMissing at hrun
  split at hrun
  · obtain ⟨_,r1,hsend,hrun⟩ := bind_ok_iff.mp hrun
    obtain ⟨_,r2,happend,hrun⟩ := bind_ok_iff.mp hrun
    obtain ⟨_,r3,hinc,hrun⟩ := bind_ok_iff.mp hrun
    cases hrun
    have hsame := ((silent_onGraph _).ok happend).trans ((silent_sendTokens _ _ _ _ _).ok hsend)
    exact hsame ▸ inc_raised hinc
  · cases hrun
    rw [Pi.single_zero]
    exact MetricRegistry.raised_refl _

theorem reviseCache_raised {event : STTEvent} {diff : TranscriptDiff} {out : ℕ × ℕ}
    (hrun : reviseCache c event diff r = .ok out next) :
    Raised (Pi.single .rollbackTokens out.2 + Pi.single .prefillTokens out.1) r.metrics
      next.metrics := by
  obtain ⟨rolledBack,r1,hroll,hrun⟩ := bind_ok_iff.mp hrun
  obtain ⟨state,r2,hget,hrun⟩ := bind_ok_iff.mp hrun
  obtain ⟨resident,r3,hread,hrun⟩ := bind_ok_iff.mp hrun
  have hread3 := ((silent_onGraph _).ok hread).trans ((silent_onSessions _).ok hget)
  split at hrun
  · cases hrun
  · obtain ⟨r4,r5,hself,hrun⟩ := bind_ok_iff.mp hrun
    cases hself
    obtain ⟨prefilled,r6,hfill,hrun⟩ := bind_ok_iff.mp hrun
    have hfilled : Raised (Pi.single .prefillTokens prefilled) r1.metrics r6.metrics := by
      rw [← hread3]
      split at hfill
      · exact prefillMissing_raised hfill
      · cases hfill
        rw [Pi.single_zero]
        exact MetricRegistry.raised_refl _
    obtain ⟨_,r7,hcommit,hrun⟩ := bind_ok_iff.mp hrun
    cases hrun
    rw [(silent_commitCache _ _ _).ok hcommit]
    exact (rollBack_raised hroll).trans hfilled

/-- What the handling of an event counts. -/
def eventCounts (o : EventOutcome) : MetricName → ℕ :=
  Pi.single .sttEventsAccepted 1 + (Pi.single .tasksInvalidated o.invalidatedTasks.length +
    (Pi.single .rollbackTokens o.rollbackTokens + Pi.single .prefillTokens o.prefilledTokens))

theorem afterApply_raised {event : STTEvent} {diff : TranscriptDiff} {o : EventOutcome}
    (hrun : afterApply c event diff r = .ok o next) :
    Raised (eventCounts o) r.metrics next.metrics := by
  obtain ⟨_,r1,haccept,hrun⟩ := bind_ok_iff.mp hrun
  obtain ⟨ids,r2,hinvalidate,hrun⟩ := bind_ok_iff.mp hrun
  obtain ⟨_,r3,hcancel,hrun⟩ := bind_ok_iff.mp hrun
  obtain ⟨out,r4,hupdate,hrun⟩ := bind_ok_iff.mp hrun
  obtain ⟨_,r5,hvalidate,hrun⟩ := bind_ok_iff.mp hrun
  have hcancelled := cancelInvalidated_raised hcancel
  rw [(silent_onGraph _).ok hinvalidate] at hcancelled
  have hupdated : Raised (Pi.single .rollbackTokens out.2 + Pi.single .prefillTokens out.1)
      r3.metrics r4.metrics := by
    unfold updateCache at hupdate
    split at hupdate
    · cases hupdate
      rw [Pi.single_zero,Pi.single_zero,add_zero]
      exact MetricRegistry.raised_refl _
    · exact reviseCache_raised hupdate
  cases hrun
  rw [(silent_onGraph _).ok hvalidate]
  exact (inc_raised haccept).trans (hcancelled.trans hupdated)

theorem silent_admitOrCancel (task : AnalysisTask PyFloat) (branchId : BranchId) :
    Silent (admitOrCancel task branchId : EStateM RuntimeError (CueBeeRuntime S) Unit) := by
  intro m r hr
  unfold after admitOrCancel
  have hsubmit := silent_onScheduler (VersionDeadlineScheduler.submit task) m r hr
  cases hrun : onScheduler (VersionDeadlineScheduler.submit task) r with
  | ok u r1 => rwa [after_ok hrun] at hsubmit
  | error e r1 =>
    rw [after_error hrun] at hsubmit
    have hcancel := silent_onGraph (BranchGraph.cancel branchId) m r1 hsubmit
    dsimp only
    cases hend : onGraph (BranchGraph.cancel branchId) r1 with
    | ok u r2 => rwa [after_ok hend] at hcancel
    | error e' r2 => rwa [after_error hend] at hcancel

theorem submitTask_counts (a : Submission) (r : CueBeeRuntime S) : Ensures (submitTask c a) r
    (fun _ t => t.metrics = r.metrics.inc .tasksSubmitted 1) (fun _ t => t.metrics = r.metrics) := by
  refine ((silent_onSessions _).ensures rfl).bind (fun state t1 h1 => ?_)
  refine ((silent_onGraph _).ensures h1).bind (fun branch t2 h2 => ?_)
  cases c.tokenizer.encode (taskPrompt a.kind a.prompt) with
  | none => exact h2
  | some promptTokens =>
    refine ((silent_onGraph _).ensures h2).bind (fun _ t3 h3 => ?_)
    cases deadlineAt a with
    | none => exact h3
    | some deadline =>
      refine ((silent_admitOrCancel _ _).ensures h3).bind (fun _ t4 h4 => ?_)
      show MetricRegistry.inc .tasksSubmitted 1 t4.metrics = _
      rw [h4]

theorem finishNext_raised {flight : Flight} {result : EngineResult} {o : TaskOutcome}
    (hrun : finishNext flight result r = .ok o next) : Raised
      (Pi.single (if o.decision = .allow then .outputsAllowed else .staleOutputsPrevented) 1)
      r.metrics next.metrics := by
  obtain ⟨branch,r1,hbranch,hrun⟩ := bind_ok_iff.mp hrun
  obtain ⟨state,r2,hget,hrun⟩ := bind_ok_iff.mp hrun
  have h2 := ((silent_onSessions _).ok hget).trans ((silent_onGraph _).ok hbranch)
  split at hrun
  · obtain ⟨_,r3,hcomplete,hrun⟩ := bind_ok_iff.mp hrun
    obtain ⟨_,r4,htask,hrun⟩ := bind_ok_iff.mp hrun
    obtain ⟨_,r5,hinc,hrun⟩ := bind_ok_iff.mp hrun
    have h4 := ((silent_onScheduler _).ok htask).trans (((silent_onGraph _).ok hcomplete).trans h2)
    cases hrun
    exact h4 ▸ inc_raised hinc
  · next hrefuse =>
    obtain ⟨_,r3,hcancel,hrun⟩ := bind_ok_iff.mp hrun
    obtain ⟨_,r4,hdrop,hrun⟩ := bind_ok_iff.mp hrun
    obtain ⟨_,r5,hinc,hrun⟩ := bind_ok_iff.mp hrun
    have h4 := ((silent_onScheduler _).ok hdrop).trans (((silent_onGraph _).ok hcancel).trans h2)
    cases hrun
    rw [if_neg hrefuse]
    exact h4 ▸ inc_raised hinc

theorem shedLoad_raised {targetActive : ℤ} {dropped : List TaskId}
    (hrun : shedLoad targetActive r = .ok dropped next) :
    Raised (Pi.single .tasksOverloadDropped dropped.length) r.metrics next.metrics := by
  obtain ⟨ids,r1,hshed,hrun⟩ := bind_ok_iff.mp hrun
  obtain ⟨_,r2,hcancel,hrun⟩ := bind_ok_iff.mp hrun
  cases hrun
  exact (silent_onScheduler _).ok hshed ▸ cancelDropped_raised hcancel

end CueBeeRuntime

/-- The counter that counts how a task has ended. -/
def AnalysisTask.countedBy (task : AnalysisTask PyFloat) : Option MetricName :=
  if task.status = .completed then some .outputsAllowed
  else if task.status = .dropped ∧ task.cancelReason = some .overloadShed then
    some .tasksOverloadDropped
  else none

def Branch.countedBy (branch : Branch) : Option MetricName :=
  if branch.status = .invalidated then some .tasksInvalidated else none

theorem AnalysisTask.countedBy_active {task : AnalysisTask PyFloat} (h : task.status.active = true) :
    task.countedBy = none := by
  unfold AnalysisTask.countedBy
  cases hs : task.status <;> simp_all [TaskStatus.active]

theorem Branch.countedBy_active {b : Branch} (h : b.status.active = true) :
    b.countedBy = none := by
  unfold Branch.countedBy
  cases hs : b.status <;> simp_all [BranchStatus.active]

/-- A task that is stopped for another reason than overload. -/
theorem AnalysisTask.countedBy_stop (task : AnalysisTask PyFloat) {status : TaskStatus}
    (hstatus : status = .cancelled ∨ status = .dropped) {reason : CancelReason}
    (hreason : reason ≠ .overloadShed) : (task.stop status reason).countedBy = task.countedBy := by
  by_cases hactive : task.status.active = true
  · rw [AnalysisTask.countedBy_active hactive,AnalysisTask.stop,if_pos hactive]
    rcases hstatus with rfl | rfl
    · simp [AnalysisTask.countedBy]
    · simp [AnalysisTask.countedBy,hreason]
  · rw [AnalysisTask.stop,if_neg hactive]

theorem Branch.countedBy_cancel (branch : Branch) : branch.cancel.countedBy = branch.countedBy := by
  by_cases hactive : branch.status.active = true
  · rw [Branch.countedBy_active hactive,Branch.cancel,if_pos hactive]
    rfl
  · rw [Branch.cancel,if_neg hactive]

namespace CueBeeRuntime
variable {S : Type} {c : Services S} {r next : CueBeeRuntime S}
  {fb : BranchId → Branch → Branch} {ft : TaskId → AnalysisTask PyFloat → AnalysisTask PyFloat}
  {released : BranchId → Prop}

/-- The counters that a table repeats. -/
def MetricName.tabled : MetricName → Bool
  | .tasksSubmitted | .outputsAllowed | .tasksOverloadDropped | .tasksInvalidated
  | .sttEventsDropped => true
  | _ => false

def tableCount (r : CueBeeRuntime S) : MetricName → ℕ
  | .tasksSubmitted => r.scheduler.tasks.size
  | .outputsAllowed =>
    r.scheduler.tasks.values.countP (fun task => task.countedBy = some .outputsAllowed)
  | .tasksOverloadDropped =>
    r.scheduler.tasks.values.countP (fun task => task.countedBy = some .tasksOverloadDropped)
  | .tasksInvalidated =>
    r.branches.branches.values.countP (fun branch => branch.countedBy = some .tasksInvalidated)
  | .sttEventsDropped => r.revisions.duplicatesDropped + r.revisions.staleDropped
  | _ => 0

/-- Every counter that a table repeats says what the table says. -/
def Tallied (r : CueBeeRuntime S) : Prop :=
  ∀ name, MetricName.tabled name = true → r.metrics.counter name = tableCount r name

/-- The tables grow by `d`. -/
def Grown (d : MetricName → ℕ) (r next : CueBeeRuntime S) : Prop :=
  ∀ name, MetricName.tabled name = true → tableCount next name = tableCount r name + d name

theorem Tallied.grown {d : MetricName → ℕ} (h : Tallied r) (hm : Raised d r.metrics next.metrics)
    (hg : Grown d r next) : Tallied next := by
  intro name hname
  rw [hm,h name hname,hg name hname]

/-- Some tasks end in a way that the counter `l` counts. -/
theorem StatusChange.grown_tasks (h : StatusChange fb ft released r next) {l : MetricName}
    (hl : l = .outputsAllowed ∨ l = .tasksOverloadDropped) {ids : List TaskId} (hids : ids.Nodup)
    (hknown : ∀ j ∈ ids, ∃ task, r.scheduler.tasks.get? j = some task ∧ task.countedBy = none)
    (hmarks : ∀ j task, r.scheduler.tasks.get? j = some task → j ∈ ids →
      (ft j task).countedBy = some l)
    (hkeeps : ∀ j task, r.scheduler.tasks.get? j = some task → j ∉ ids →
      (ft j task).countedBy = task.countedBy)
    (hfb : ∀ id b, r.branches.branches.get? id = some b → (fb id b).countedBy = b.countedBy) :
    Grown (Pi.single l ids.length) r next := by
  have hsize : next.scheduler.tasks.size = r.scheduler.tasks.size := Dict.size_of_get?_map h.tasks
  have htasks := fun name => Dict.countP_values_labelled h.tasks hids hknown hmarks hkeeps name
  have hbranches := fun name => Dict.countP_values_labelled h.branches (l := l) List.nodup_nil
    (fun _ hid => by cases hid) (fun _ _ _ hid => by cases hid) (fun id b hb _ => hfb id b hb) name
  intro name hname
  cases name with
  | tasksSubmitted => rcases hl with rfl | rfl <;> simp [tableCount,hsize]
  | outputsAllowed => rcases hl with rfl | rfl <;> simp [tableCount,htasks]
  | tasksOverloadDropped => rcases hl with rfl | rfl <;> simp [tableCount,htasks]
  | tasksInvalidated => rcases hl with rfl | rfl <;> simp [tableCount,hbranches]
  | sttEventsDropped => rcases hl with rfl | rfl <;> simp [tableCount,h.revisions]
  | _ => cases hname

/-- Some branches are invalidated, and no task ends in a way that is counted. -/
theorem StatusChange.grown_branches (h : StatusChange fb ft released r next) {ids : List BranchId}
    (hids : ids.Nodup)
    (hknown : ∀ id ∈ ids, ∃ b, r.branches.branches.get? id = some b ∧ b.countedBy = none)
    (hmarks : ∀ id b, r.branches.branches.get? id = some b → id ∈ ids →
      (fb id b).countedBy = some .tasksInvalidated)
    (hkeeps : ∀ id b, r.branches.branches.get? id = some b → id ∉ ids →
      (fb id b).countedBy = b.countedBy)
    (hft : ∀ j task, r.scheduler.tasks.get? j = some task → (ft j task).countedBy = task.countedBy) :
    Grown (Pi.single .tasksInvalidated ids.length) r next := by
  have hsize : next.scheduler.tasks.size = r.scheduler.tasks.size := Dict.size_of_get?_map h.tasks
  have hbranches := fun name => Dict.countP_values_labelled h.branches hids hknown hmarks hkeeps name
  have htasks := fun name => Dict.countP_values_labelled h.tasks (l := .tasksInvalidated)
    List.nodup_nil (fun _ hid => by cases hid) (fun _ _ _ hid => by cases hid)
    (fun j task ht _ => hft j task ht) name
  intro name hname
  cases name with
  | tasksSubmitted => simp [tableCount,hsize]
  | outputsAllowed => simp [tableCount,htasks]
  | tasksOverloadDropped => simp [tableCount,htasks]
  | tasksInvalidated => simp [tableCount,hbranches]
  | sttEventsDropped => simp [tableCount,h.revisions]
  | _ => cases hname

/-- A change of statuses that no counter sees. -/
theorem StatusChange.grown_none (h : StatusChange fb ft released r next)
    (hft : ∀ j task, r.scheduler.tasks.get? j = some task → (ft j task).countedBy = task.countedBy)
    (hfb : ∀ id b, r.branches.branches.get? id = some b → (fb id b).countedBy = b.countedBy) :
    Grown 0 r next := by
  have hgrown := h.grown_branches List.nodup_nil (fun _ hid => by cases hid)
    (fun _ _ _ hid => by cases hid) (fun id b hb _ => hfb id b hb) hft
  rwa [List.length_nil,Pi.single_zero] at hgrown

/-- Counters and tables go up together. -/
structure Booked (d : MetricName → ℕ) (r next : CueBeeRuntime S) : Prop where
  raised : Raised d r.metrics next.metrics
  grown : Grown d r next

theorem booked_refl (r : CueBeeRuntime S) : Booked 0 r r :=
  ⟨MetricRegistry.raised_refl _,fun _ _ => rfl⟩

theorem Tallied.booked {d : MetricName → ℕ} (h : Tallied r) (hb : Booked d r next) : Tallied next :=
  h.grown hb.raised hb.grown

/-- What is booked is no output. -/
def BookedQuietly (r next : CueBeeRuntime S) : Prop :=
  ∃ d, Booked d r next ∧ d .outputsAllowed = 0 ∧ d .staleOutputsPrevented = 0

theorem Booked.quietly (h : Booked 0 r next) : BookedQuietly r next := ⟨0,h,rfl,rfl⟩

theorem eventCounts_tabled (o : EventOutcome) {name : MetricName}
    (h : MetricName.tabled name = true) :
    eventCounts o name = (Pi.single .tasksInvalidated o.invalidatedTasks.length : _ → ℕ) name := by
  cases name <;> simp_all [eventCounts,MetricName.tabled]

theorem afterApply_nodup (h : InOrder r) {event : STTEvent} {diff : TranscriptDiff}
    {o : EventOutcome} (hrun : afterApply c event diff r = .ok o next) :
    o.invalidatedTasks.Nodup := by
  obtain ⟨_,r1,haccept,hrun⟩ := bind_ok_iff.mp hrun
  cases haccept
  obtain ⟨g,hinvalidate,-⟩ := BranchGraph.invalidate_ok event.sessionId diff.changedRange
    diff.newVersion h.sound h.named
  obtain ⟨ids,r2,hids,hrun⟩ := bind_ok_iff.mp hrun
  cases hids.symm.trans (onGraph_ok (r := { r with
    metrics := MetricRegistry.inc .sttEventsAccepted 1 r.metrics }) hinvalidate)
  obtain ⟨_,r3,-,hrun⟩ := bind_ok_iff.mp hrun
  obtain ⟨out,r4,-,hrun⟩ := bind_ok_iff.mp hrun
  obtain ⟨_,r5,-,hrun⟩ := bind_ok_iff.mp hrun
  cases hrun
  have hkeys : r.branches.branches.values.map (branchIdOf ∘ Branch.taskId) =
      r.branches.branches.keys :=
    Dict.map_values_eq_keys (fun id b hb => ((h.named id b hb).2).symm)
  have hnodup := r.branches.branches.nodup_keys
  rw [← Dict.keys,← hkeys,← List.map_map] at hnodup
  exact (List.filter_sublist.map _).nodup hnodup.of_map

theorem Revised.grown {event : STTEvent} {diff : TranscriptDiff} {ids : List TaskId}
    (h : Revised event diff r next) (hnamed : r.branches.Named) (hids : ids.Nodup)
    (hmem : ∀ j, j ∈ ids ↔ Reached event diff r (branchIdOf j)) :
    Grown (Pi.single .tasksInvalidated ids.length) r next := by
  have hlength : (ids.map branchIdOf).length = ids.length := List.length_map _
  rw [← hlength]
  refine StatusChange.grown_branches h (hids.map fun _ _ => branchIdOf_injective)
    (fun id hid => ?_) (fun id b hb hid => ?_) (fun id b hb hid => ?_) (fun j task _ => ?_)
  · obtain ⟨j,hj,rfl⟩ := List.mem_map.mp hid
    obtain ⟨b,hb,hst⟩ := (hmem j).mp hj
    exact ⟨b,hb,Branch.countedBy_active (stale_active hst)⟩
  · obtain ⟨j,hj,rfl⟩ := List.mem_map.mp hid
    obtain ⟨b',hb',hst⟩ := (hmem j).mp hj
    rw [hb,Option.some.injEq] at hb'
    rw [reviseBranch,if_pos (hb' ▸ hst)]
    rfl
  · have hfresh : ¬BranchGraph.stale event.sessionId diff.changedRange diff.newVersion b = true := by
      intro hst
      have hname := (hnamed id b hb).2
      exact hid (hname ▸ List.mem_map_of_mem ((hmem b.taskId).mpr ⟨b,hname ▸ hb,hst⟩))
    rw [reviseBranch,if_neg hfresh]
  · unfold reviseTask
    split
    · exact task.countedBy_stop (.inl rfl) (by simp)
    · rfl

/-- A step that changes no table but the counts of the revision adapter. -/
theorem grown_revisions (r next : CueBeeRuntime S) (n : ℕ) (hb : next.branches = r.branches)
    (hq : next.scheduler = r.scheduler)
    (hcounts : next.revisions.duplicatesDropped + next.revisions.staleDropped =
      r.revisions.duplicatesDropped + r.revisions.staleDropped + n) :
    Grown (Pi.single .sttEventsDropped n) r next := by
  intro name hname
  cases name with
  | sttEventsDropped => simpa [tableCount] using hcounts
  | tasksSubmitted => simp [tableCount,hq]
  | outputsAllowed => simp [tableCount,hq]
  | tasksOverloadDropped => simp [tableCount,hq]
  | tasksInvalidated => simp [tableCount,hb]
  | _ => cases hname

theorem booked_handleEvent (hengine : c.engine.NeverRaises) (h : Inv r) (event : STTEvent) :
    BookedQuietly r (after (handleEvent c event) r) := by
  cases handled c event r with
  | dropped a hnorm hrun =>
    rw [after_ok hrun]
    refine ⟨Pi.single .sttEventsDropped 1,⟨MetricRegistry.raised_inc _ 1 r.metrics,?_⟩,rfl,rfl⟩
    exact grown_revisions r _ 1 rfl rfl (RevisionAdapter.counts_dropped hnorm)
  | rejected e a error m hnorm happly hrun =>
    rw [after_error hrun]
    have hgrown := grown_revisions r { r with revisions := a, sessions := m } 0 rfl rfl
      (RevisionAdapter.counts_accepted hnorm)
    rw [Pi.single_zero] at hgrown
    exact Booked.quietly ⟨MetricRegistry.raised_refl _,hgrown⟩
  | accepted e a diff m hnorm happly hrun =>
    obtain ⟨-,session,hacc,hinst⟩ := SessionManager.apply_ok happly
    obtain ⟨o,next,hafter,-,hrevised,hmem,-⟩ := afterApply_ok
      (r := { r with revisions := a, sessions := m }) hengine h hacc hinst
    rw [after_ok (hrun.trans hafter)]
    have hnodup := afterApply_nodup (r := { r with revisions := a, sessions := m })
      (h.inOrder.sessions (hinst.progress hacc.advances)) hafter
    have hgrown := Revised.grown hrevised h.named hnodup hmem
    have hsame := grown_revisions r { r with revisions := a, sessions := m } 0 rfl rfl
      (RevisionAdapter.counts_accepted hnorm)
    have hraised := afterApply_raised hafter
    refine ⟨eventCounts o,⟨hraised,fun name hname => ?_⟩,rfl,rfl⟩
    rw [hgrown name hname,hsame name hname,eventCounts_tabled o hname,Pi.single_zero]
    rfl

/-- A branch is added that no counter sees, and perhaps its task. -/
theorem BranchAdded.grown {branch : Branch} {xs : Option (List Token)} (h : BranchAdded r next branch xs)
    (hnew : r.branches.branches.get? branch.branchId = none) (hb : branch.countedBy = none)
    (hq : next.scheduler = r.scheduler) : Grown 0 r next := by
  intro name hname
  cases name with
  | tasksInvalidated =>
    have hcount := Dict.countP_values_added hnew h.branches
      (fun b => b.countedBy = some .tasksInvalidated)
    simpa [tableCount,hb] using hcount
  | sttEventsDropped => simp [tableCount,h.revisions]
  | tasksSubmitted => simp [tableCount,hq]
  | outputsAllowed => simp [tableCount,hq]
  | tasksOverloadDropped => simp [tableCount,hq]
  | _ => cases hname

theorem grown_store {task : AnalysisTask PyFloat}
    (hnew : r.scheduler.tasks.get? task.taskId = none) (hq : next.scheduler = r.scheduler.store task)
    (ht : task.countedBy = none) (hb : next.branches = r.branches)
    (hrev : next.revisions = r.revisions) : Grown (Pi.single .tasksSubmitted 1) r next := by
  have hcount := fun name => Dict.countP_values_added hnew
    (r.scheduler.get?_store task) (fun t => t.countedBy = some name)
  intro name hname
  cases name with
  | tasksInvalidated => simp [tableCount,hb]
  | sttEventsDropped => simp [tableCount,hrev]
  | tasksSubmitted =>
    rw [tableCount,tableCount,hq,Pi.single_eq_same]
    exact Dict.size_set_of_none hnew task
  | outputsAllowed => simp [tableCount,hq,hcount,ht]
  | tasksOverloadDropped => simp [tableCount,hq,hcount,ht]
  | _ => cases hname

theorem Grown.trans {mid : CueBeeRuntime S} {d e : MetricName → ℕ} (h : Grown d r mid)
    (h' : Grown e mid next) : Grown (d + e) r next := by
  intro name hname
  rw [h' name hname,h name hname,Pi.add_apply,Nat.add_assoc]

theorem booked_submitTask (a : Submission) (h : InOrder r) :
    BookedQuietly r (after (submitTask c a) r) := by
  have hcounts := submitTask_counts (c := c) a r
  cases submitted c a h with
  | unknownSession hget hrun =>
    rw [after_error hrun]
    exact (booked_refl r).quietly
  | branchExists session branch hget hbranch hrun =>
    rw [after_error hrun]
    exact (booked_refl r).quietly
  | abandoned session e tokens next hget hnew hfail he hadded htasks hrun =>
    rw [after_error hrun]
    exact Booked.quietly ⟨raised_of_eq (hcounts.error hrun),hadded.grown hnew rfl htasks⟩
  | refused session e next hget hnew hadded htasks hrun =>
    rw [after_error hrun]
    exact Booked.quietly ⟨raised_of_eq (hcounts.error hrun),hadded.grown hnew rfl htasks⟩
  | accepted session promptTokens deadline next hget hnew hencode hadded hdeadline htasks hrun =>
    rw [after_ok hrun]
    -- the table of branches grows before the table of tasks
    let mid : CueBeeRuntime S := { next with scheduler := r.scheduler }
    have hbranch : BranchAdded r mid (submittedBranch a session) _ := ⟨hadded.revisions,
      hadded.sessions,hadded.gpuLoad,hadded.engine,hadded.branches,hadded.sound,hadded.view⟩
    have htask : Grown (Pi.single .tasksSubmitted 1) mid next :=
      grown_store (h.unscheduled hnew) htasks rfl rfl rfl
    have hgrown := (hbranch.grown hnew rfl rfl).trans htask
    rw [zero_add] at hgrown
    refine ⟨Pi.single .tasksSubmitted 1,⟨?_,hgrown⟩,rfl,rfl⟩
    rw [show next.metrics = _ from hcounts.ok hrun]
    exact MetricRegistry.raised_inc _ 1 _

theorem popTask_countedBy (currentVersions : SessionId → Option ℕ) {popped : Option TaskId}
    {j : TaskId} {task : AnalysisTask PyFloat} (h : popped = some j → task.status.active = true) :
    (popTask currentVersions popped j task).countedBy = task.countedBy := by
  unfold popTask
  split
  · next hj =>
    rw [AnalysisTask.countedBy_active (h hj)]
    rfl
  · unfold VersionDeadlineScheduler.cancelStale
    split
    · next hstale =>
      simp only [VersionDeadlineScheduler.staleBase,Bool.and_eq_true,decide_eq_true_eq] at hstale
      have hactive : task.status.active = true := by
        rw [hstale.1.1]
        rfl
      rw [AnalysisTask.countedBy_active hactive]
      rfl
    · rfl

theorem shedLoad_nodup (h : r.scheduler.Named) {targetActive : ℤ} {dropped : List TaskId}
    (hrun : shedLoad targetActive r = .ok dropped next) : dropped.Nodup := by
  obtain ⟨ids,r1,hshed,hrun⟩ := bind_ok_iff.mp hrun
  obtain ⟨_,r2,-,hrun⟩ := bind_ok_iff.mp hrun
  cases hrun
  by_cases htarget : targetActive < 0
  · rw [onScheduler,focus_error (VersionDeadlineScheduler.shedLoad_negative htarget)] at hshed
    cases hshed
  · obtain ⟨ids,q,hids,hq⟩ := VersionDeadlineScheduler.shedLoad_ok h (not_lt.mp htarget)
    cases hshed.symm.trans (onScheduler_ok (r := r) hids)
    exact hq.nodup

theorem Popping.grown {task : AnalysisTask PyFloat} {branch : Branch} {session : ConversationSession}
    (h : Popping task branch session r next) : Grown 0 r next := by
  obtain ⟨before,hget,hqueued,-⟩ := h.source
  refine h.effect.toStatusChange.grown_none (fun j t ht => ?_) (fun id b hb => ?_)
  · refine popTask_countedBy r.currentVersions (fun hj => ?_)
    obtain rfl := Option.some.inj hj
    rw [ht,Option.some.injEq] at hget
    rw [hget,hqueued]
    rfl
  · unfold popBranch
    split
    · next hid =>
      obtain rfl : branchIdOf task.taskId = id := Option.some.inj hid
      have hfound := h.found
      rw [hb,Option.some.injEq] at hfound
      rw [Branch.countedBy_active (b := b) (by rw [hfound,h.queued]; rfl)]
      rfl
    · rfl

theorem booked_startNext (now : PyFloat) (h : InOrder r) :
    BookedQuietly r (after (startNext c now) r) := by
  have hmetrics := silent_startNext (c := c) now r.metrics r rfl
  have hgrown : Grown 0 r (after (startNext c now) r) := by
    have hswept : ∀ {next : CueBeeRuntime S}, Restatused (popBranch none)
        (popTask r.currentVersions none) (fun _ => False) r next → Grown 0 r next :=
      fun heffect => heffect.toStatusChange.grown_none
        (fun j t _ => popTask_countedBy r.currentVersions (fun hj => by cases hj))
        (fun id b _ => rfl)
    cases started c now h with
    | overflow next heffect hrun =>
      rw [after_error hrun]
      exact hswept heffect
    | idle next heffect hrun =>
      rw [after_ok hrun]
      exact hswept heffect
    | unencodable task branch session next hpop hencode hrun =>
      rw [after_error hrun]
      exact hpop.grown
    | started task branch session promptTokens next hpop hencode hrun =>
      rw [after_ok hrun]
      exact hpop.grown
  exact Booked.quietly ⟨raised_of_eq hmetrics,hgrown⟩

theorem booked_shedLoad (h : InOrder r) (targetActive : ℤ) :
    BookedQuietly r (after (shedLoad targetActive) r) := by
  cases loadShed h targetActive with
  | negative htarget hrun =>
    rw [after_error hrun]
    exact (booked_refl r).quietly
  | shed dropped next hqueued heffect hrun =>
    rw [after_ok hrun]
    refine ⟨Pi.single .tasksOverloadDropped dropped.length,⟨shedLoad_raised hrun,?_⟩,rfl,rfl⟩
    refine heffect.toStatusChange.grown_tasks (.inr rfl) (shedLoad_nodup h.tasksNamed hrun)
      (fun j hj => ?_) (fun j t _ hj => ?_) (fun j t _ hj => ?_) (fun id b hb => ?_)
    · obtain ⟨task,ht,hq⟩ := hqueued j hj
      exact ⟨task,ht,AnalysisTask.countedBy_active (by rw [hq]; rfl)⟩
    · rw [shedTasks,if_pos hj]
      rfl
    · rw [shedTasks,if_neg hj]
    · unfold cancelBranches
      split
      · exact b.countedBy_cancel
      · rfl

theorem keeps_tasks_onGraph {α : Type} (x : EStateM GraphError BranchGraph α)
    (q : VersionDeadlineScheduler PyFloat) :
    Keeps (fun r : CueBeeRuntime S => r.scheduler = q) (onGraph x) :=
  keeps_onGraph (fun _ _ h => h) x

/-- The task of a refused output is dropped for what the freshness gate says. -/
theorem finishNext_refused (h : r.scheduler.Named) {flight : Flight} {task : AnalysisTask PyFloat}
    (hget : r.scheduler.tasks.get? flight.task.taskId = some task) {result : EngineResult}
    {o : TaskOutcome} (hrun : finishNext flight result r = .ok o next) (ho : o.decision ≠ .allow) :
    ∃ reason, reason ≠ .overloadShed ∧ ∀ j, next.scheduler.tasks.get? j =
      (r.scheduler.tasks.get? j).map (dropTask reason flight.task.taskId j) := by
  obtain ⟨branch,r1,hbranch,hrun⟩ := bind_ok_iff.mp hrun
  have h1 : r1.scheduler = r.scheduler := (keeps_tasks_onGraph _ r.scheduler).ok rfl hbranch
  obtain ⟨state,r2,hstate,hrun⟩ := bind_ok_iff.mp hrun
  have h2 : r2.scheduler = r.scheduler :=
    (keeps_onSessions (I := fun r' => r'.scheduler = r.scheduler) (fun _ _ h => h) _).ok h1 hstate
  split at hrun
  · obtain ⟨_,r3,-,hrun⟩ := bind_ok_iff.mp hrun
    obtain ⟨_,r4,-,hrun⟩ := bind_ok_iff.mp hrun
    obtain ⟨_,r5,-,hrun⟩ := bind_ok_iff.mp hrun
    cases hrun
    exact absurd rfl ho
  · obtain ⟨_,r3,hcancel,hrun⟩ := bind_ok_iff.mp hrun
    have h3 : r3.scheduler = r.scheduler := (keeps_tasks_onGraph _ r.scheduler).ok h2 hcancel
    obtain ⟨_,r4,hdrop,hrun⟩ := bind_ok_iff.mp hrun
    obtain ⟨_,r5,hinc,hrun⟩ := bind_ok_iff.mp hrun
    cases hinc
    cases hrun
    generalize hreason : (if evaluate flight.task branch state = .restart then
      CancelReason.freshnessRestart else .freshnessDrop) = reason at hdrop
    have hwhy : reason ≠ .overloadShed := by
      rw [← hreason]
      split <;> simp
    obtain ⟨q,hq,-,htasks⟩ := VersionDeadlineScheduler.drop_ok h hget reason
    rw [← h3] at hq
    cases hdrop.symm.trans (onScheduler_ok (r := r3) hq)
    refine ⟨reason,hwhy,fun j => (htasks j).trans ?_⟩
    unfold dropTask
    by_cases hj : j = flight.task.taskId
    · subst hj
      simp [hget]
    · simp [hj]

/-- A finished generation is counted as an output or as a stale output. -/
theorem booked_finishNext (h : InOrder r) {flight : Flight} (hf : InFlight r flight)
    {result : EngineResult} {o : TaskOutcome} (hrun : finishNext flight result r = .ok o next) :
    Booked (Pi.single (if o.decision = .allow then .outputsAllowed else .staleOutputsPrevented) 1)
      r next := by
  refine ⟨finishNext_raised hrun,?_⟩
  obtain ⟨task,ht,-⟩ := hf.task
  cases finished h hf result with
  | allowed branch session last hbranch hrunning hsession hallow heffect hrun' =>
    rw [hrun] at hrun'
    cases hrun'
    have htask := hf.runs task branch ht hbranch hrunning
    have hnodup : [flight.task.taskId].Nodup := List.nodup_singleton _
    refine heffect.toStatusChange.grown_tasks (.inl rfl) hnodup (fun j hj => ?_)
      (fun j t _ hj => ?_) (fun j t _ hj => ?_) (fun id b hb => ?_)
    · obtain rfl := List.mem_singleton.mp hj
      exact ⟨task,ht,AnalysisTask.countedBy_active (by rw [htask]; rfl)⟩
    · rw [completeTask,if_pos (List.mem_singleton.mp hj)]
      rfl
    · rw [completeTask,if_neg (mt List.mem_singleton.mpr hj)]
    · unfold completeBranch
      split
      · next hid =>
        rw [hid,hbranch,Option.some.injEq] at hb
        rw [Branch.countedBy_active (b := b) (by rw [← hb,hrunning]; rfl)]
        rfl
      · rfl
  | refused branch session reason last hbranch hsession hrefuse heffect hrun' =>
    rw [hrun] at hrun'
    cases hrun'
    obtain ⟨why,hwhy,htasks⟩ := finishNext_refused h.tasksNamed ht hrun hrefuse
    have hchange : StatusChange (cancelBranch flight.branchId) (dropTask why flight.task.taskId)
        (fun id => id = flight.branchId) r next :=
      ⟨heffect.revisions,heffect.sessions,heffect.gpuLoad,heffect.branches,htasks,heffect.sound,
        heffect.dropped,heffect.kept⟩
    have hgrown : Grown 0 r next := by
      refine hchange.grown_none (fun j t _ => ?_) (fun id b _ => ?_)
      · unfold dropTask
        split
        · exact t.countedBy_stop (.inr rfl) hwhy
        · rfl
      · unfold cancelBranch
        split
        · exact b.countedBy_cancel
        · rfl
    intro name hname
    rw [if_neg hrefuse,hgrown name hname]
    cases name <;> first | rfl | cases hname

end CueBeeRuntime
open CueBeeRuntime

namespace LiveRuntime
variable {S : Type} {c : Services S} {s : LiveRuntime S}

/-- The counters say what the tables and the outcomes say. -/
structure Counters (s : LiveRuntime S) : Prop where
  tallied : Tallied s.runtime
  allowed : s.runtime.metrics.counter .outputsAllowed =
    s.outcomes.countP (fun o => o.decision = .allow)
  prevented : s.runtime.metrics.counter .staleOutputsPrevented =
    s.outcomes.countP (fun o => o.decision ≠ .allow)

theorem Counters.quietly (h : Counters s) {next : LiveRuntime S}
    (hb : BookedQuietly s.runtime next.runtime) (ho : next.outcomes = s.outcomes) :
    Counters next := by
  obtain ⟨d,hbooked,hallowed,hprevented⟩ := hb
  refine ⟨h.tallied.booked hbooked,?_,?_⟩
  · rw [hbooked.raised,hallowed,ho]
    exact h.allowed
  · rw [hbooked.raised,hprevented,ho]
    exact h.prevented

theorem Counters.finished (h : Counters s) {next : CueBeeRuntime S} {o : TaskOutcome}
    (hb : Booked (Pi.single (if o.decision = .allow then .outputsAllowed else .staleOutputsPrevented)
      1) s.runtime next) (generations : List Generation) :
    Counters { s with
      runtime := next, generations := generations, outcomes := s.outcomes ++ [o] } := by
  refine ⟨h.tallied.booked hb,?_,?_⟩
  · show next.metrics.counter _ = (s.outcomes ++ [o]).countP _
    rw [hb.raised,h.allowed,List.countP_append]
    by_cases ho : o.decision = .allow <;> simp [ho]
  · show next.metrics.counter _ = (s.outcomes ++ [o]).countP _
    rw [hb.raised,h.prevented,List.countP_append]
    by_cases ho : o.decision = .allow <;> simp [ho]

theorem Counters.step (h : Counters s) (hengine : c.engine.NeverRaises) (hfly : Flying s)
    (hinv : Inv s.runtime) (move : Move S) : Counters (step c move s) := by
  cases move with
  | handleEvent event => exact h.quietly (booked_handleEvent hengine hinv event) rfl
  | shedLoad targetActive => exact h.quietly (booked_shedLoad hfly.inOrder targetActive) rfl
  | setGpuLoad load =>
    exact h.quietly (Booked.quietly ⟨MetricRegistry.raised_refl _,fun _ _ => rfl⟩) rfl
  | engine state =>
    exact h.quietly (Booked.quietly ⟨MetricRegistry.raised_refl _,fun _ _ => rfl⟩) rfl
  | submitTask a =>
    have hb := booked_submitTask (c := c) a hfly.inOrder
    cases hrun : submitTask c a s.runtime with
    | ok task r =>
      rw [after_ok hrun] at hb
      simp only [LiveRuntime.step,hrun]
      exact h.quietly hb rfl
    | error e r =>
      rw [after_error hrun] at hb
      simp only [LiveRuntime.step,hrun]
      exact h.quietly hb rfl
  | start now =>
    have hb := booked_startNext (c := c) now hfly.inOrder
    cases hrun : startNext c now s.runtime with
    | error e r =>
      rw [after_error hrun] at hb
      simp only [LiveRuntime.step,hrun]
      exact h.quietly hb rfl
    | ok flight r =>
      rw [after_ok hrun] at hb
      cases flight with
      | none =>
        simp only [LiveRuntime.step,hrun]
        exact h.quietly hb rfl
      | some flight =>
        simp only [LiveRuntime.step,hrun]
        exact h.quietly hb rfl
  | finish i result =>
    cases hg : s.generations[i]? with
    | none =>
      simp only [LiveRuntime.step,hg]
      exact h
    | some g =>
      have hf := hfly.inFlight g (List.mem_of_getElem? hg)
      obtain ⟨o,next,hrun,-⟩ := finishNext_ok hinv hf result
      simp only [LiveRuntime.step,hg,hrun]
      exact h.finished (booked_finishNext hfly.inOrder hf hrun) _

theorem counters_init (blockSize : ℕ) (hblock : 0 < blockSize) (admissionCap : ℕ)
    (hcap : 0 < admissionCap) (e : S) : Counters (init blockSize hblock admissionCap hcap e) where
  tallied name _ := by cases name <;> rfl
  allowed := rfl
  prevented := rfl

theorem counters_run (htok : c.tokenizer.Total) (hengine : c.engine.NeverRaises)
    {moves : List (Move S)} (hfly : Flying s) (hinv : Inv s.runtime) (h : Counters s)
    (hsafe : RunMeets (act c) SafeMove moves s) : Counters (runAll (act c) moves s) := by
  refine (hsafe.keeps (I := fun t => (Flying t ∧ Inv t.runtime) ∧ Counters t)
    (fun move t ht hmove => ?_) ⟨⟨hfly,hinv⟩,h⟩).2
  exact ⟨⟨keeps_flying move t ht.1.1,inv_step htok hengine ht.1.1 ht.1.2 hmove⟩,
    ht.2.step hengine ht.1.1 ht.1.2 move⟩

/-- After any safe moves, while outputs are being generated: each counter of tasks is the number
of the tasks, branches or outcomes that it counts, and dropped events are counted alike twice. -/
theorem counters_account {S : Type} (c : Services S) (htok : c.tokenizer.Total)
    (hengine : c.engine.NeverRaises) (blockSize : ℕ) (hblock : 0 < blockSize) (admissionCap : ℕ)
    (hcap : 0 < admissionCap) (e : S) (moves : List (Move S))
    (hsafe : RunMeets (act c) SafeMove moves (init blockSize hblock admissionCap hcap e)) :
    let s := runAll (act c) moves (init blockSize hblock admissionCap hcap e)
    let tasks := s.runtime.scheduler.tasks.values
    let counter := fun name => s.runtime.metrics.counter name
    counter .tasksSubmitted = tasks.length ∧
    counter .outputsAllowed = tasks.countP (fun task => task.status = .completed) ∧
    counter .outputsAllowed = s.outcomes.countP (fun o => o.decision = .allow) ∧
    counter .staleOutputsPrevented = s.outcomes.countP (fun o => o.decision ≠ .allow) ∧
    counter .tasksOverloadDropped = tasks.countP (fun task =>
      task.status = .dropped ∧ task.cancelReason = some .overloadShed) ∧
    counter .tasksInvalidated = s.runtime.branches.branches.values.countP (fun branch =>
      branch.status = .invalidated) ∧
    counter .sttEventsDropped =
      s.runtime.revisions.duplicatesDropped + s.runtime.revisions.staleDropped := by
  intro s tasks counter
  have h : Counters s := counters_run htok hengine
    (flying_init blockSize hblock admissionCap hcap e)
    (inv_init blockSize hblock admissionCap hcap e)
    (counters_init blockSize hblock admissionCap hcap e) hsafe
  refine ⟨(h.tallied _ rfl).trans ?_,(h.tallied _ rfl).trans ?_,h.allowed,h.prevented,
    (h.tallied _ rfl).trans ?_,(h.tallied _ rfl).trans ?_,h.tallied _ rfl⟩
  · simp only [tableCount,Dict.size,tasks,Dict.values,List.length_map]
  · refine List.countP_congr (fun task _ => ?_)
    cases hs : task.status <;> simp [AnalysisTask.countedBy,hs]
  · refine List.countP_congr (fun task _ => ?_)
    cases hs : task.status <;> simp [AnalysisTask.countedBy,hs]
  · refine List.countP_congr (fun branch _ => ?_)
    cases hs : branch.status <;> simp [Branch.countedBy,hs]

/-- The transcript moves on while a hint is generated. -/
theorem counters_account_stale :
    let moves := [Move.handleEvent (heard "a" 0 .appendPartial "hello" (by decide) (by decide)),
      .submitTask (asked "t" .proactiveHint (lit "help")),.start (.fin 0),
      .handleEvent (heard "a" 1 .commitFinal "hello world" (by decide) (by decide)),
      .finish 0 ⟨lit "t",[],0,0⟩]
    let s := runAll (act (quietServices lenientTokenizer)) moves
      (init 16 (by decide) 32 (by decide) ())
    s.runtime.metrics.counter .tasksSubmitted = 1 ∧
    s.runtime.metrics.counter .staleOutputsPrevented = 1 ∧
    s.runtime.metrics.counter .tasksInvalidated = 1 := by
  intro moves s
  obtain ⟨hsubmitted,-,-,hprevented,-,hinvalidated,-⟩ := counters_account
    (quietServices lenientTokenizer) lenientTokenizer_total quietEngine_neverRaises 16 (by decide) 32
    (by decide) () moves ⟨trivial,fun _ => .inl (by decide +kernel),trivial,trivial,trivial,trivial⟩
  refine ⟨hsubmitted.trans ?_,hprevented.trans ?_,hinvalidated.trans ?_⟩ <;> decide +kernel

end LiveRuntime
end CueBee.Runtime
