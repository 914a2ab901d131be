import CueBee.Runtime.MethodFrames
import CueBee.Runtime.RuntimeRuns
import CueBee.Runtime.StatusProgress

/-! # Runs with any engine and any tokenizer

`Since start` holds of a state that is in order and that the runtime may have reached from
`start`. Every step of every method keeps it, whether the method returns or raises.
-/
namespace CueBee.Runtime
open Cache Transcript Raising ConversationSession SessionManager VersionedKVManager PyStr
open VersionDeadlineScheduler (cancelStale)

namespace CueBeeRuntime
variable {S : Type} {c : Services S} {start r mid next : CueBeeRuntime S}

structure Since (start r : CueBeeRuntime S) : Prop where
  inOrder : InOrder r
  lasting : Lasting start r

theorem Since.refl (h : InOrder r) : Since r r := ⟨h,.refl r⟩

theorem Since.trans (h : Since start mid) (h' : Since mid next) : Since start next :=
  ⟨h'.inOrder,h.lasting.trans h'.lasting⟩

/-- A step that leaves sessions, branches and tasks. -/
theorem Since.congr (h : Since start r) (hm : next.sessions = r.sessions)
    (hg : next.branches = r.branches) (hq : next.scheduler = r.scheduler) : Since start next := by
  refine h.trans ⟨?_,lasting_sessions (hm ▸ .refl _) hg hq⟩
  unfold InOrder
  rw [hm,hg,hq]
  exact h.inOrder

section Changes
variable {m : SessionManager} {fb : BranchId → Branch → Branch}
  {ft : TaskId → AnalysisTask PyFloat → AnalysisTask PyFloat} {released : BranchId → Prop}

theorem StatusChange.inOrder (h : StatusChange fb ft released r next)
    (hbase : Orderly m r.branches r.scheduler) (hm : Progress m r.sessions)
    (hfb : ∀ id b, r.branches.branches.get? id = some b → SameBranch b (fb id b))
    (hft : ∀ j t, r.scheduler.tasks.get? j = some t → SameTask t (ft j t))
    (hactive : ∀ id b, r.branches.branches.get? id = some b → ¬released id →
      b.status.active = true → (fb id b).status.active = true)
    (hqueued : ∀ j t b, r.scheduler.tasks.get? j = some t →
      r.branches.branches.get? (branchIdOf j) = some b → (ft j t).status = .queued →
      t.status = .queued ∧ (b.status = .queued → (fb (branchIdOf j) b).status = .queued ∨
        Outdated r.sessions (fb (branchIdOf j) b))) : InOrder next := by
  have hnot : ∀ {id}, next.kv.view.branches id ≠ none → ¬released id :=
    fun hid hrel => hid (h.dropped _ hrel)
  unfold InOrder
  rw [h.sessions]
  refine hbase.restatus hm fb ft h.branches h.tasks hfb hft h.sound ?_ ?_ hqueued
  · intro id hid
    show r.kv.view.branches id ≠ none
    rw [← h.kept id (hnot hid)]
    exact hid
  · intro id b hb hid
    exact hactive id b hb (hnot hid)

end Changes

theorem since_engine {α : Type} (x : EStateM EngineError S α) : Keeps (Since start) (onEngine x) := by
  refine keeps_iff.mpr (fun r hr => ensures_focus.mpr ?_)
  cases hx : x r.engine with
  | ok a e => exact Ensures.of_ok hx (hr.congr rfl rfl rfl)
  | error e s => exact Ensures.of_error hx (hr.congr rfl rfl rfl)

theorem since_inc (name : MetricName) (amount : ℕ) : Keeps (Since start) (inc name amount) :=
  keeps_modify (fun _ hr => hr.congr rfl rfl rfl)

theorem since_withKV (h : Since start r) {k : VersionedKVManager} (hsound : k.Sound)
    (hview : k.view.branches = r.kv.view.branches) : Since start (r.withKV k) := by
  refine h.trans ⟨h.inOrder.cache hsound hview,⟨.refl _,?_,?_⟩⟩
  · exact fun _ t ht => ⟨t,ht,.refl t,Or.inl rfl⟩
  · exact fun _ b hb => ⟨b,hb,.refl b,Or.inl rfl⟩

/-- The cache part of `handle_event` spares the references of all branches. -/
theorem cacheFrame_since : CacheFrame (Since start) where
  metrics _ _ hr := hr.congr rfl rfl rfl
  engine x := since_engine x
  tokens s := by
    refine keeps_iff.mpr (fun r hr => Ensures.of_ok (onKV_ok (sessionTokens_ok hr.inOrder.sound s)) ?_)
    exact since_withKV hr (hr.inOrder.sound.touch s) (by rw [view_touch]; rfl)
  rollback s fromToken := by
    refine keeps_iff.mpr (fun r hr => ?_)
    have hs : r.kv.Sound := hr.inOrder.sound
    by_cases hguard : fromToken < NaiveKV.committedEnd (r.kv.view.sessions s)
    · exact Ensures.of_error (onKV_error (rollbackTentative_rejected hs hguard))
        (since_withKV hr (hs.touch s) (by rw [view_touch]))
    · obtain ⟨result,k,hrun,hsound,-,hview⟩ := rollbackTentative_ok hs (not_lt.mp hguard)
      exact Ensures.of_ok (onKV_ok hrun) (since_withKV hr hsound (by rw [hview]; rfl))
  append s tokenIds version := by
    refine keeps_iff.mpr (fun r hr => ?_)
    have hs : r.kv.Sound := hr.inOrder.sound
    obtain ⟨appended,k,hrun,hsound,hview⟩ := appendSession_ok (s := s) hs
      (show Validity.tentative ≠ .invalidated by decide) tokenIds version
    exact Ensures.of_ok (onKV_ok hrun) (since_withKV hr hsound (by rw [hview]; rfl))
  commit s frontier version := by
    refine keeps_iff.mpr (fun r hr => ?_)
    have hs : r.kv.Sound := hr.inOrder.sound
    by_cases hlen : frontier = ((r.kv.view.sessions s).length : ℤ)
    · obtain ⟨k,hrun,hsound,hview⟩ := commitTentative_ok hs version hlen
      exact Ensures.of_ok (onKV_ok hrun) (since_withKV hr hsound (by rw [hview]; rfl))
    · exact Ensures.of_error (onKV_error (commitTentative_rejected hs version hlen))
        (since_withKV hr (hs.touch s) (by rw [view_touch]))

/-- The tasks change their statuses alone. -/
theorem since_tasks (h : Since start r) {q : VersionDeadlineScheduler PyFloat}
    (ft : TaskId → AnalysisTask PyFloat → AnalysisTask PyFloat)
    (htasks : ∀ j, q.tasks.get? j = (r.scheduler.tasks.get? j).map (ft j))
    (hft : ∀ j t, r.scheduler.tasks.get? j = some t →
      SameTask t (ft j t) ∧ t.status.Later (ft j t).status) :
    Since start { r with scheduler := q } := by
  refine h.trans ⟨h.inOrder.tasks ft htasks (fun j t ht => ⟨(hft j t ht).1,fun hq => ?_⟩),
    ⟨.refl _,fun j t ht => ⟨ft j t,?_,hft j t ht⟩,fun _ b hb => ⟨b,hb,.refl b,Or.inl rfl⟩⟩⟩
  · rcases (hft j t ht).2 with hs | ⟨-,hs⟩
    · exact hs ▸ hq
    · exact absurd hq hs
  · show q.tasks.get? j = _
    rw [htasks,ht]
    rfl

theorem since_cancelTask (id : TaskId) (reason : CancelReason) :
    Keeps (Since start) (onScheduler (VersionDeadlineScheduler.cancel id reason)) := by
  refine keeps_iff.mpr (fun r hr => ?_)
  cases ht : r.scheduler.tasks.get? id with
  | none =>
    have hget : VersionDeadlineScheduler.get id r.scheduler =
        .error (.unknownTask id) r.scheduler := by
      simp only [VersionDeadlineScheduler.get,ht]
    have hcancel : onScheduler (VersionDeadlineScheduler.cancel id reason) r =
        .error (.scheduler (.unknownTask id)) r := focus_error (bind_error hget)
    exact Ensures.of_error hcancel hr
  | some t =>
    obtain ⟨q,hcancel,-,hq⟩ := VersionDeadlineScheduler.cancel_ok hr.inOrder.tasksNamed ht reason
    refine Ensures.of_ok (onScheduler_ok hcancel) (since_tasks hr
      (fun j t => if j = id then t.stop .cancelled reason else t) (fun j => ?_) (fun j t' _ => ?_))
    · rw [hq j]
      by_cases hj : j = id
      · subst hj
        rw [if_pos rfl,ht,Option.map_some,if_pos rfl]
      · simp [hj]
    · by_cases hj : j = id
      · rw [if_pos hj]
        exact ⟨t'.stop_same _ _,t'.stop_later (by decide) _⟩
      · rw [if_neg hj]
        exact ⟨.refl t',Or.inl rfl⟩

section Events
variable {event : STTEvent} {diff : TranscriptDiff} {m : SessionManager}
  {session : ConversationSession}

/-- A branch that an accepted event reaches is outdated afterwards. -/
theorem outdated_of_stale {b : Branch} (hacc : Accepted c.tokenizer event m session diff)
    (hinst : Installed m next.sessions event.sessionId session) (hg : Grounded m b)
    (hst : BranchGraph.stale event.sessionId diff.changedRange diff.newVersion b = true) :
    Outdated next.sessions b := by
  obtain ⟨before,hget,hversion,-⟩ := hg.session
  have hsession : b.sessionId = event.sessionId := by
    simp only [BranchGraph.stale,Bool.and_eq_true,decide_eq_true_eq] at hst
    exact hst.1.1
  rw [hsession] at hget
  refine ⟨stale_requires hacc hg hst,session,hsession ▸ hinst.self,?_⟩
  rw [hacc.version_eq.1,current_of_some hget]
  exact Nat.lt_succ_of_le hversion

theorem since_invalidate (h : Since start r) (hbase : Orderly m r.branches r.scheduler)
    (hacc : Accepted c.tokenizer event m session diff)
    (hinst : Installed m r.sessions event.sessionId session) :
    Ensures (onGraph (BranchGraph.invalidate event.sessionId diff.changedRange diff.newVersion)) r
      (fun _ => Since start) (fun _ => Since start) := by
  obtain ⟨ids,g,hrun,-,heffect⟩ := invalidate_effect h.inOrder event diff
  refine Ensures.of_ok hrun (h.trans ⟨heffect.toStatusChange.inOrder hbase
    (hinst.progress hacc.advances) (fun id b _ => reviseBranch_same event diff id b)
    (fun _ t _ => .refl t) (fun id b hb hid ha => ?_) (fun j t b _ hb hq => ⟨hq,fun hbq => ?_⟩),
    heffect.toStatusChange.lasting
      (fun id b _ => ⟨reviseBranch_same event diff id b,reviseBranch_later event diff id b⟩)
      (fun _ t _ => ⟨.refl t,Or.inl rfl⟩)⟩)
  · unfold reviseBranch
    rw [if_neg (fun hst => hid ⟨b,hb,hst⟩)]
    exact ha
  · by_cases hst : BranchGraph.stale event.sessionId diff.changedRange diff.newVersion b = true
    · exact Or.inr ((outdated_of_stale hacc hinst (hbase.grounded _ b hb) hst).progress (.refl _)
        (reviseBranch_same event diff _ b))
    · unfold reviseBranch
      rw [if_neg hst]
      exact Or.inl hbq

theorem since_cancelInvalidated (ids : List TaskId) :
    Keeps (Since start) (cancelInvalidated c ids) := by
  induction ids with
  | nil => exact keeps_pure _
  | cons id rest ih =>
    exact keeps_bind (since_cancelTask id _) (fun _ => keeps_bind (since_engine _) (fun _ =>
      keeps_bind (since_inc _ _) (fun _ => ih)))

theorem since_afterApply (h : Since start r) (hbase : Orderly m r.branches r.scheduler)
    (hacc : Accepted c.tokenizer event m session diff)
    (hinst : Installed m r.sessions event.sessionId session) :
    Ensures (afterApply c event diff) r (fun _ => Since start) (fun _ => Since start) := by
  have hcount : (inc MetricName.sttEventsAccepted 1 : EStateM RuntimeError (CueBeeRuntime S) Unit) r =
      .ok () { r with metrics := MetricRegistry.inc .sttEventsAccepted 1 r.metrics } := rfl
  have hvalidate : Keeps (Since start) (onKV (S := S) VersionedKVManager.validateRefCounts) :=
    keeps_iff.mpr (fun r hr =>
      Ensures.of_ok (onKV_ok (validateRefCounts_spec hr.inOrder.sound.ledger)) hr)
  refine ensures_bind.mpr (Ensures.of_ok hcount ?_)
  refine Ensures.bind (since_invalidate (h.congr rfl rfl rfl) hbase hacc hinst) (fun ids r1 h1 => ?_)
  refine keeps_iff.mp ?_ r1 h1
  exact keeps_bind (since_cancelInvalidated ids) (fun _ =>
    keeps_bind (cacheFrame_since.updateCache event diff) (fun _ =>
      keeps_bind hvalidate (fun _ => keeps_pure _)))

end Events

theorem since_handleEvent (event : STTEvent) : Keeps (Since start) (handleEvent c event) := by
  refine keeps_iff.mpr (fun r h => ?_)
  have hmoved : ∀ {m : SessionManager} (a : RevisionAdapter), Progress r.sessions m →
      Since start { r with revisions := a, sessions := m } := fun a hm =>
    h.trans ⟨h.inOrder.sessions hm,lasting_sessions hm rfl rfl⟩
  cases handled c event r with
  | dropped a hnorm hrun => exact Ensures.of_ok hrun (h.congr rfl rfl rfl)
  | rejected e a error m hnorm happly hrun =>
    have hprog := apply_progress c.tokenizer e r.sessions
    rw [after_error happly] at hprog
    exact Ensures.of_error hrun (hmoved a hprog)
  | accepted e a diff m hnorm happly hrun =>
    obtain ⟨-,session,hacc,hinst⟩ := apply_ok happly
    have hafter := since_afterApply (r := { r with revisions := a, sessions := m })
      (hmoved a (hinst.progress hacc.advances)) h.inOrder hacc hinst
    unfold Ensures at hafter ⊢
    rwa [hrun]

/-- A branch is added, alone or with its task. -/
theorem BranchAdded.inOrder {branch : Branch} {xs : Option (List Token)}
    (hadded : BranchAdded r next branch xs) (h : InOrder r)
    (hnew : r.branches.branches.get? branch.branchId = none)
    (hid : branch.branchId = branchIdOf branch.taskId) (hground : Grounded r.sessions branch)
    (hxs : xs ≠ none → branch.status.active = true)
    (htasks : ∀ j, j ≠ branch.taskId → next.scheduler.tasks.get? j = r.scheduler.tasks.get? j)
    (htask : ∀ t, next.scheduler.tasks.get? branch.taskId = some t →
      t.taskId = branch.taskId ∧ Attached r.sessions t branch) : InOrder next := by
  unfold InOrder
  rw [hadded.sessions]
  exact Orderly.addBranch h hnew hid hground hadded.branches hadded.sound
    (fun id hne => hadded.references_ne hne) (fun hne => hxs (hadded.references_self ▸ hne))
    htasks htask

theorem inOrder_submitTask (a : Submission) (h : InOrder r) :
    InOrder (after (submitTask c a) r) := by
  have hnone : ∀ {next : CueBeeRuntime S}, next.scheduler = r.scheduler →
      r.branches.branches.get? (branchIdOf (resolvedTaskId a)) = none →
      ∀ t, next.scheduler.tasks.get? (resolvedTaskId a) ≠ some t := by
    intro next htasks hnew t ht
    rw [htasks,h.unscheduled hnew] at ht
    cases ht
  cases submitted c a h with
  | unknownSession hget hrun | branchExists session branch hget hbranch hrun =>
    rw [after_error hrun]
    exact h
  | abandoned session e tokens next hget hnew hfail he hadded htasks hrun =>
    rw [after_error hrun]
    exact hadded.inOrder h hnew rfl (grounded_submitted hget) (fun _ => rfl)
      (fun j _ => by rw [htasks]) (fun t ht => absurd ht (hnone htasks hnew t))
  | refused session e next hget hnew hadded htasks hrun =>
    rw [after_error hrun]
    have hground : Grounded r.sessions { submittedBranch a session with status := .cancelled } :=
      ⟨(grounded_submitted hget).tentative,(grounded_submitted hget).session⟩
    exact hadded.inOrder h hnew rfl hground (fun hx => absurd rfl hx)
      (fun j _ => by rw [htasks]) (fun t ht => absurd ht (hnone htasks hnew t))
  | accepted session promptTokens deadline next hget hnew hencode hadded hdeadline htasks hrun =>
    rw [after_ok hrun]
    refine hadded.inOrder h hnew rfl (grounded_submitted hget) (fun _ => rfl) (fun j hj => ?_)
      (fun t ht => ?_)
    · rw [htasks,VersionDeadlineScheduler.get?_store]
      exact if_neg hj
    · rw [htasks,VersionDeadlineScheduler.get?_store] at ht
      have hself : resolvedTaskId a =
          (newTask a session (submittedBranch a session) deadline).taskId := rfl
      have hsame := (if_pos hself).symm.trans ht
      cases hsame
      exact ⟨rfl,(paired_submitted a session deadline).attached⟩

theorem since_submitTask (a : Submission) : Keeps (Since start) (submitTask c a) :=
  fun _ h => h.trans ⟨inOrder_submitTask a h.inOrder,lasting_submitTask a h.inOrder⟩

theorem inOrder_popped {popped : Option TaskId} (h : InOrder r)
    (heffect : Restatused (popBranch popped) (popTask r.currentVersions popped) (fun _ => False)
      r next) : InOrder next := by
  refine heffect.toStatusChange.inOrder h (.refl _) (fun id b _ => ?_) (fun j t _ => ?_)
    (fun id b _ _ ha => ?_) (fun j t b _ _ hq => ?_)
  · unfold popBranch SameBranch
    split <;> rfl
  · unfold popTask
    split
    · rfl
    · exact cancelStale_same _ t
  · unfold popBranch
    split
    · rfl
    · exact ha
  · unfold popTask at hq
    by_cases hj : popped = some j
    · rw [if_pos hj] at hq
      cases hq
    · rw [if_neg hj] at hq
      unfold popBranch
      rw [if_neg (mt map_branchIdOf_eq_some.mp hj)]
      refine ⟨?_,Or.inl⟩
      unfold cancelStale at hq
      split at hq
      · cases hq
      · exact hq

theorem Popping.since {task : AnalysisTask PyFloat} {branch : Branch} {session : ConversationSession}
    (h : Popping task branch session r next) (hr : InOrder r) : Since r next :=
  ⟨inOrder_popped hr h.effect,h.lasting⟩

theorem since_allowed {flight : Flight} {branch : Branch} (h : InOrder r) (hf : InFlight r flight)
    (hb : r.branches.branches.get? flight.branchId = some branch) (hrunning : branch.status = .running)
    (heffect : Restatused (completeBranch flight.branchId) (completeTask flight.task.taskId)
      (fun id => id = flight.branchId) r next) : Since r next := by
  refine ⟨heffect.toStatusChange.inOrder h (.refl _) (fun id b _ => completeBranch_same _ id b)
    (fun j t _ => completeTask_same _ j t) (fun id b _ hid ha => ?_) (fun j t b _ _ hq => ?_),
    lasting_allowed hb hrunning (fun task ht => hf.runs task branch ht hb hrunning) heffect⟩
  · unfold completeBranch
    rw [if_neg hid]
    exact ha
  · unfold completeTask at hq
    by_cases hj : j = flight.task.taskId
    · rw [if_pos hj] at hq
      cases hq
    · rw [if_neg hj] at hq
      unfold completeBranch
      rw [if_neg (hf.branchId_ne hj)]
      exact ⟨hq,Or.inl⟩

theorem since_refused {flight : Flight} {reason : CancelReason} (h : InOrder r)
    (hf : InFlight r flight)
    (heffect : Restatused (cancelBranch flight.branchId) (dropTask reason flight.task.taskId)
      (fun id => id = flight.branchId) r next) : Since r next := by
  refine ⟨heffect.toStatusChange.inOrder h (.refl _) (fun id b _ => cancelBranch_same _ id b)
    (fun j t _ => dropTask_same _ _ j t) (fun id b _ hid ha => ?_) (fun j t b _ _ hq => ?_),
    lasting_refused heffect⟩
  · unfold cancelBranch
    rw [if_neg hid]
    exact ha
  · unfold dropTask at hq
    by_cases hj : j = flight.task.taskId
    · rw [if_pos hj] at hq
      have hend := t.stop_inactive (show TaskStatus.dropped.active = false from rfl) reason
      rw [hq] at hend
      cases hend
    · rw [if_neg hj] at hq
      unfold cancelBranch
      rw [if_neg (hf.branchId_ne hj)]
      exact ⟨hq,Or.inl⟩

/-- The task of a flight that has landed is no longer active. -/
def Landed (flight : Flight) (r : CueBeeRuntime S) : Prop :=
  ∀ t, r.scheduler.tasks.get? flight.task.taskId = some t → t.status.active = false

/-- The second half of `run_next` returns and ends the task alone. -/
theorem finishNext_landed {flight : Flight} (h : InOrder r) (hf : InFlight r flight)
    (result : EngineResult) :
    ∃ outcome next, finishNext flight result r = .ok outcome next ∧ Since r next ∧
      Landed flight next ∧ ∀ j, j ≠ flight.task.taskId →
        next.scheduler.tasks.get? j = r.scheduler.tasks.get? j := by
  cases finished h hf result with
  | allowed branch session next hbranch hrunning hsession hallow heffect hrun =>
    refine ⟨_,next,hrun,since_allowed h hf hbranch hrunning heffect,fun t ht => ?_,
      fun j hj => ?_⟩
    · obtain ⟨before,-,rfl⟩ := Option.map_eq_some_iff.mp ((heffect.tasks _).symm.trans ht)
      rw [completeTask,if_pos rfl]
      rfl
    · have hsame : completeTask flight.task.taskId j = id := funext (fun _ => if_neg hj)
      rw [heffect.tasks j,hsame,Option.map_id_apply]
  | refused branch session reason next hbranch hsession hrefuse heffect hrun =>
    refine ⟨_,next,hrun,since_refused h hf heffect,fun t ht => ?_,fun j hj => ?_⟩
    · obtain ⟨before,-,rfl⟩ := Option.map_eq_some_iff.mp ((heffect.tasks _).symm.trans ht)
      rw [dropTask,if_pos rfl]
      exact before.stop_inactive (by decide) reason
    · have hsame : dropTask reason flight.task.taskId j = id := funext (fun _ => if_neg hj)
      rw [heffect.tasks j,hsame,Option.map_id_apply]

/-- The ways through `run_next`, by what `pop_next`, the tokenizer and the engine do. -/
inductive Ran (c : Services S) (now : PyFloat) (r : CueBeeRuntime S) : Prop
  | overflow (q : VersionDeadlineScheduler PyFloat)
      (hpop : VersionDeadlineScheduler.popNext r.currentVersions now r.scheduler =
        .error .overflow q)
      (heffect : Restatused (popBranch none) (popTask r.currentVersions none) (fun _ => False)
        r { r with scheduler := q })
      (hrun : runNext c now r = .error (.scheduler .overflow) { r with scheduler := q })
  | idle (q : VersionDeadlineScheduler PyFloat)
      (hpop : VersionDeadlineScheduler.popNext r.currentVersions now r.scheduler = .ok none q)
      (heffect : Restatused (popBranch none) (popTask r.currentVersions none) (fun _ => False)
        r { r with scheduler := q })
      (hrun : runNext c now r = .ok none { r with scheduler := q })
  | unencodable (task : AnalysisTask PyFloat) (q : VersionDeadlineScheduler PyFloat) (branch : Branch)
      (session : ConversationSession) (next : CueBeeRuntime S)
      (hpop : VersionDeadlineScheduler.popNext r.currentVersions now r.scheduler = .ok (some task) q)
      (hpopping : Popping task branch session r next)
      (hencode : c.tokenizer.encode (promptOf task branch session) = none)
      (hrun : runNext c now r = .error .encode next)
  | failed (task : AnalysisTask PyFloat) (q : VersionDeadlineScheduler PyFloat) (branch : Branch)
      (session : ConversationSession) (promptTokens : List Token) (error : EngineError) (e : S)
      (next : CueBeeRuntime S)
      (hpop : VersionDeadlineScheduler.popNext r.currentVersions now r.scheduler = .ok (some task) q)
      (hpopping : Popping task branch session r next)
      (hencode : c.tokenizer.encode (promptOf task branch session) = some promptTokens)
      (hgenerate : c.engine.generate (newRequest task (promptOf task branch session) promptTokens)
        r.engine = .error error e)
      (hrun : runNext c now r = .error (.engine error) { next with engine := e })
  | landed (task : AnalysisTask PyFloat) (q : VersionDeadlineScheduler PyFloat) (branch : Branch)
      (session : ConversationSession) (promptTokens : List Token) (result : EngineResult) (e : S)
      (mid : CueBeeRuntime S) (outcome : TaskOutcome) (next : CueBeeRuntime S)
      (hpop : VersionDeadlineScheduler.popNext r.currentVersions now r.scheduler = .ok (some task) q)
      (hpopping : Popping task branch session r mid)
      (hencode : c.tokenizer.encode (promptOf task branch session) = some promptTokens)
      (hgenerate : c.engine.generate (newRequest task (promptOf task branch session) promptTokens)
        r.engine = .ok result e)
      (hsince : Since mid next)
      (hlanded : ∀ t, next.scheduler.tasks.get? task.taskId = some t → t.status.active = false)
      (hothers : ∀ j, j ≠ task.taskId →
        next.scheduler.tasks.get? j = mid.scheduler.tasks.get? j)
      (hrun : runNext c now r = .ok (some outcome) next)

theorem ran (c : Services S) (now : PyFloat) (h : InOrder r) : Ran c now r := by
  cases hpop : VersionDeadlineScheduler.popNext r.currentVersions now r.scheduler with
  | error e q =>
    obtain ⟨heffect,hstart⟩ := startNext_overflow c h hpop
    obtain ⟨rfl,-⟩ := VersionDeadlineScheduler.popped_of_error h.tasksNamed hpop
    exact .overflow q hpop heffect (bind_error hstart)
  | ok popped q =>
    cases popped with
    | none =>
      obtain ⟨heffect,hstart⟩ := startNext_idle c h hpop
      refine .idle q hpop heffect ?_
      simp only [runNext,bind_ok hstart]
      rfl
    | some task =>
      obtain ⟨branch,session,mid,hpopping,hengine,hraise,hreturn⟩ := startNext_popped c h hpop
      cases hencode : c.tokenizer.encode (promptOf task branch session) with
      | none =>
        exact .unencodable task q branch session mid hpop hpopping hencode
          (bind_error (hraise hencode))
      | some promptTokens =>
        have hstart := hreturn promptTokens hencode
        cases hgen : c.engine.generate (newRequest task (promptOf task branch session) promptTokens)
            r.engine with
        | error error e =>
          refine .failed task q branch session promptTokens error e mid hpop hpopping hencode hgen ?_
          have hraised : onEngine (c.engine.generate
              (newRequest task (promptOf task branch session) promptTokens)) mid =
              .error (.engine error) { mid with engine := e } := focus_error (by rw [hengine]; exact hgen)
          simp only [runNext,bind_ok hstart]
          exact bind_error hraised
        | ok result e =>
          have hanswered : onEngine (c.engine.generate
              (newRequest task (promptOf task branch session) promptTokens)) mid =
              .ok result { mid with engine := e } := focus_ok (by rw [hengine]; exact hgen)
          have hf := hpopping.inFlight (newRequest task (promptOf task branch session) promptTokens)
          have hmid := hpopping.since h
          obtain ⟨outcome,next,hfinish,hsince,hlanded,hothers⟩ := finishNext_landed
            (r := { mid with engine := e }) hmid.inOrder
            ⟨hf.branchId,hf.task,hf.branch,hf.runs⟩ result
          refine .landed task q branch session promptTokens result e mid outcome next hpop hpopping
            hencode hgen ⟨hsince.inOrder,hsince.lasting.sessions,hsince.lasting.tasks,
              hsince.lasting.branches⟩ hlanded hothers ?_
          simp only [runNext,bind_ok hstart,bind_ok hanswered,bind_ok hfinish]
          rfl

theorem since_runNext (now : PyFloat) : Keeps (Since start) (runNext c now) := by
  refine keeps_iff.mpr (fun r h => ?_)
  cases ran c now h.inOrder with
  | overflow q hpop heffect hrun =>
    exact Ensures.of_error hrun (h.trans ⟨inOrder_popped h.inOrder heffect,
      lasting_popped (fun id hid => by cases hid) heffect⟩)
  | idle q hpop heffect hrun =>
    exact Ensures.of_ok hrun (h.trans ⟨inOrder_popped h.inOrder heffect,
      lasting_popped (fun id hid => by cases hid) heffect⟩)
  | unencodable task q branch session next hpop hpopping hencode hrun =>
    exact Ensures.of_error hrun (h.trans (hpopping.since h.inOrder))
  | failed task q branch session promptTokens error e next hpop hpopping hencode hgen hrun =>
    exact Ensures.of_error hrun ((h.trans (hpopping.since h.inOrder)).congr rfl rfl rfl)
  | landed task q branch session promptTokens result e mid outcome next hpop hpopping hencode hgen
      hsince hlanded hothers hrun =>
    exact Ensures.of_ok hrun ((h.trans (hpopping.since h.inOrder)).trans hsince)

theorem inOrder_shed {dropped : List TaskId} (h : InOrder r)
    (heffect : Restatused (cancelBranches dropped) (shedTasks dropped)
      (fun id => id ∈ dropped.map branchIdOf) r next) : InOrder next := by
  refine heffect.toStatusChange.inOrder h (.refl _) (fun id b _ => cancelBranches_same _ id b)
    (fun j t _ => shedTasks_same _ j t) (fun id b _ hid ha => ?_) (fun j t b _ _ hq => ?_)
  · unfold cancelBranches
    rw [if_neg hid]
    exact ha
  · unfold shedTasks at hq
    by_cases hj : j ∈ dropped
    · rw [if_pos hj] at hq
      cases hq
    · rw [if_neg hj] at hq
      unfold cancelBranches
      rw [if_neg (mt branchIdOf_mem_map.mp hj)]
      exact ⟨hq,Or.inl⟩

theorem since_shedLoad (targetActive : ℤ) : Keeps (Since start) (shedLoad (S := S) targetActive) := by
  refine keeps_iff.mpr (fun r h => ?_)
  cases loadShed h.inOrder targetActive with
  | negative htarget hrun => exact Ensures.of_error hrun h
  | shed dropped next hqueued heffect hrun =>
    exact Ensures.of_ok hrun
      (h.trans ⟨inOrder_shed h.inOrder heffect,lasting_shed hqueued heffect⟩)

theorem since_exec (call : Call) : Keeps (Since start) (exec c call) := by
  cases call with
  | handleEvent event => exact keeps_bind (since_handleEvent event) (fun _ => keeps_pure _)
  | submitTask a => exact keeps_bind (since_submitTask a) (fun _ => keeps_pure _)
  | runNext now => exact keeps_bind (since_runNext now) (fun _ => keeps_pure _)
  | shedLoad targetActive => exact keeps_bind (since_shedLoad targetActive) (fun _ => keeps_pure _)
  | setGpuLoad load => exact fun _ h => h.congr rfl rfl rfl

theorem inOrder_init (blockSize : ℕ) (hblock : 0 < blockSize) (admissionCap : ℕ)
    (hcap : 0 < admissionCap) (e : S) : InOrder (init blockSize hblock admissionCap hcap e) :=
  (inv_init blockSize hblock admissionCap hcap e).inOrder

theorem since_run (calls : List Call) (h : InOrder r) : Since r (runAll (exec c) calls r) :=
  runAll_keeps since_exec calls (.refl h)

/-- What every event keeps of the sessions, every call keeps. -/
theorem sessions_exec {P : SessionManager → Prop}
    (happly : ∀ event, Keeps P (SessionManager.apply c.tokenizer event)) (call : Call) :
    Keeps (fun r : CueBeeRuntime S => P r.sessions) (exec c call) := by
  have hframe : Frame c (fun r : CueBeeRuntime S => P r.sessions) :=
    Aloof.frame ⟨fun _ _ h => h,fun _ _ h => h,fun _ _ h => h,fun _ _ h => h⟩
  exact hframe.steps.exec (fun event _ => sessions_handleEvent happly event) (fun _ _ _ h => h)

end CueBeeRuntime
end CueBee.Runtime
