import CueBee.Runtime.OrderlyRuns

/-! # What the engine is asked to do

The engine is put behind a log of its calls. An id enters the log by an abort or by a
generation; both leave the queue first, and no task returns to it. Nothing is assumed of the
engine or of the tokenizer: calls that raise are in the log as well.
-/
namespace CueBee.Runtime
open Cache Transcript Raising ConversationSession SessionManager VersionedKVManager PyStr
open VersionDeadlineScheduler (cancelStale)

inductive EngineCall
  | prefill (sessionId : SessionId) (tokenIds : List Token) (version : ℕ) (tentative : Bool)
  | generate (request : EngineRequest)
  | abort (taskId : TaskId)
  | updateSession (update : SessionRevisionUpdate)
deriving DecidableEq

/-- The task that a call is about. -/
def EngineCall.task : EngineCall → Option TaskId
  | .generate request => some request.taskId
  | .abort taskId => some taskId
  | .prefill _ _ _ _ | .updateSession _ => none

/-- The task that a call generates. -/
def EngineCall.generated : EngineCall → Option TaskId
  | .generate request => some request.taskId
  | .prefill _ _ _ _ | .abort _ | .updateSession _ => none

namespace Engine
variable {S : Type}

/-- A call that is logged before it is made. -/
def noted {α : Type} (call : EngineCall) (x : EStateM EngineError S α) :
    EStateM EngineError (S × List EngineCall) α := do
  modify (fun p => (p.1,p.2 ++ [call]))
  focus Prod.fst (fun s p => (s,p.2)) id x

/-- The same engine together with the log of its calls. -/
def logged (engine : Engine S) : Engine (S × List EngineCall) where
  prefill sessionId tokenIds version tentative :=
    noted (.prefill sessionId tokenIds version tentative)
      (engine.prefill sessionId tokenIds version tentative)
  generate request := noted (.generate request) (engine.generate request)
  abort taskId := noted (.abort taskId) (engine.abort taskId)
  updateSession := engine.updateSession.map (fun f update => noted (.updateSession update) (f update))

theorem noted_log {α : Type} (call : EngineCall) (x : EStateM EngineError S α)
    (p : S × List EngineCall) : (after (noted call x) p).2 = p.2 ++ [call] := by
  refine Ensures.after (I := fun q : S × List EngineCall => q.2 = p.2 ++ [call]) ?_
  refine ensures_bind.mpr (Ensures.of_ok (modify_apply _ p) (ensures_focus.mpr ?_))
  unfold Ensures
  cases x p.1 <;> rfl

end Engine

/-- The same services with the engine behind the log. -/
def Services.logged {S : Type} (c : Services S) : Services (S × List EngineCall) where
  tokenizer := c.tokenizer
  engine := c.engine.logged
  tentativePolicy := c.tentativePolicy

/-- No generation is for a task that an earlier call was about. -/
def Unrepeated (log : List EngineCall) : Prop :=
  ∀ before request rest, log = before ++ .generate request :: rest →
    ∀ call ∈ before, call.task ≠ some request.taskId

theorem unrepeated_nil : Unrepeated [] := by
  intro before request rest h
  cases before <;> cases h

/-- One more call: a generation must be for a task that no call was about. -/
theorem Unrepeated.concat {log : List EngineCall} (h : Unrepeated log) {last : EngineCall}
    (hlast : ∀ request, last = .generate request → ∀ call ∈ log, call.task ≠ some request.taskId) :
    Unrepeated (log ++ [last]) := by
  intro before request rest hsplit
  rcases List.eq_nil_or_concat' rest with rfl | ⟨init,final,rfl⟩
  · obtain ⟨hbefore,hcall⟩ := List.append_inj' hsplit rfl
    cases hcall
    exact hbefore ▸ hlast request rfl
  · have hsplit' : log ++ [last] = (before ++ .generate request :: init) ++ [final] := by
      rw [hsplit]
      simp
    exact h before request init (List.append_inj' hsplit' rfl).1

theorem Unrepeated.append {log new : List EngineCall} (h : Unrepeated log)
    (hnew : ∀ request, .generate request ∉ new) : Unrepeated (log ++ new) := by
  induction new using List.reverseRecOn with
  | nil => rwa [List.append_nil]
  | append_singleton new last ih =>
    rw [← List.append_assoc]
    refine (ih (fun request hin => hnew request (List.mem_append_left _ hin))).concat ?_
    rintro request rfl
    exact absurd (List.mem_append_right _ List.mem_cons_self) (hnew request)

theorem mem_generated {log : List EngineCall} {id : TaskId} :
    id ∈ log.filterMap EngineCall.generated ↔
      ∃ request, .generate request ∈ log ∧ request.taskId = id := by
  rw [List.mem_filterMap]
  constructor
  · rintro ⟨call,hcall,hid⟩
    cases call with
    | generate request => exact ⟨request,hcall,Option.some.inj hid⟩
    | prefill _ _ _ _ | abort _ | updateSession _ => cases hid
  · rintro ⟨request,hrequest,rfl⟩
    exact ⟨_,hrequest,rfl⟩

theorem Unrepeated.nodup {log : List EngineCall} (h : Unrepeated log) :
    (log.filterMap EngineCall.generated).Nodup := by
  induction log using List.reverseRecOn with
  | nil => exact List.nodup_nil
  | append_singleton log last ih =>
    have hlog : Unrepeated log := fun before request rest hsplit =>
      h before request (rest ++ [last]) (by rw [hsplit]; simp)
    rw [List.filterMap_append]
    refine List.Nodup.append (ih hlog) ?_ ?_
    · cases hlast : last.generated with
      | none => simp [hlast]
      | some id => simp [hlast]
    · intro id hold hnew
      obtain ⟨request,hrequest,rfl⟩ := mem_generated.mp hnew
      obtain ⟨earlier,hearlier,hid⟩ := mem_generated.mp hold
      have hlast := List.mem_singleton.mp hrequest
      exact h log request [] (by rw [hlast]) _ hearlier (congrArg some hid)

namespace CueBeeRuntime
variable {S : Type} {c : Services S} {start r next : CueBeeRuntime (S × List EngineCall)}

/-- A task that has left the queue. -/
def Unqueued {T : Type} (r : CueBeeRuntime T) (j : TaskId) : Prop :=
  ∃ t, r.scheduler.tasks.get? j = some t ∧ t.status ≠ .queued

theorem Unqueued.lasting {T : Type} {r next : CueBeeRuntime T} {j : TaskId} (h : Unqueued r j)
    (hr : Lasting r next) : Unqueued next j := by
  obtain ⟨t,ht,hne⟩ := h
  obtain ⟨t',ht',-,hlater⟩ := hr.tasks j t ht
  refine ⟨t',ht',?_⟩
  rcases hlater with hs | ⟨-,hs⟩
  · exact hs ▸ hne
  · exact hs

/-- A task that has ended. -/
def Over {T : Type} (r : CueBeeRuntime T) (id : TaskId) : Prop :=
  ∃ t, r.scheduler.tasks.get? id = some t ∧ t.status.active = false

theorem Over.lasting {T : Type} {r next : CueBeeRuntime T} {id : TaskId} (h : Over r id)
    (hr : Lasting r next) : Over next id := by
  obtain ⟨t,ht,hover⟩ := h
  obtain ⟨t',ht',hsame⟩ := hr.task_final ht hover
  exact ⟨t',ht',hsame ▸ hover⟩

theorem Over.unqueued {T : Type} {r : CueBeeRuntime T} {id : TaskId} (h : Over r id) :
    Unqueued r id := by
  obtain ⟨t,ht,hover⟩ := h
  refine ⟨t,ht,?_⟩
  intro hq
  rw [hq] at hover
  cases hover

/-- A request carries the data of its task. -/
def Requested {T : Type} (r : CueBeeRuntime T) (request : EngineRequest) : Prop :=
  ∃ t, r.scheduler.tasks.get? request.taskId = some t ∧ request.sessionId = t.sessionId ∧
    request.baseVersion = t.baseVersion ∧ request.maxOutputTokens = t.estimatedTokens

theorem Requested.lasting {T : Type} {r next : CueBeeRuntime T} {request : EngineRequest}
    (h : Requested r request) (hr : Lasting r next) : Requested next request := by
  obtain ⟨t,ht,hsession,hversion,hmax⟩ := h
  obtain ⟨t',ht',hsame,-⟩ := hr.tasks _ t ht
  exact ⟨t',ht',by rw [hsame]; exact hsession,by rw [hsame]; exact hversion,by rw [hsame]; exact hmax⟩

/-- The log and the tasks agree. -/
structure Logged (r : CueBeeRuntime (S × List EngineCall)) : Prop where
  unrepeated : Unrepeated r.engine.2
  unqueued : ∀ call ∈ r.engine.2, ∀ id ∈ call.task, Unqueued r id
  aborted : ∀ id, .abort id ∈ r.engine.2 → Over r id
  requested : ∀ request, .generate request ∈ r.engine.2 → Requested r request
  completed : ∀ id t, r.scheduler.tasks.get? id = some t → t.status = .completed →
    ∃ request, .generate request ∈ r.engine.2 ∧ request.taskId = id

/-- Between two moments of one event: what was logged is about no task, or an abort of a task
that has ended. -/
structure Watched (start r : CueBeeRuntime (S × List EngineCall)) : Prop where
  since : Since start r
  log : ∃ new, r.engine.2 = start.engine.2 ++ new ∧
    ∀ call ∈ new, ∀ id ∈ call.task, call = .abort id ∧ Over r id

/-- `new` is about no task. -/
def Adds (log log' : List EngineCall) : Prop :=
  ∃ new, log' = log ++ new ∧ ∀ call ∈ new, call.task = none

theorem Watched.step (h : Watched start r) (hr : Since r next) (hlog : Adds r.engine.2 next.engine.2) :
    Watched start next := by
  obtain ⟨new,hnew,hwatch⟩ := h.log
  obtain ⟨more,hmore,hquiet⟩ := hlog
  refine ⟨h.since.trans hr,new ++ more,by rw [hmore,hnew,List.append_assoc],?_⟩
  intro call hcall id hid
  rcases List.mem_append.mp hcall with hcall | hcall
  · obtain ⟨habort,hover⟩ := hwatch call hcall id hid
    exact ⟨habort,hover.lasting hr.lasting⟩
  · rw [hquiet call hcall] at hid
    cases hid

theorem Adds.refl (log : List EngineCall) : Adds log log := ⟨[],by simp,by simp⟩

/-- One call that leaves a state reached from `r`, and logs nothing about a task. -/
theorem Watched.ensures {α : Type} {x : EStateM RuntimeError (CueBeeRuntime (S × List EngineCall)) α}
    (h : Watched start r) (hsince : Ensures x r (fun _ => Since r) (fun _ => Since r))
    (hlog : ∀ log, Keeps (fun r => Adds log r.engine.2) x) :
    Ensures x r (fun _ => Watched start) (fun _ => Watched start) := by
  have hadds := keeps_iff.mp (hlog r.engine.2) r (.refl _)
  unfold Ensures at *
  cases hx : x r with
  | ok a next =>
    rw [hx] at hsince hadds
    exact h.step hsince hadds
  | error e next =>
    rw [hx] at hsince hadds
    exact h.step hsince hadds

theorem keeps_watched {α : Type} {x : EStateM RuntimeError (CueBeeRuntime (S × List EngineCall)) α}
    (hsince : ∀ start, Keeps (Since start) x)
    (hlog : ∀ log, Keeps (fun r => Adds log r.engine.2) x) : Keeps (Watched start) x :=
  keeps_iff.mpr (fun r hr =>
    hr.ensures (keeps_iff.mp (hsince r) r (.refl hr.since.inOrder)) hlog)

theorem keeps_adds_noted {α : Type} {call : EngineCall} (hcall : call.task = none)
    (x : EStateM EngineError S α) (log : List EngineCall) :
    Keeps (fun p : S × List EngineCall => Adds log p.2) (Engine.noted call x) := by
  rintro p ⟨new,hnew,hquiet⟩
  refine ⟨new ++ [call],by rw [Engine.noted_log,hnew,List.append_assoc],fun other hother => ?_⟩
  rcases List.mem_append.mp hother with hother | hother
  · exact hquiet other hother
  · rw [List.mem_singleton.mp hother]
    exact hcall

/-- A call on the engine is logged, whether it returns or raises. -/
theorem log_onEngine {α : Type} (call : EngineCall) (x : EStateM EngineError S α)
    (r : CueBeeRuntime (S × List EngineCall)) :
    (after (onEngine (Engine.noted call x)) r).engine.2 = r.engine.2 ++ [call] := by
  rw [← Engine.noted_log call x r.engine]
  unfold after onEngine focus
  cases Engine.noted call x r.engine <;> rfl

theorem Watched.abort (h : Watched start r) {id : TaskId} (hover : Over r id) :
    Watched start (after (onEngine (c.logged.engine.abort id)) r) := by
  have hstep : Since r (after (onEngine (c.logged.engine.abort id)) r) :=
    since_engine _ r (.refl h.since.inOrder)
  have hlog := log_onEngine (.abort id) (c.engine.abort id) r
  obtain ⟨new,hnew,hwatch⟩ := h.log
  refine ⟨h.since.trans hstep,new ++ [.abort id],?_,fun call hcall j hj => ?_⟩
  · rw [← List.append_assoc,← hnew]
    exact hlog
  · rcases List.mem_append.mp hcall with hcall | hcall
    · exact ⟨(hwatch call hcall j hj).1,(hwatch call hcall j hj).2.lasting hstep.lasting⟩
    · rw [List.mem_singleton.mp hcall] at hj ⊢
      cases hj
      exact ⟨rfl,hover.lasting hstep.lasting⟩

/-- One round of the loop over the invalidated tasks: the task has ended when it is aborted. -/
theorem keeps_watched_cancelInvalidated (ids : List TaskId) :
    Keeps (Watched start) (cancelInvalidated c.logged ids) := by
  induction ids with
  | nil => exact keeps_pure _
  | cons id rest ih =>
    refine keeps_iff.mpr (fun r hr => ?_)
    have hsince := (since_cancelTask id .transcriptRevision : Keeps (Since r) _) r
      (.refl hr.since.inOrder)
    cases ht : r.scheduler.tasks.get? id with
    | none =>
      have hget : VersionDeadlineScheduler.get id r.scheduler = .error (.unknownTask id) r.scheduler := by
        simp only [VersionDeadlineScheduler.get,ht]
      have hcancel : onScheduler (VersionDeadlineScheduler.cancel id .transcriptRevision) r =
          .error (.scheduler (.unknownTask id)) r := focus_error (bind_error hget)
      exact Ensures.of_error (bind_error hcancel) hr
    | some t =>
      obtain ⟨q,hcancel,-,hq⟩ :=
        VersionDeadlineScheduler.cancel_ok hr.since.inOrder.tasksNamed ht .transcriptRevision
      have hcall := onScheduler_ok hcancel
      rw [after_ok hcall] at hsince
      have hmid : Watched start { r with scheduler := q } := hr.step hsince (.refl _)
      have hover : Over { r with scheduler := q } id :=
        ⟨_,(hq id).trans (if_pos rfl),t.stop_inactive (by decide) _⟩
      refine ensures_bind.mpr (Ensures.of_ok hcall (ensures_bind.mpr ?_))
      have habort := hmid.abort (c := c) hover
      have hrest : Keeps (Watched start) (do
          inc (S := S × List EngineCall) .tasksInvalidated 1
          cancelInvalidated c.logged rest) :=
        keeps_bind (keeps_watched (fun _ => since_inc _ _) (fun log => keeps_modify (fun _ hr => hr)))
          (fun _ => ih)
      unfold Ensures
      cases hx : onEngine (c.logged.engine.abort id) { r with scheduler := q } with
      | ok aborted r1 =>
        rw [after_ok hx] at habort
        exact keeps_iff.mp hrest r1 habort
      | error e r1 => rwa [after_error hx] at habort

/-- The cache part of an event tells the engine about no task. -/
theorem keeps_watched_updateCache (event : STTEvent) (diff : TranscriptDiff) :
    Keeps (Watched start) (updateCache c.logged event diff) := by
  refine keeps_watched (fun _ => cacheFrame_since.updateCache event diff) (fun log => ?_)
  refine keeps_ite (fun _ => keeps_pure _) (fun _ => engine_reviseCache (c := c.logged)
    (J := fun p : S × List EngineCall => Adds log p.2)
    (fun _ _ _ _ _ => keeps_adds_noted rfl _ log) (fun f hf update => ?_) event diff)
  obtain ⟨g,-,rfl⟩ := Option.map_eq_some_iff.mp hf
  exact keeps_adds_noted rfl (g update) log

theorem handleEvent_watched (event : STTEvent) (h : InOrder r) :
    Watched r (after (handleEvent c.logged event) r) := by
  have hmoved : ∀ {m : SessionManager} (a : RevisionAdapter), Progress r.sessions m →
      Watched r { r with revisions := a, sessions := m } := fun a hm =>
    ⟨⟨h.sessions hm,lasting_sessions hm rfl rfl⟩,[],by simp,by simp⟩
  cases handled c.logged event r with
  | dropped a hnorm hrun =>
    rw [after_ok hrun]
    exact ⟨(Since.refl h).congr rfl rfl rfl,[],by simp,by simp⟩
  | rejected e a error m hnorm happly hrun =>
    have hprog := apply_progress c.logged.tokenizer e r.sessions
    rw [after_error happly] at hprog
    rw [after_error hrun]
    exact hmoved a hprog
  | accepted e a diff m hnorm happly hrun =>
    obtain ⟨-,session,hacc,hinst⟩ := apply_ok happly
    have hstart := hmoved a (hinst.progress hacc.advances)
    have hvalidate : Keeps (Watched r) (onKV (S := S × List EngineCall)
        VersionedKVManager.validateRefCounts) := keeps_watched
      (fun _ => keeps_iff.mpr (fun r hr =>
        Ensures.of_ok (onKV_ok (validateRefCounts_spec hr.inOrder.sound.ledger)) hr))
      (fun _ => keeps_onKV (fun _ _ hr => hr) _)
    have hcount : Watched r { r with
        revisions := a
        sessions := m
        metrics := MetricRegistry.inc .sttEventsAccepted 1 r.metrics } :=
      ⟨hstart.since.congr rfl rfl rfl,hstart.log⟩
    have hafter : Ensures (afterApply c.logged e diff) { r with revisions := a, sessions := m }
        (fun _ => Watched r) (fun _ => Watched r) := by
      refine ensures_bind.mpr (Ensures.of_ok (modify_apply _ _) ?_)
      refine Ensures.bind (hcount.ensures (since_invalidate (.refl hcount.since.inOrder) h hacc hinst)
        (fun _ => keeps_onGraph (fun _ _ hr => hr) _)) (fun ids r1 h1 => ?_)
      refine keeps_iff.mp ?_ r1 h1
      exact keeps_bind (keeps_watched_cancelInvalidated ids) (fun _ =>
        keeps_bind (keeps_watched_updateCache e diff) (fun _ =>
          keeps_bind hvalidate (fun _ => keeps_pure _)))
    have hgoal := hafter.after
    unfold after at hgoal ⊢
    rwa [hrun]

/-- Every task that has been completed is one of `done`. -/
def CompletedIn (done : TaskId → Prop) (q : VersionDeadlineScheduler PyFloat) : Prop :=
  q.Named ∧ ∀ id t, q.tasks.get? id = some t → t.status = .completed → done id

theorem completedIn_cancel {done : TaskId → Prop} (id : TaskId) (reason : CancelReason) :
    Keeps (CompletedIn done) (VersionDeadlineScheduler.cancel id reason) := by
  refine keeps_iff.mpr (fun q hq => ?_)
  cases hget : q.tasks.get? id with
  | none =>
    have hunknown : VersionDeadlineScheduler.get id q = .error (.unknownTask id) q := by
      simp only [VersionDeadlineScheduler.get,hget]
    exact Ensures.of_error (bind_error hunknown) hq
  | some task =>
    obtain ⟨next,hrun,hnamed,htasks⟩ := VersionDeadlineScheduler.cancel_ok hq.1 hget reason
    refine Ensures.of_ok hrun ⟨hnamed,fun j t ht hdone => ?_⟩
    rw [htasks] at ht
    split at ht
    · next hj =>
      cases ht
      rw [hj]
      refine hq.2 id task hget ?_
      unfold AnalysisTask.stop at hdone
      split at hdone
      · cases hdone
      · exact hdone
    · exact hq.2 j t ht hdone

theorem completedIn_shedLoad {done : TaskId → Prop} (targetActive : ℤ) :
    Keeps (CompletedIn done) (VersionDeadlineScheduler.shedLoad targetActive) := by
  refine keeps_iff.mpr (fun q hq => ?_)
  by_cases htarget : targetActive < 0
  · exact Ensures.of_error (VersionDeadlineScheduler.shedLoad_negative htarget) hq
  · obtain ⟨dropped,next,hrun,hshed⟩ := VersionDeadlineScheduler.shedLoad_ok hq.1 (not_lt.mp htarget)
    refine Ensures.of_ok hrun ⟨hshed.named,fun j t ht hdone => ?_⟩
    rw [hshed.tasks] at ht
    obtain ⟨before,hbefore,rfl⟩ := Option.map_eq_some_iff.mp ht
    split at hdone
    · cases hdone
    · exact hq.2 j before hbefore hdone

/-- A popped queue has no new completed task. -/
theorem completed_popTask {versions : SessionId → Option ℕ} {popped : Option TaskId} {id : TaskId}
    {t : AnalysisTask PyFloat} (h : (popTask versions popped id t).status = .completed) :
    t.status = .completed := by
  unfold popTask at h
  split at h
  · cases h
  · unfold cancelStale at h
    split at h
    · cases h
    · exact h

variable (r) in
/-- The tasks that were generated. -/
def Generated (id : TaskId) : Prop := ∃ request, .generate request ∈ r.engine.2 ∧ request.taskId = id

/-- The log does not change, and no task is completed. -/
theorem Logged.quiet (h : Logged r) (hlog : next.engine.2 = r.engine.2) (hr : Lasting r next)
    (hdone : ∀ id t, next.scheduler.tasks.get? id = some t → t.status = .completed → Generated r id) :
    Logged next where
  unrepeated := hlog ▸ h.unrepeated
  unqueued call hcall id hid := (h.unqueued call (hlog ▸ hcall) id hid).lasting hr
  aborted id hid := (h.aborted id (hlog ▸ hid)).lasting hr
  requested request hrequest := (h.requested request (hlog ▸ hrequest)).lasting hr
  completed id t ht hs := by
    rw [hlog]
    exact hdone id t ht hs

theorem logged_handleEvent (event : STTEvent) (hr : InOrder r) (h : Logged r) :
    Logged (after (handleEvent c.logged event) r) := by
  have hwatched := handleEvent_watched (c := c) event hr
  have hdone := tasks_handleEvent (c := c.logged) (J := CompletedIn (Generated r))
    completedIn_cancel event r ⟨hr.tasksNamed,h.completed⟩
  generalize after (handleEvent c.logged event) r = next at hwatched hdone
  obtain ⟨new,hnew,hwatch⟩ := hwatched.log
  have hlasting := hwatched.since.lasting
  have hold : ∀ call ∈ next.engine.2, call ∈ r.engine.2 ∨ call ∈ new := fun call hcall =>
    List.mem_append.mp (hnew ▸ hcall)
  refine ⟨?_,fun call hcall id hid => ?_,fun id hid => ?_,fun request hrequest => ?_,fun id t ht hs => ?_⟩
  · rw [hnew]
    refine h.unrepeated.append (fun request hin => ?_)
    cases (hwatch _ hin _ rfl).1
  · rcases hold call hcall with hin | hin
    · exact (h.unqueued call hin id hid).lasting hlasting
    · exact (hwatch call hin id hid).2.unqueued
  · rcases hold _ hid with hin | hin
    · exact (h.aborted id hin).lasting hlasting
    · exact (hwatch _ hin id rfl).2
  · rcases hold _ hrequest with hin | hin
    · exact (h.requested request hin).lasting hlasting
    · cases (hwatch _ hin _ rfl).1
  · obtain ⟨request,hrequest,hid⟩ := hdone.2 id t ht hs
    exact ⟨request,hnew ▸ List.mem_append_left new hrequest,hid⟩

theorem logged_submitTask (a : Submission) (hr : InOrder r) (h : Logged r) :
    Logged (after (submitTask c.logged a) r) := by
  have hengine := engine_submitTask (c := c.logged) a r.engine r rfl
  have hsince := since_submitTask (c := c.logged) a r (.refl hr)
  refine h.quiet (congrArg Prod.snd hengine) hsince.lasting (fun id t ht hs => h.completed id t ?_ hs)
  cases submitted c.logged a hr with
  | unknownSession hget hrun | branchExists session branch hget hbranch hrun =>
    rwa [after_error hrun] at ht
  | abandoned session e tokens next hget hnew hfail he hadded htasks hrun
  | refused session e next hget hnew hadded htasks hrun =>
    rwa [after_error hrun,htasks] at ht
  | accepted session promptTokens deadline next hget hnew hencode hadded hdeadline htasks hrun =>
    rw [after_ok hrun,htasks,VersionDeadlineScheduler.get?_store] at ht
    split at ht
    · cases ht
      cases hs
    · exact ht

theorem logged_shedLoad (c : Services S) (targetActive : ℤ) (hr : InOrder r) (h : Logged r) :
    Logged (after (shedLoad (S := S × List EngineCall) targetActive) r) :=
  h.quiet (congrArg Prod.snd (engine_shedLoad targetActive c.logged r.engine r rfl))
    (since_shedLoad targetActive r (.refl hr)).lasting
    (tasks_shedLoad completedIn_shedLoad targetActive r ⟨hr.tasksNamed,h.completed⟩).2

/-- The popped task is about to be generated: it has been queued until now. -/
theorem Logged.unmentioned (h : Logged r) {task : AnalysisTask PyFloat} {branch : Branch}
    {session : ConversationSession} (hpop : Popping task branch session r next) :
    ∀ call ∈ r.engine.2, call.task ≠ some task.taskId := by
  intro call hcall hid
  obtain ⟨before,hget,hqueued,-⟩ := hpop.source
  obtain ⟨t,ht,hne⟩ := h.unqueued call hcall _ hid
  rw [hget,Option.some.injEq] at ht
  exact hne (ht ▸ hqueued)

/-- The generation of a task that has just been popped. -/
theorem Logged.generated (h : Logged r) (hlog : next.engine.2 = r.engine.2) (hr : InOrder r)
    {task : AnalysisTask PyFloat} {branch : Branch} {session : ConversationSession} {prompt : PyStr}
    {promptTokens : List Token} (hpop : Popping task branch session r next)
    {e : S × List EngineCall}
    (he : e.2 = next.engine.2 ++ [.generate (newRequest task prompt promptTokens)]) :
    Logged { next with engine := e } := by
  have hsince : Since r { next with engine := e } := (hpop.since hr).congr rfl rfl rfl
  have hself : next.scheduler.tasks.get? task.taskId = some task := by
    obtain ⟨before,hget,-,htask⟩ := hpop.source
    rw [hpop.effect.tasks,hget,Option.map_some,popTask,if_pos rfl,← htask]
  have hold : ∀ call ∈ e.2, call ∈ r.engine.2 ∨ call = .generate (newRequest task prompt promptTokens) := by
    intro call hcall
    rw [he,hlog] at hcall
    exact (List.mem_append.mp hcall).imp_right List.mem_singleton.mp
  refine ⟨?_,fun call hcall id hid => ?_,fun id hid => ?_,fun request hrequest => ?_,fun id t ht hs => ?_⟩
  · show Unrepeated e.2
    rw [he,hlog]
    refine h.unrepeated.concat (fun request hrequest => ?_)
    cases hrequest
    exact h.unmentioned hpop
  · rcases hold call hcall with hin | rfl
    · exact (h.unqueued call hin id hid).lasting hsince.lasting
    · cases hid
      obtain ⟨before,-,-,htask⟩ := hpop.source
      exact ⟨task,hself,by rw [htask]; simp⟩
  · rcases hold _ hid with hin | hin
    · exact (h.aborted id hin).lasting hsince.lasting
    · cases hin
  · rcases hold _ hrequest with hin | hin
    · exact (h.requested request hin).lasting hsince.lasting
    · cases hin
      exact ⟨task,hself,rfl,rfl,rfl⟩
  · change next.scheduler.tasks.get? id = some t at ht
    rw [hpop.effect.tasks] at ht
    obtain ⟨before,hbefore,rfl⟩ := Option.map_eq_some_iff.mp ht
    obtain ⟨request,hrequest,hid⟩ := h.completed id before hbefore (completed_popTask hs)
    refine ⟨request,?_,hid⟩
    show _ ∈ e.2
    rw [he,hlog]
    exact List.mem_append_left _ hrequest

/-- A task is popped: it is generated unless its prompt cannot be encoded. -/
theorem logged_popped {now : PyFloat} {task : AnalysisTask PyFloat}
    {q : VersionDeadlineScheduler PyFloat} (hr : InOrder r) (h : Logged r)
    (hpop : VersionDeadlineScheduler.popNext r.currentVersions now r.scheduler = .ok (some task) q) :
    Logged (after (runNext c.logged now) r) := by
  obtain ⟨branch,session,mid,hpopping,hengine,hraise,hreturn⟩ := startNext_popped c.logged hr hpop
  have hmid := hpopping.since hr
  cases hencode : c.tokenizer.encode (promptOf task branch session) with
  | none =>
    rw [after_error (show runNext c.logged now r = .error .encode mid from
      bind_error (hraise hencode))]
    refine h.quiet (congrArg Prod.snd hengine) hmid.lasting (fun id t ht hs => ?_)
    rw [hpopping.effect.tasks] at ht
    obtain ⟨before,hbefore,rfl⟩ := Option.map_eq_some_iff.mp ht
    exact h.completed id before hbefore (completed_popTask hs)
  | some promptTokens =>
    have hstart := hreturn promptTokens hencode
    obtain ⟨request,hrequest⟩ :
        ∃ request, newRequest task (promptOf task branch session) promptTokens = request := ⟨_,rfl⟩
    rw [hrequest] at hstart
    have hlog := Engine.noted_log (.generate request) (c.engine.generate request) mid.engine
    cases hgen : c.logged.engine.generate request mid.engine with
    | error error e =>
      rw [after_error (show Engine.noted _ _ _ = _ from hgen)] at hlog
      have hrun : runNext c.logged now r = .error (.engine error) { mid with engine := e } := by
        simp only [runNext,bind_ok hstart]
        exact bind_error (focus_error hgen)
      rw [after_error hrun]
      exact h.generated (congrArg Prod.snd hengine) hr hpopping (hrequest ▸ hlog)
    | ok result e =>
      rw [after_ok (show Engine.noted _ _ _ = _ from hgen)] at hlog
      have hgenerated : Logged { mid with engine := e } :=
        h.generated (congrArg Prod.snd hengine) hr hpopping (hrequest ▸ hlog)
      have hf := hpopping.inFlight request
      obtain ⟨outcome,next,hfinish,hsince,-,hothers⟩ := finishNext_landed
        (r := { mid with engine := e }) hmid.inOrder ⟨hf.branchId,hf.task,hf.branch,hf.runs⟩ result
      have hrun : runNext c.logged now r = .ok (some outcome) next := by
        have hanswered : onEngine (c.logged.engine.generate request) mid =
            .ok result { mid with engine := e } := focus_ok hgen
        simp only [runNext,bind_ok hstart,bind_ok hanswered,bind_ok hfinish]
        rfl
      have hsame := engine_finishNext ⟨task,branchIdOf task.taskId,request⟩ result c.logged e
        { mid with engine := e } rfl
      rw [after_ok hfinish] at hsame
      rw [after_ok hrun]
      refine hgenerated.quiet (congrArg Prod.snd hsame) hsince.lasting (fun id t ht hs => ?_)
      by_cases hid : id = task.taskId
      · refine ⟨request,?_,by rw [← hrequest,hid]; rfl⟩
        show _ ∈ e.2
        rw [hlog]
        exact List.mem_append_right _ List.mem_cons_self
      · rw [hothers id hid] at ht
        exact hgenerated.completed id t ht hs

/-- The queue is swept, and no task is popped. -/
theorem Logged.swept (h : Logged r) {q : VersionDeadlineScheduler PyFloat}
    (heffect : Restatused (popBranch none) (popTask r.currentVersions none) (fun _ => False)
      r { r with scheduler := q }) : Logged { r with scheduler := q } := by
  refine h.quiet rfl (lasting_popped (fun id hid => by cases hid) heffect) (fun id t ht hs => ?_)
  rw [heffect.tasks] at ht
  obtain ⟨before,hbefore,rfl⟩ := Option.map_eq_some_iff.mp ht
  exact h.completed id before hbefore (completed_popTask hs)

theorem logged_runNext (now : PyFloat) (hr : InOrder r) (h : Logged r) :
    Logged (after (runNext c.logged now) r) := by
  cases hpop : VersionDeadlineScheduler.popNext r.currentVersions now r.scheduler with
  | error e q =>
    obtain ⟨heffect,hstart⟩ := startNext_overflow c.logged hr hpop
    have hrun : runNext c.logged now r = .error (.scheduler .overflow) { r with scheduler := q } :=
      bind_error hstart
    rw [after_error hrun]
    exact h.swept heffect
  | ok popped q =>
    cases popped with
    | none =>
      obtain ⟨heffect,hstart⟩ := startNext_idle c.logged hr hpop
      have hrun : runNext c.logged now r = .ok none { r with scheduler := q } := by
        simp only [runNext,bind_ok hstart]
        rfl
      rw [after_ok hrun]
      exact h.swept heffect
    | some task => exact logged_popped hr h hpop

theorem keeps_logged (call : Call) :
    Keeps (fun r => InOrder r ∧ Logged r) (exec c.logged call) := by
  rintro r ⟨hr,h⟩
  refine ⟨(since_exec call r (.refl hr)).inOrder,?_⟩
  cases call with
  | handleEvent event =>
    rw [exec,after_discard]
    exact logged_handleEvent event hr h
  | submitTask a =>
    rw [exec,after_discard]
    exact logged_submitTask a hr h
  | runNext now =>
    rw [exec,after_discard]
    exact logged_runNext now hr h
  | shedLoad targetActive =>
    rw [exec,after_discard]
    exact logged_shedLoad c targetActive hr h
  | setGpuLoad load =>
    have hsince : Since r { r with gpuLoad := load } := (Since.refl hr).congr rfl rfl rfl
    exact h.quiet rfl hsince.lasting h.completed

theorem logged_init (blockSize : ℕ) (hblock : 0 < blockSize) (admissionCap : ℕ)
    (hcap : 0 < admissionCap) (e : S) : Logged (init blockSize hblock admissionCap hcap (e,[])) where
  unrepeated := unrepeated_nil
  unqueued call hcall := by cases hcall
  aborted id hid := by cases hid
  requested request hrequest := by cases hrequest
  completed id t ht := by cases ht

/-- The calls on the engine so far. -/
def engineLog (r : CueBeeRuntime (S × List EngineCall)) : List EngineCall := r.engine.2

def statusOf {T : Type} (r : CueBeeRuntime T) (id : TaskId) : Option TaskStatus :=
  (r.scheduler.tasks.get? id).map AnalysisTask.status

end CueBeeRuntime
open CueBeeRuntime

theorem engine_asked_once {S : Type} (c : Services S) (blockSize : ℕ) (hblock : 0 < blockSize)
    (admissionCap : ℕ) (hcap : 0 < admissionCap) (e : S) (calls : List Call) :
    let r := runAll (exec c.logged) calls (init blockSize hblock admissionCap hcap (e,[]))
    (∀ before request rest, engineLog r = before ++ .generate request :: rest →
      ∀ call ∈ before, call.task ≠ some request.taskId) ∧
    (∀ request, .generate request ∈ engineLog r → Requested r request ∧ Unqueued r request.taskId) ∧
    (∀ id, .abort id ∈ engineLog r → ∃ status, statusOf r id = some status ∧ status.active = false) ∧
    ∀ id, statusOf r id = some .completed →
      ((engineLog r).filterMap EngineCall.generated).count id = 1 := by
  intro r
  have h : Logged r := (runAll_keeps keeps_logged calls
    ⟨inOrder_init blockSize hblock admissionCap hcap _,
      logged_init blockSize hblock admissionCap hcap e⟩).2
  refine ⟨h.unrepeated,fun request hrequest => ⟨h.requested request hrequest,
    h.unqueued _ hrequest request.taskId rfl⟩,fun id hid => ?_,fun id hdone => ?_⟩
  · obtain ⟨t,ht,hover⟩ := h.aborted id hid
    exact ⟨t.status,by rw [statusOf,ht]; rfl,hover⟩
  · obtain ⟨t,ht,hs⟩ := Option.map_eq_some_iff.mp hdone
    exact List.count_eq_one_of_mem h.unrepeated.nodup (mem_generated.mpr (h.completed id t ht hs))

/-- A hint is aborted by a revision, and a query is generated. -/
theorem engine_asked_once_revision :
    let c := quietServices lenientTokenizer
    let calls : List Call := [
      .handleEvent (heard "g" 0 .appendPartial "hello there" (by decide) (by decide)),
      .submitTask (asked "t" .proactiveHint (lit "why")),
      .handleEvent (heard "g" 1 .commitFinal "hello you" (by decide) (by decide)),
      .submitTask (asked "q" .userQuery (lit "who")),
      .runNext (.fin 1),
      .runNext (.fin 2)]
    let r := runAll (exec c.logged) calls (init 4 (by decide) 8 (by decide) ((),[]))
    (∃ status, statusOf r (lit "t") = some status ∧ status.active = false) ∧
    ((engineLog r).filterMap EngineCall.generated).count (lit "q") = 1 ∧
    (engineLog r).filterMap EngineCall.task = [lit "t",lit "q"] := by
  intro c calls r
  obtain ⟨-,-,haborted,hcompleted⟩ := engine_asked_once c 4 (by decide) 8 (by decide) () calls
  refine ⟨haborted (lit "t") ?_,hcompleted (lit "q") ?_,?_⟩
  · decide +kernel
  · decide +kernel
  · decide +kernel

end CueBee.Runtime
