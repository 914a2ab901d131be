import CueBee.Runtime.CueBeeRuntime
import CueBee.Runtime.GraphSpecs

/-! # What the methods leave alone

`Frame c I` says that `I` survives the steps that the methods are made of: calls on the
scheduler and on the engine, counters, and calls on the branch graph that do not touch the
tokens of sessions. `Steps c I` asks for less, so that `I` may speak of the counters of tokens.
Whatever has a frame survives every method but `handle_event`, whether it returns or raises.
-/
namespace CueBee.Runtime
open Cache Transcript Raising

namespace CueBeeRuntime
variable {S : Type} {c : Services S}

section Others
variable {I : CueBeeRuntime S → Prop}

theorem keeps_onGraph (h : ∀ r g, I r → I { r with branches := g }) {α : Type}
    (x : EStateM GraphError BranchGraph α) : Keeps I (onGraph x) :=
  keeps_focus (fun r hr => by
    unfold Ensures
    cases x r.branches with
    | ok a g => exact h r g hr
    | error e g => exact h r g hr)

/-- A call on the cache leaves the records of the branches. -/
theorem keeps_onKV (h : ∀ r kv, I r → I { r with branches := { r.branches with kv := kv } })
    {α : Type} (x : EStateM KVError VersionedKVManager α) : Keeps I (onKV x) := by
  refine keeps_iff.mpr (fun r hr => ensures_focus.mpr (ensures_focus.mpr ?_))
  unfold Ensures
  cases x r.branches.kv with
  | ok a k => exact h r k hr
  | error e k => exact h r k hr

theorem keeps_onEngine (h : ∀ r e, I r → I { r with engine := e }) {α : Type}
    (x : EStateM EngineError S α) : Keeps I (onEngine x) :=
  keeps_focus (fun r hr => by
    unfold Ensures
    cases x r.engine with
    | ok a e => exact h r e hr
    | error e s => exact h r s hr)

theorem keeps_onSessions (h : ∀ r m, I r → I { r with sessions := m }) {α : Type}
    (x : EStateM SessionError SessionManager α) : Keeps I (onSessions x) :=
  keeps_focus (fun r hr => by
    unfold Ensures
    cases x r.sessions with
    | ok a m => exact h r m hr
    | error e m => exact h r m hr)

end Others

/-- A call on the graph that keeps the tokens of all sessions at both exits. -/
def SparesSessions {α : Type} (x : EStateM GraphError BranchGraph α) : Prop :=
  ∀ xs, Keeps (BranchGraph.SessionsRead xs) x

structure Frame (c : Services S) (I : CueBeeRuntime S → Prop) : Prop where
  scheduler : ∀ r q, I r → I { r with scheduler := q }
  metrics : ∀ r m, I r → I { r with metrics := m }
  graph : ∀ {α : Type} (x : EStateM GraphError BranchGraph α), SparesSessions x →
    Keeps I (onGraph x)
  abort : ∀ taskId, Keeps I (onEngine (c.engine.abort taskId))
  generate : ∀ request, Keeps I (onEngine (c.engine.generate request))

/-- The counters of the cache part of `handle_event`. -/
def MetricName.countsTokens : MetricName → Bool
  | .prefillTokens | .rollbackTokens => true
  | _ => false

/-- The steps of the methods other than `handle_event`. -/
structure Steps (c : Services S) (I : CueBeeRuntime S → Prop) : Prop where
  scheduler : ∀ r q, I r → I { r with scheduler := q }
  inc : ∀ name amount, MetricName.countsTokens name = false → Keeps I (CueBeeRuntime.inc name amount)
  graph : ∀ {α : Type} (x : EStateM GraphError BranchGraph α),
    (∀ J, BranchGraph.Spared J → Keeps J x) → Keeps I (onGraph x)
  abort : ∀ taskId, Keeps I (onEngine (c.engine.abort taskId))
  generate : ∀ request, Keeps I (onEngine (c.engine.generate request))

theorem Frame.steps {I : CueBeeRuntime S → Prop} (h : Frame c I) : Steps c I where
  scheduler := h.scheduler
  inc _ _ _ := keeps_modify (fun r hr => h.metrics r _ hr)
  graph x hx := h.graph x (fun _ => hx _ BranchGraph.spared_sessionsRead)
  abort := h.abort
  generate := h.generate

namespace Steps
variable {I : CueBeeRuntime S → Prop} (h : Steps c I)
include h

theorem onScheduler {α : Type} (x : EStateM SchedulerError (VersionDeadlineScheduler PyFloat) α) :
    Keeps I (CueBeeRuntime.onScheduler x) := by
  refine keeps_iff.mpr (fun r hr => ensures_focus.mpr ?_)
  cases hx : x r.scheduler with
  | ok a q => exact Ensures.of_ok hx (h.scheduler r q hr)
  | error e q => exact Ensures.of_error hx (h.scheduler r q hr)

omit h in
theorem onSessions_get (sessionId : SessionId) :
    Keeps I (CueBeeRuntime.onSessions (SessionManager.get sessionId)) := by
  intro r hr
  unfold after CueBeeRuntime.onSessions focus SessionManager.get
  cases r.sessions.sessions.get? sessionId with
  | none => exact hr
  | some session => exact hr

theorem cancelInvalidated (ids : List TaskId) :
    Keeps I (CueBeeRuntime.cancelInvalidated c ids) := by
  induction ids with
  | nil => exact keeps_pure _
  | cons id rest ih =>
    exact keeps_bind (h.onScheduler _) (fun _ => keeps_bind (h.abort id) (fun _ =>
      keeps_bind (h.inc _ _ rfl) (fun _ => ih)))

theorem admitOrCancel (task : AnalysisTask PyFloat) (branchId : BranchId) :
    Keeps I (CueBeeRuntime.admitOrCancel task branchId) := by
  refine keeps_iff.mpr (fun r hr => ?_)
  have hsubmit := h.onScheduler (VersionDeadlineScheduler.submit task)
  have hcancel := h.graph (BranchGraph.cancel branchId) (fun _ hJ => hJ.cancel branchId)
  cases hx : CueBeeRuntime.onScheduler (VersionDeadlineScheduler.submit task) r with
  | ok u r1 =>
    have hrun : CueBeeRuntime.admitOrCancel task branchId r = .ok () r1 := by
      simp only [CueBeeRuntime.admitOrCancel,hx]
    exact Ensures.of_ok hrun (hsubmit.ok hr hx)
  | error e r1 =>
    have hr1 := hsubmit.error hr hx
    cases hy : onGraph (BranchGraph.cancel branchId) r1 with
    | ok u r2 =>
      have hrun : CueBeeRuntime.admitOrCancel task branchId r = .error e r2 := by
        simp only [CueBeeRuntime.admitOrCancel,hx,hy]
      exact Ensures.of_error hrun (hcancel.ok hr1 hy)
    | error e' r2 =>
      have hrun : CueBeeRuntime.admitOrCancel task branchId r = .error e' r2 := by
        simp only [CueBeeRuntime.admitOrCancel,hx,hy]
      exact Ensures.of_error hrun (hcancel.error hr1 hy)

theorem submitTask (a : Submission) : Keeps I (CueBeeRuntime.submitTask c a) := by
  refine keeps_bind (onSessions_get a.sessionId) (fun state => ?_)
  refine keeps_bind (h.graph _ (fun _ hJ => hJ.create _ _ _ _ _ _ _)) (fun branch => ?_)
  cases c.tokenizer.encode (taskPrompt a.kind a.prompt) with
  | none => exact keeps_throw _
  | some promptTokens =>
    refine keeps_bind (h.graph _ (fun _ hJ => hJ.appendPrivatePrompt _ _ _)) (fun _ => ?_)
    cases deadlineAt a with
    | none => exact keeps_throw _
    | some deadline =>
      exact keeps_bind (h.admitOrCancel _ _) (fun _ =>
        keeps_bind (h.inc _ _ rfl) (fun _ => keeps_pure _))

theorem startNext (now : PyFloat) : Keeps I (CueBeeRuntime.startNext c now) := by
  refine keeps_bind keeps_get (fun r => keeps_bind (h.onScheduler _) (fun popped => ?_))
  cases popped with
  | none => exact keeps_pure _
  | some task =>
    refine keeps_bind (h.graph _ (fun _ _ => BranchGraph.keeps_get _)) (fun branch => ?_)
    refine keeps_bind (h.graph _ (fun _ hJ => hJ.markRunning _)) (fun _ => ?_)
    refine keeps_bind (onSessions_get _) (fun state => ?_)
    dsimp only
    split
    · exact keeps_throw _
    · exact keeps_pure _

theorem finishNext (flight : Flight) (result : EngineResult) :
    Keeps I (CueBeeRuntime.finishNext flight result) := by
  refine keeps_bind (h.graph _ (fun _ _ => BranchGraph.keeps_get _)) (fun branch => ?_)
  refine keeps_bind (onSessions_get _) (fun state => keeps_ite (fun _ => ?_) (fun _ => ?_))
  · exact keeps_bind (h.graph _ (fun _ hJ => hJ.complete _)) (fun _ =>
      keeps_bind (h.onScheduler _) (fun _ => keeps_bind (h.inc _ _ rfl) (fun _ => keeps_pure _)))
  · exact keeps_bind (h.graph _ (fun _ hJ => hJ.cancel _)) (fun _ =>
      keeps_bind (h.onScheduler _) (fun _ => keeps_bind (h.inc _ _ rfl) (fun _ => keeps_pure _)))

theorem runNext (now : PyFloat) : Keeps I (CueBeeRuntime.runNext c now) := by
  refine keeps_bind (h.startNext now) (fun started => ?_)
  cases started with
  | none => exact keeps_pure _
  | some flight =>
    exact keeps_bind (h.generate flight.request) (fun result =>
      keeps_bind (h.finishNext flight result) (fun _ => keeps_pure _))

theorem cancelDropped (ids : List TaskId) : Keeps I (CueBeeRuntime.cancelDropped ids) := by
  induction ids with
  | nil => exact keeps_pure _
  | cons id rest ih =>
    refine keeps_bind (h.graph _ (fun _ _ => BranchGraph.keeps_get _)) (fun branch => ?_)
    exact keeps_bind (h.graph _ (fun _ hJ => hJ.cancel _)) (fun _ =>
      keeps_bind (h.inc _ _ rfl) (fun _ => ih))

theorem shedLoad (targetActive : ℤ) : Keeps I (CueBeeRuntime.shedLoad targetActive) :=
  keeps_bind (h.onScheduler _) (fun dropped =>
    keeps_bind (h.cancelDropped dropped) (fun _ => keeps_pure _))

end Steps

/-- `I` survives the steps that bring the cache to the transcript. -/
structure CacheFrame (I : CueBeeRuntime S → Prop) : Prop where
  metrics : ∀ r m, I r → I { r with metrics := m }
  engine : ∀ {α : Type} (x : EStateM EngineError S α), Keeps I (onEngine x)
  tokens : ∀ sessionId, Keeps I (onKV (VersionedKVManager.sessionTokens sessionId))
  rollback : ∀ sessionId fromToken,
    Keeps I (onKV (VersionedKVManager.rollbackTentative sessionId fromToken))
  append : ∀ sessionId tokenIds version,
    Keeps I (onKV (VersionedKVManager.appendSession sessionId tokenIds .tentative version))
  commit : ∀ sessionId frontier version,
    Keeps I (onKV (VersionedKVManager.commitTentative sessionId frontier version))

/-- A property that neither the cache nor the engine enters. -/
theorem cacheFrame_of {I : CueBeeRuntime S → Prop} (hm : ∀ r m, I r → I { r with metrics := m })
    (he : ∀ r e, I r → I { r with engine := e })
    (hkv : ∀ r kv, I r → I { r with branches := { r.branches with kv := kv } }) :
    CacheFrame I where
  metrics := hm
  engine x := keeps_onEngine he x
  tokens _ := keeps_onKV hkv _
  rollback _ _ := keeps_onKV hkv _
  append _ _ _ := keeps_onKV hkv _
  commit _ _ _ := keeps_onKV hkv _

namespace CacheFrame
variable {I : CueBeeRuntime S → Prop} (h : CacheFrame I)
include h

theorem inc (name : MetricName) (amount : ℕ) : Keeps I (CueBeeRuntime.inc name amount) :=
  keeps_modify (fun r hr => h.metrics r _ hr)

theorem rollBack (sessionId : SessionId) (rollbackFrom : ℕ) :
    Keeps I (CueBeeRuntime.rollBack sessionId rollbackFrom) := by
  refine keeps_bind (h.tokens _) (fun tokens => keeps_ite (fun _ => ?_) (fun _ => keeps_pure _))
  exact keeps_bind (h.rollback _ _) (fun _ => keeps_bind (h.inc _ _) (fun _ => keeps_pure _))

theorem sendTokens (event : STTEvent) (version commitFrontier replaceFrom : ℕ)
    {missing : List Token} (hmissing : missing ≠ []) : Keeps I
      (CueBeeRuntime.sendTokens c event version commitFrontier replaceFrom missing hmissing) := by
  unfold CueBeeRuntime.sendTokens
  split
  · exact h.engine _
  · exact h.engine _

theorem prefillMissing (event : STTEvent) (version commitFrontier replaceFrom : ℕ)
    (missing : List Token) : Keeps I
      (CueBeeRuntime.prefillMissing c event version commitFrontier replaceFrom missing) := by
  unfold CueBeeRuntime.prefillMissing
  split
  · exact keeps_bind (h.sendTokens _ _ _ _ _) (fun _ => keeps_bind (h.append _ _ _) (fun _ =>
      keeps_bind (h.inc _ _) (fun _ => keeps_pure _)))
  · exact keeps_pure _

theorem commitCache (event : STTEvent) (frontier version : ℕ) :
    Keeps I (CueBeeRuntime.commitCache event frontier version) :=
  keeps_ite (fun _ => h.commit _ _ _) (fun _ => keeps_pure _)

theorem reviseCache (event : STTEvent) (diff : TranscriptDiff) :
    Keeps I (CueBeeRuntime.reviseCache c event diff) := by
  refine keeps_bind (h.rollBack _ _) (fun rolledBack => ?_)
  refine keeps_bind (Steps.onSessions_get _) (fun state => ?_)
  refine keeps_bind (h.tokens _) (fun resident => keeps_ite (fun _ => keeps_throw _) (fun _ => ?_))
  refine keeps_bind keeps_get (fun r => ?_)
  refine keeps_bind (keeps_ite (fun _ => h.prefillMissing _ _ _ _ _) (fun _ => keeps_pure _)) (fun _ => ?_)
  exact keeps_bind (h.commitCache _ _ _) (fun _ => keeps_pure _)

theorem updateCache (event : STTEvent) (diff : TranscriptDiff) :
    Keeps I (CueBeeRuntime.updateCache c event diff) :=
  keeps_ite (fun _ => keeps_pure _) (fun _ => h.reviseCache event diff)

end CacheFrame

/-- `I` reads neither graph, scheduler, engine nor counters. -/
structure Aloof (I : CueBeeRuntime S → Prop) : Prop where
  metrics : ∀ r m, I r → I { r with metrics := m }
  engine : ∀ r e, I r → I { r with engine := e }
  graph : ∀ r g, I r → I { r with branches := g }
  scheduler : ∀ r q, I r → I { r with scheduler := q }

namespace Aloof
variable {I : CueBeeRuntime S → Prop} (h : Aloof I)
include h

theorem frame : Frame c I where
  scheduler := h.scheduler
  metrics := h.metrics
  graph x _ := keeps_onGraph h.graph x
  abort _ := keeps_onEngine h.engine _
  generate _ := keeps_onEngine h.engine _

theorem afterApply (event : STTEvent) (diff : TranscriptDiff) :
    Keeps I (CueBeeRuntime.afterApply c event diff) := by
  have hsteps : Steps c I := h.frame.steps
  have hcache := cacheFrame_of h.metrics h.engine (fun r _ => h.graph r _)
  refine keeps_bind (hsteps.inc _ _ rfl) (fun _ => keeps_bind (keeps_onGraph h.graph _) (fun ids => ?_))
  refine keeps_bind (hsteps.cancelInvalidated ids) (fun _ => ?_)
  exact keeps_bind (hcache.updateCache event diff) (fun _ =>
    keeps_bind (keeps_onKV (fun r _ => h.graph r _) _) (fun _ => keeps_pure _))

end Aloof

/-- `handle_event` touches sessions by `apply` only. -/
theorem sessions_handleEvent {P : SessionManager → Prop}
    (happly : ∀ event, Keeps P (SessionManager.apply c.tokenizer event)) (event : STTEvent) :
    Keeps (fun r : CueBeeRuntime S => P r.sessions) (handleEvent c event) := by
  have haloof : Aloof (fun r : CueBeeRuntime S => P r.sessions) :=
    ⟨fun _ _ h => h,fun _ _ h => h,fun _ _ h => h,fun _ _ h => h⟩
  have hsteps : Steps c (fun r : CueBeeRuntime S => P r.sessions) := haloof.frame.steps
  have hnorm : Keeps (fun r : CueBeeRuntime S => P r.sessions) (normalizeEvent event) :=
    fun _ hr => hr
  refine keeps_bind hnorm (fun normalized => ?_)
  cases normalized with
  | none => exact keeps_bind (hsteps.inc _ _ rfl) (fun _ => keeps_pure _)
  | some e =>
    have hsessions : Keeps (fun r : CueBeeRuntime S => P r.sessions)
        (onSessions (SessionManager.apply c.tokenizer e)) :=
      keeps_iff.mpr (fun r hr => ensures_focus.mpr (keeps_iff.mp (happly e) r.sessions hr))
    exact keeps_bind hsessions (fun diff => haloof.afterApply e diff)

section Tasks
variable {J : VersionDeadlineScheduler PyFloat → Prop}

theorem keeps_onScheduler {α : Type} {x : EStateM SchedulerError (VersionDeadlineScheduler PyFloat) α}
    (h : Keeps J x) : Keeps (fun r : CueBeeRuntime S => J r.scheduler) (onScheduler x) :=
  keeps_iff.mpr (fun r hr => ensures_focus.mpr (keeps_iff.mp h r.scheduler hr))

theorem tasks_onGraph {α : Type} (x : EStateM GraphError BranchGraph α) :
    Keeps (fun r : CueBeeRuntime S => J r.scheduler) (onGraph x) := keeps_onGraph (fun _ _ hr => hr) x

theorem tasks_inc (name : MetricName) (amount : ℕ) :
    Keeps (fun r : CueBeeRuntime S => J r.scheduler) (inc name amount) :=
  keeps_modify (fun _ hr => hr)

theorem tasks_cancelInvalidated
    (hcancel : ∀ id reason, Keeps J (VersionDeadlineScheduler.cancel id reason)) (ids : List TaskId) :
    Keeps (fun r : CueBeeRuntime S => J r.scheduler) (cancelInvalidated c ids) := by
  induction ids with
  | nil => exact keeps_pure _
  | cons id rest ih =>
    refine keeps_bind (keeps_onScheduler (hcancel id _)) (fun _ => ?_)
    exact keeps_bind (keeps_onEngine (fun _ _ hr => hr) _) (fun _ =>
      keeps_bind (tasks_inc _ _) (fun _ => ih))

/-- `handle_event` touches tasks by cancelling them only. -/
theorem tasks_handleEvent (hcancel : ∀ id reason, Keeps J (VersionDeadlineScheduler.cancel id reason))
    (event : STTEvent) : Keeps (fun r : CueBeeRuntime S => J r.scheduler) (handleEvent c event) := by
  have hnorm : Keeps (fun r : CueBeeRuntime S => J r.scheduler) (normalizeEvent event) :=
    fun _ hr => hr
  have hcache : CacheFrame (fun r : CueBeeRuntime S => J r.scheduler) :=
    cacheFrame_of (fun _ _ hr => hr) (fun _ _ hr => hr) (fun _ _ hr => hr)
  refine keeps_bind hnorm (fun normalized => ?_)
  cases normalized with
  | none => exact keeps_bind (tasks_inc _ _) (fun _ => keeps_pure _)
  | some e =>
    refine keeps_bind (keeps_onSessions (fun _ _ hr => hr) _) (fun diff => ?_)
    refine keeps_bind (tasks_inc _ _) (fun _ => keeps_bind (tasks_onGraph _) (fun ids => ?_))
    exact keeps_bind (tasks_cancelInvalidated hcancel ids) (fun _ =>
      keeps_bind (hcache.updateCache e diff) (fun _ =>
        keeps_bind (tasks_onGraph _) (fun _ => keeps_pure _)))

theorem tasks_shedLoad (hshed : ∀ target, Keeps J (VersionDeadlineScheduler.shedLoad target))
    (targetActive : ℤ) : Keeps (fun r : CueBeeRuntime S => J r.scheduler) (shedLoad targetActive) := by
  have hloop : ∀ ids : List TaskId,
      Keeps (fun r : CueBeeRuntime S => J r.scheduler) (cancelDropped ids) := by
    intro ids
    induction ids with
    | nil => exact keeps_pure _
    | cons id rest ih =>
      exact keeps_bind (tasks_onGraph _) (fun _ => keeps_bind (tasks_onGraph _) (fun _ =>
        keeps_bind (tasks_inc _ _) (fun _ => ih)))
  exact keeps_bind (keeps_onScheduler (hshed targetActive))
    (fun dropped => keeps_bind (hloop dropped) (fun _ => keeps_pure _))

end Tasks

section Engines
variable {J : S → Prop}

theorem keeps_engine {α : Type} {x : EStateM EngineError S α} (h : Keeps J x) :
    Keeps (fun r : CueBeeRuntime S => J r.engine) (onEngine x) :=
  keeps_iff.mpr (fun r hr => ensures_focus.mpr (keeps_iff.mp h r.engine hr))

theorem engine_onKV {α : Type} (x : EStateM KVError VersionedKVManager α) :
    Keeps (fun r : CueBeeRuntime S => J r.engine) (onKV x) := keeps_onKV (fun _ _ hr => hr) x

theorem engine_inc (name : MetricName) (amount : ℕ) :
    Keeps (fun r : CueBeeRuntime S => J r.engine) (inc name amount) :=
  keeps_modify (fun _ hr => hr)

/-- Whichever method the engine is told by, it keeps `J`. -/
theorem engine_sendTokens
    (hprefill : c.engine.updateSession = none → ∀ sessionId tokenIds version tentative,
      Keeps J (c.engine.prefill sessionId tokenIds version tentative))
    (hupdate : ∀ f ∈ c.engine.updateSession, ∀ update, Keeps J (f update)) (event : STTEvent)
    (version commitFrontier replaceFrom : ℕ) {missing : List Token} (hmissing : missing ≠ []) :
    Keeps (fun r : CueBeeRuntime S => J r.engine)
      (sendTokens c event version commitFrontier replaceFrom missing hmissing) := by
  unfold sendTokens
  split
  · next f hf => exact keeps_engine (hupdate f hf _)
  · next hf => exact keeps_engine (hprefill hf _ _ _ _)

theorem engine_reviseCache
    (hprefill : c.engine.updateSession = none → ∀ sessionId tokenIds version tentative,
      Keeps J (c.engine.prefill sessionId tokenIds version tentative))
    (hupdate : ∀ f ∈ c.engine.updateSession, ∀ update, Keeps J (f update)) (event : STTEvent)
    (diff : TranscriptDiff) :
    Keeps (fun r : CueBeeRuntime S => J r.engine) (reviseCache c event diff) := by
  have hrollBack : Keeps (fun r : CueBeeRuntime S => J r.engine)
      (rollBack event.sessionId diff.changedRange.start) :=
    keeps_bind (engine_onKV _) (fun _ => keeps_ite
      (fun _ => keeps_bind (engine_onKV _) (fun _ => keeps_bind (engine_inc _ _) (fun _ => keeps_pure _)))
      (fun _ => keeps_pure _))
  have hprefillMissing : ∀ version commitFrontier replaceFrom missing,
      Keeps (fun r : CueBeeRuntime S => J r.engine)
        (prefillMissing c event version commitFrontier replaceFrom missing) := by
    intro version commitFrontier replaceFrom missing
    unfold prefillMissing
    split
    · exact keeps_bind (engine_sendTokens hprefill hupdate _ _ _ _ _) (fun _ =>
        keeps_bind (engine_onKV _) (fun _ => keeps_bind (engine_inc _ _) (fun _ => keeps_pure _)))
    · exact keeps_pure _
  refine keeps_bind hrollBack (fun _ => keeps_bind (Steps.onSessions_get _) (fun state => ?_))
  refine keeps_bind (engine_onKV _) (fun _ => keeps_ite (fun _ => keeps_throw _) (fun _ => ?_))
  refine keeps_bind keeps_get (fun r => keeps_bind
    (keeps_ite (fun _ => hprefillMissing _ _ _ _) (fun _ => keeps_pure _)) (fun _ => ?_))
  exact keeps_bind (keeps_ite (fun _ => engine_onKV _) (fun _ => keeps_pure _)) (fun _ => keeps_pure _)

/-- What all methods of the engine keep, all steps of the runtime but the event keep. -/
theorem engine_steps (habort : ∀ taskId, Keeps J (c.engine.abort taskId))
    (hgenerate : ∀ request, Keeps J (c.engine.generate request)) :
    Steps c (fun r : CueBeeRuntime S => J r.engine) where
  scheduler _ _ hr := hr
  inc _ _ _ := engine_inc _ _
  graph x _ := keeps_onGraph (fun _ _ hr => hr) x
  abort taskId := keeps_engine (habort taskId)
  generate request := keeps_engine (hgenerate request)

theorem engine_handleEvent (habort : ∀ taskId, Keeps J (c.engine.abort taskId))
    (hgenerate : ∀ request, Keeps J (c.engine.generate request))
    (hprefill : c.engine.updateSession = none → ∀ sessionId tokenIds version tentative,
      Keeps J (c.engine.prefill sessionId tokenIds version tentative))
    (hupdate : ∀ f ∈ c.engine.updateSession, ∀ update, Keeps J (f update)) (event : STTEvent) :
    Keeps (fun r : CueBeeRuntime S => J r.engine) (handleEvent c event) := by
  have hsteps := engine_steps (c := c) habort hgenerate
  have hnorm : Keeps (fun r : CueBeeRuntime S => J r.engine) (normalizeEvent event) := fun _ hr => hr
  refine keeps_bind hnorm (fun normalized => ?_)
  cases normalized with
  | none => exact keeps_bind (engine_inc _ _) (fun _ => keeps_pure _)
  | some e =>
    refine keeps_bind (keeps_onSessions (fun _ _ hr => hr) _) (fun diff => ?_)
    refine keeps_bind (engine_inc _ _) (fun _ => keeps_bind
      (keeps_onGraph (fun _ _ hr => hr) _) (fun ids => ?_))
    refine keeps_bind (hsteps.cancelInvalidated ids) (fun _ => keeps_bind ?_ (fun _ =>
      keeps_bind (engine_onKV _) (fun _ => keeps_pure _)))
    exact keeps_ite (fun _ => keeps_pure _) (fun _ => engine_reviseCache hprefill hupdate e diff)

/-- The services with an engine that does nothing. -/
def idleServices (c : Services S) : Services S where
  tokenizer := c.tokenizer
  engine := ⟨fun _ _ _ _ => pure (),fun _ => throw ⟨[]⟩,fun _ => pure false,none⟩
  tentativePolicy := c.tentativePolicy

/-- The methods that do not call the engine leave it. -/
theorem idle_steps (c : Services S) (e : S) :
    Steps (idleServices c) (fun r : CueBeeRuntime S => r.engine = e) := by
  refine engine_steps (c := idleServices c) (J := fun e' => e' = e) (fun _ => ?_) (fun _ => ?_)
  · exact keeps_pure _
  · exact keeps_throw _

theorem engine_submitTask (a : Submission) (e : S) :
    Keeps (fun r : CueBeeRuntime S => r.engine = e) (submitTask c a) := (idle_steps c e).submitTask a

theorem engine_finishNext (flight : Flight) (result : EngineResult) (c : Services S) (e : S) :
    Keeps (fun r : CueBeeRuntime S => r.engine = e) (finishNext flight result) :=
  (idle_steps c e).finishNext flight result

theorem engine_shedLoad (targetActive : ℤ) (c : Services S) (e : S) :
    Keeps (fun r : CueBeeRuntime S => r.engine = e) (shedLoad targetActive) :=
  (idle_steps c e).shedLoad targetActive

end Engines
end CueBeeRuntime
end CueBee.Runtime
