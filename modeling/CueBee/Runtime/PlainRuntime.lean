import CueBee.Cache.CopyOnWriteRefinement
import CueBee.Runtime.CounterAgreement

/-! # The cache and the prefill are not seen

The runtime prefills tentative tails into a cache of shared blocks. The plain runtime has an
engine that is told nothing and never prefills a tentative tail. Both answer every caller alike
and hold the same sessions, branches and tasks: only the caches, the engines and the counters of
tokens differ.
-/
namespace CueBee.Runtime
open Cache Transcript Raising ConversationSession SessionManager VersionedKVManager PyStr

/-- What an event is answered, apart from the counts of tokens. -/
structure EventAnswer where
  accepted : Bool
  duplicateOrStale : Bool
  diff : Option TranscriptDiff
  invalidatedTasks : List TaskId
deriving DecidableEq

def EventOutcome.answer (o : EventOutcome) : EventAnswer :=
  ⟨o.accepted,o.duplicateOrStale,o.diff,o.invalidatedTasks⟩

namespace BranchGraph
variable {g k : BranchGraph} {α : Type}

/-- The same branches, of which the two caches know the same. -/
structure Alike (g k : BranchGraph) : Prop where
  left : g.kv.Sound
  right : k.kv.Sound
  branches : g.branches = k.branches
  references : ∀ id, g.kv.view.branches id = none ↔ k.kv.view.branches id = none

theorem Alike.get (h : Alike g k) (id : BranchId) :
    Lockstep Alike (BranchGraph.get id) g (BranchGraph.get id) k := by
  cases hget : g.branches.get? id with
  | none =>
    have hother : k.branches.get? id = none := h.branches ▸ hget
    have hleft : BranchGraph.get id g = .error (.unknownBranch id) g := by
      simp only [BranchGraph.get,hget]
    have hright : BranchGraph.get id k = .error (.unknownBranch id) k := by
      simp only [BranchGraph.get,hother]
    exact .of_error hleft hright h
  | some branch => exact .of_ok (get_ok hget) (get_ok (h.branches ▸ hget)) h

theorem Alike.store (h : Alike g k) (branch : Branch) : Alike (g.store branch) (k.store branch) where
  left := h.left
  right := h.right
  branches := congrArg (fun d => d.set branch.branchId branch) h.branches
  references := h.references

/-- Both caches change the references of `id`, and have some left or none. -/
theorem Alike.put (h : Alike g k) {id : BranchId} {kv kv' : VersionedKVManager}
    {xs xs' : Option (List Token)} (hs : kv.Sound) (hs' : kv'.Sound)
    (hview : kv.view = g.kv.view.putBranch id xs) (hview' : kv'.view = k.kv.view.putBranch id xs')
    (hxs : xs = none ↔ xs' = none) : Alike { g with kv := kv } { k with kv := kv' } where
  left := hs
  right := hs'
  branches := h.branches
  references other := by
    show kv.view.branches other = none ↔ kv'.view.branches other = none
    rw [hview,hview']
    by_cases hid : other = id
    · subst hid
      rw [NaiveKV.branches_putBranch_self,NaiveKV.branches_putBranch_self]
      exact hxs
    · rw [NaiveKV.branches_putBranch_ne _ hid,NaiveKV.branches_putBranch_ne _ hid]
      exact h.references other

theorem Alike.release (h : Alike g k) (id : BranchId) {rest : EStateM GraphError BranchGraph α}
    (hrest : ∀ g k, Alike g k → Lockstep Alike rest g rest k) :
    Lockstep Alike (onKV (VersionedKVManager.releaseBranch id) >>= fun _ => rest) g
      (onKV (VersionedKVManager.releaseBranch id) >>= fun _ => rest) k := by
  obtain ⟨freed,kv,hrun,hsound,hview⟩ := release_ok h.left id
  obtain ⟨freed',kv',hrun',hsound',hview'⟩ := release_ok h.right id
  exact .skip hrun hrun' (hrest _ _ (h.put hsound hsound' hview hview' Iff.rfl))

theorem Alike.fork (h : Alike g k) (id : BranchId) (sessionId : SessionId) (includeTentative : Bool)
    {rest : EStateM GraphError BranchGraph α}
    (hrest : ∀ g k, Alike g k → Lockstep Alike rest g rest k) :
    Lockstep Alike (onKV (VersionedKVManager.forkBranch id sessionId includeTentative) >>= fun _ => rest) g
      (onKV (VersionedKVManager.forkBranch id sessionId includeTentative) >>= fun _ => rest) k := by
  by_cases hid : g.kv.view.branches id = none
  · obtain ⟨fresh,kv,hrun,hsound,hview⟩ :=
      forkBranch_ok (s := sessionId) h.left hid includeTentative
    obtain ⟨fresh',kv',hrun',hsound',hview'⟩ :=
      forkBranch_ok (s := sessionId) h.right ((h.references id).mp hid) includeTentative
    exact .skip (focus_ok hrun) (focus_ok hrun') (hrest _ _ (h.put hsound hsound' hview hview' (by simp)))
  · have hother : k.kv.view.branches id ≠ none := fun hn => hid ((h.references id).mpr hn)
    exact .of_error (bind_error (focus_error (forkBranch_rejected hid includeTentative)))
      (bind_error (focus_error (forkBranch_rejected hother includeTentative))) h

theorem Alike.append (h : Alike g k) (id : BranchId) (tokenIds : List Token) (version : ℤ)
    {rest : EStateM GraphError BranchGraph α}
    (hrest : ∀ g k, Alike g k → Lockstep Alike rest g rest k) :
    Lockstep Alike (onKV (VersionedKVManager.appendBranch id tokenIds version) >>= fun _ => rest) g
      (onKV (VersionedKVManager.appendBranch id tokenIds version) >>= fun _ => rest) k := by
  cases hid : g.kv.view.branches id with
  | none =>
    have hother := (h.references id).mp hid
    exact .of_error (bind_error (focus_error (appendBranch_rejected hid tokenIds version)))
      (bind_error (focus_error (appendBranch_rejected hother tokenIds version))) h
  | some xs =>
    have hother : k.kv.view.branches id ≠ none := by
      rw [ne_eq,← h.references,hid]
      exact Option.some_ne_none xs
    obtain ⟨xs',hid'⟩ := Option.ne_none_iff_exists'.mp hother
    obtain ⟨n,kv,hrun,hsound,hview⟩ := appendBranch_ok h.left hid tokenIds version
    obtain ⟨n',kv',hrun',hsound',hview'⟩ := appendBranch_ok h.right hid' tokenIds version
    exact .skip (focus_ok hrun) (focus_ok hrun') (hrest _ _ (h.put hsound hsound' hview hview' (by simp)))

theorem Alike.create (h : Alike g k) (taskId : TaskId) (sessionId : SessionId) (kind : TaskKind)
    (baseVersion commitFrontier totalTokens : ℕ) (dependency : Option TokenRange) :
    Lockstep Alike (create taskId sessionId kind baseVersion commitFrontier totalTokens dependency) g
      (create taskId sessionId kind baseVersion commitFrontier totalTokens dependency) k := by
  cases hget : g.branches.get? (branchIdOf taskId) with
  | some branch =>
    have hother : k.branches.get? (branchIdOf taskId) = some branch := h.branches ▸ hget
    exact .of_error (create_exists sessionId kind baseVersion commitFrontier totalTokens dependency hget)
      (create_exists sessionId kind baseVersion commitFrontier totalTokens dependency hother) h
  | none =>
    have hother : k.branches.get? (branchIdOf taskId) = none := h.branches ▸ hget
    let branch := newBranch taskId sessionId kind baseVersion commitFrontier totalTokens dependency
    have hstore : ∀ g k, Alike g k → Lockstep Alike
        (modify (BranchGraph.store branch) >>= fun _ => pure branch : EStateM GraphError BranchGraph Branch)
        g (modify (BranchGraph.store branch) >>= fun _ => pure branch) k :=
      fun g k h => (lockstep_modify (h.store branch)).bind (fun _ _ _ h => lockstep_pure branch h)
    refine Lockstep.congr (h.fork (branchIdOf taskId) sessionId kind.currentVersion hstore) ?_ ?_
    · simp only [BranchGraph.create,bind_ok (get_apply g),hget]
      rfl
    · simp only [BranchGraph.create,bind_ok (get_apply k),hother]
      rfl

theorem Alike.appendPrivatePrompt (h : Alike g k) (id : BranchId) (tokenIds : List Token) (version : ℤ) :
    Lockstep Alike (appendPrivatePrompt id tokenIds version) g
      (appendPrivatePrompt id tokenIds version) k :=
  (h.get id).bind (fun _ _ _ h => .ite (fun _ => lockstep_throw _ h)
    (fun _ => h.append id tokenIds version (fun _ _ h => lockstep_pure _ h)))

theorem Alike.markRunning (h : Alike g k) (id : BranchId) :
    Lockstep Alike (markRunning id) g (markRunning id) k :=
  (h.get id).bind (fun _ _ _ h => .ite (fun _ => lockstep_throw _ h)
    (fun _ => lockstep_modify (h.store _)))

theorem Alike.complete (h : Alike g k) (id : BranchId) :
    Lockstep Alike (complete id) g (complete id) k :=
  (h.get id).bind (fun _ _ _ h => .ite (fun _ => lockstep_throw _ h)
    (fun _ => (lockstep_modify (h.store _)).bind
      (fun _ _ _ h => h.release id (fun _ _ h => lockstep_pure _ h))))

theorem Alike.cancel (h : Alike g k) (id : BranchId) : Lockstep Alike (cancel id) g (cancel id) k :=
  (h.get id).bind (fun _ _ _ h => .ite
    (fun _ => (lockstep_modify (h.store _)).bind
      (fun _ _ _ h => h.release id (fun _ _ h => lockstep_pure _ h)))
    (fun _ => lockstep_pure _ h))

theorem Alike.invalidateBranches (h : Alike g k) (sessionId : SessionId) (changedRange : TokenRange)
    (newVersion : ℕ) (bs : List Branch) :
    Lockstep Alike (invalidateBranches sessionId changedRange newVersion bs) g
      (invalidateBranches sessionId changedRange newVersion bs) k := by
  induction bs generalizing g k with
  | nil => exact lockstep_pure _ h
  | cons b rest ih =>
    refine .ite (fun _ => ?_) (fun _ => ih h)
    refine (lockstep_modify (h.store _)).bind (fun _ _ _ h => h.release b.branchId (fun _ _ h => ?_))
    exact (ih h).bind (fun _ _ _ h => lockstep_pure _ h)

theorem Alike.invalidate (h : Alike g k) (sessionId : SessionId) (changedRange : TokenRange)
    (newVersion : ℕ) : Lockstep Alike (invalidate sessionId changedRange newVersion) g
      (invalidate sessionId changedRange newVersion) k := by
  refine Lockstep.get_bind ?_
  rw [← h.branches]
  exact h.invalidateBranches sessionId changedRange newVersion g.branches.values

end BranchGraph

namespace CueBeeRuntime
variable {S T : Type} {c : Services S} {d : Services T} {r : CueBeeRuntime S} {q : CueBeeRuntime T}

/-- The counters of what the cache does. -/
def ofTokens (name : MetricName) : Bool := name = .prefillTokens || name = .rollbackTokens

/-- What does not depend on the contents of the caches is the same. -/
structure Alike (r : CueBeeRuntime S) (q : CueBeeRuntime T) : Prop where
  revisions : r.revisions = q.revisions
  sessions : r.sessions = q.sessions
  graphs : r.branches.Alike q.branches
  scheduler : r.scheduler = q.scheduler
  counters : ∀ name, ofTokens name = false → r.metrics.counter name = q.metrics.counter name

theorem admitOrCancel_error {r1 : CueBeeRuntime S} {task : AnalysisTask PyFloat} {branchId : BranchId}
    {e : RuntimeError} (h : onScheduler (VersionDeadlineScheduler.submit task) r = .error e r1) :
    admitOrCancel task branchId r = (do
      onGraph (BranchGraph.cancel branchId)
      throw e) r1 := by
  rw [admitOrCancel,h]
  dsimp only
  cases hcancel : onGraph (BranchGraph.cancel branchId) r1 with
  | ok u r2 =>
    rw [bind_ok hcancel]
    rfl
  | error e' r2 => rw [bind_error hcancel]

namespace Alike
variable {α : Type} (h : Alike r q)
include h

theorem onGraph {x : EStateM GraphError BranchGraph α}
    (hx : Lockstep BranchGraph.Alike x r.branches x q.branches) :
    Lockstep Alike (onGraph x : EStateM RuntimeError (CueBeeRuntime S) α) r (onGraph x) q :=
  hx.focus (fun _ _ hg => ⟨h.revisions,h.sessions,hg,h.scheduler,h.counters⟩)

theorem onScheduler (x : EStateM SchedulerError (VersionDeadlineScheduler PyFloat) α) :
    Lockstep Alike (onScheduler x : EStateM RuntimeError (CueBeeRuntime S) α) r (onScheduler x) q := by
  have hx : Lockstep Eq x r.scheduler x q.scheduler := h.scheduler ▸ lockstep_self x r.scheduler
  exact hx.focus (fun _ _ hq => ⟨h.revisions,h.sessions,h.graphs,hq,h.counters⟩)

theorem onSessions (x : EStateM SessionError SessionManager α) :
    Lockstep Alike (onSessions x : EStateM RuntimeError (CueBeeRuntime S) α) r (onSessions x) q := by
  have hx : Lockstep Eq x r.sessions x q.sessions := h.sessions ▸ lockstep_self x r.sessions
  exact hx.focus (fun _ _ hm => ⟨h.revisions,hm,h.graphs,h.scheduler,h.counters⟩)

theorem inc (name : MetricName) (amount : ℕ) :
    Lockstep Alike (inc name amount : EStateM RuntimeError (CueBeeRuntime S) Unit) r
      (inc name amount) q := by
  refine lockstep_modify ⟨h.revisions,h.sessions,h.graphs,h.scheduler,fun other ho => ?_⟩
  by_cases hn : other = name
  · subst hn
    rw [MetricRegistry.counter_inc_self,MetricRegistry.counter_inc_self,h.counters other ho]
  · rw [MetricRegistry.counter_inc_ne hn,MetricRegistry.counter_inc_ne hn,h.counters other ho]

theorem engines (e : S) (f : T) : Alike { r with engine := e } { q with engine := f } :=
  ⟨h.revisions,h.sessions,h.graphs,h.scheduler,h.counters⟩

theorem cancelInvalidated (hengine : c.engine.NeverRaises) (hother : d.engine.NeverRaises)
    (ids : List TaskId) :
    Lockstep Alike (cancelInvalidated c ids) r (cancelInvalidated d ids) q := by
  induction ids generalizing r q with
  | nil => exact lockstep_pure _ h
  | cons id rest ih =>
    refine (h.onScheduler _).bind (fun _ r q h => ?_)
    obtain ⟨aborted,e,hleft⟩ := hengine.abort id r.engine
    obtain ⟨aborted',f,hright⟩ := hother.abort id q.engine
    refine .skip (focus_ok hleft) (focus_ok hright) ?_
    exact ((h.engines e f).inc _ _).bind (fun _ _ _ h => ih h)

theorem cancelDropped (ids : List TaskId) :
    Lockstep Alike (cancelDropped ids : EStateM RuntimeError (CueBeeRuntime S) Unit) r
      (cancelDropped ids) q := by
  induction ids generalizing r q with
  | nil => exact lockstep_pure _ h
  | cons id rest ih =>
    refine (h.onGraph (h.graphs.get _)).bind (fun branch _ _ h => ?_)
    refine (h.onGraph (h.graphs.cancel _)).bind (fun _ _ _ h => ?_)
    exact (h.inc _ _).bind (fun _ _ _ h => ih h)

theorem shedLoad (targetActive : ℤ) :
    Lockstep Alike (shedLoad targetActive : EStateM RuntimeError (CueBeeRuntime S) (List TaskId)) r
      (shedLoad targetActive) q :=
  (h.onScheduler _).bind (fun dropped _ _ h =>
    (h.cancelDropped dropped).bind (fun _ _ _ h => lockstep_pure _ h))

theorem currentVersions : r.currentVersions = q.currentVersions := by
  unfold CueBeeRuntime.currentVersions
  rw [h.sessions]

theorem startNext (htok : d.tokenizer = c.tokenizer) (now : PyFloat) :
    Lockstep Alike (startNext c now) r (startNext d now) q := by
  refine Lockstep.get_bind ?_
  rw [← h.currentVersions]
  refine (h.onScheduler _).bind (fun popped _ _ h => ?_)
  cases popped with
  | none => exact lockstep_pure _ h
  | some task =>
    refine (h.onGraph (h.graphs.get _)).bind (fun branch _ _ h => ?_)
    refine (h.onGraph (h.graphs.markRunning _)).bind (fun _ _ _ h => ?_)
    refine (h.onSessions _).bind (fun state _ _ h => ?_)
    dsimp only
    rw [htok]
    split
    · exact lockstep_throw _ h
    · exact lockstep_pure _ h

theorem finishNext (flight : Flight) (result : EngineResult) :
    Lockstep Alike (finishNext flight result : EStateM RuntimeError (CueBeeRuntime S) TaskOutcome) r
      (finishNext flight result) q := by
  refine (h.onGraph (h.graphs.get _)).bind (fun branch _ _ h => ?_)
  refine (h.onSessions _).bind (fun state _ _ h => .ite (fun _ => ?_) (fun _ => ?_))
  · refine (h.onGraph (h.graphs.complete _)).bind (fun _ _ _ h => ?_)
    exact (h.onScheduler _).bind (fun _ _ _ h => (h.inc _ _).bind (fun _ _ _ h => lockstep_pure _ h))
  · refine (h.onGraph (h.graphs.cancel _)).bind (fun _ _ _ h => ?_)
    exact (h.onScheduler _).bind (fun _ _ _ h => (h.inc _ _).bind (fun _ _ _ h => lockstep_pure _ h))

theorem admitOrCancel (task : AnalysisTask PyFloat) (branchId : BranchId) :
    Lockstep Alike (admitOrCancel task branchId : EStateM RuntimeError (CueBeeRuntime S) Unit) r
      (admitOrCancel task branchId) q := by
  rcases (h.onScheduler (VersionDeadlineScheduler.submit task)).runs with
    ⟨u,r1,q1,hleft,hright,hrel⟩ | ⟨e,r1,q1,hleft,hright,hrel⟩
  · exact .of_ok (by rw [CueBeeRuntime.admitOrCancel,hleft])
      (by rw [CueBeeRuntime.admitOrCancel,hright]) hrel
  · -- both cancel the branch before the exception passes on
    have hcancel := (hrel.onGraph (hrel.graphs.cancel branchId)).bind
      (f := fun _ => throw e) (g := fun _ => throw e) (fun _ _ _ h => lockstep_throw (α := Unit) e h)
    exact hcancel.congr (admitOrCancel_error hleft) (admitOrCancel_error hright)

theorem submitTask (htok : d.tokenizer = c.tokenizer) (a : Submission) :
    Lockstep Alike (submitTask c a) r (submitTask d a) q := by
  refine (h.onSessions _).bind (fun state _ _ h => ?_)
  refine (h.onGraph (h.graphs.create _ _ _ _ _ _ _)).bind (fun branch _ _ h => ?_)
  rw [htok]
  split
  · exact lockstep_throw _ h
  · refine (h.onGraph (h.graphs.appendPrivatePrompt _ _ _)).bind (fun _ _ _ h => ?_)
    cases deadlineAt a with
    | none => exact lockstep_throw _ h
    | some deadline =>
      exact (h.admitOrCancel _ _).bind (fun _ _ _ h =>
        (h.inc _ _).bind (fun _ _ _ h => lockstep_pure _ h))

end Alike

/-- The tokens of the session are read after the branches are invalidated. -/
theorem afterApply_revised (hengine : c.engine.NeverRaises) {event : STTEvent} {diff : TranscriptDiff}
    {m : SessionManager} {session : ConversationSession} (h : Coherent m r.branches r.scheduler)
    (hacc : Accepted c.tokenizer event m session diff)
    (hinst : Installed m r.sessions event.sessionId session) :
    ∃ ids mid revised, ∃ out : ℕ × ℕ, ∃ next,
      onGraph (BranchGraph.invalidate event.sessionId diff.changedRange diff.newVersion) { r with metrics := r.metrics.inc .sttEventsAccepted 1 } = .ok ids mid ∧
      cancelInvalidated c ids mid = .ok () revised ∧ OnlyCache revised next ∧ next.kv.Sound ∧
      next.kv.view.branches = revised.kv.view.branches ∧
      afterApply c event diff r = .ok ⟨true,false,some diff,ids,out.1,out.2⟩ next := by
  have hprog := hinst.progress hacc.advances
  have hcount : (inc MetricName.sttEventsAccepted 1 : EStateM RuntimeError (CueBeeRuntime S) Unit) r =
      .ok () { r with metrics := r.metrics.inc .sttEventsAccepted 1 } := rfl
  obtain ⟨ids,r1,r2,hinv,hcancel,-,-,heffect⟩ := invalidation_ok (r := { r with
    metrics := r.metrics.inc .sttEventsAccepted 1 }) hengine h hprog hacc
  have hagrees : Agrees (m.current event.sessionId) (r2.kv.view.sessions event.sessionId) := by
    rw [heffect.reads]
    exact h.agrees event.sessionId
  obtain ⟨out,r3,xs,hupdate,honly,hsound,hview,-⟩ := updateCache_ok (r := r2) hengine heffect.sound
    hacc (heffect.sessions ▸ hinst) hagrees
  have hvalid : onKV VersionedKVManager.validateRefCounts r3 = .ok () r3 :=
    onKV_ok (validateRefCounts_spec hsound.ledger)
  refine ⟨ids,r1,r2,out,r3,hinv,hcancel,honly,hsound,by rw [hview]; rfl,?_⟩
  simp only [afterApply,bind_ok hcount,bind_ok hinv,bind_ok hcancel,bind_ok hupdate,bind_ok hvalid]
  rfl

theorem eventCounts_congr {o o' : EventOutcome} (h : o.answer = o'.answer) {name : MetricName}
    (hname : ofTokens name = false) : eventCounts o name = eventCounts o' name := by
  have hids : o.invalidatedTasks = o'.invalidatedTasks := congrArg EventAnswer.invalidatedTasks h
  simp only [ofTokens,Bool.or_eq_false_iff,decide_eq_false_iff_not] at hname
  simp only [eventCounts,Pi.add_apply,Pi.single_eq_of_ne hname.1,Pi.single_eq_of_ne hname.2,hids]

/-- Both caches take their own tokens, and the rest stays alike. -/
theorem Alike.afterApply (h : Alike r q) (hengine : c.engine.NeverRaises)
    (hother : d.engine.NeverRaises) (htok : d.tokenizer = c.tokenizer) {event : STTEvent}
    {diff : TranscriptDiff} {m : SessionManager} {session : ConversationSession}
    (hr : Coherent m r.branches r.scheduler) (hq : Coherent m q.branches q.scheduler)
    (hacc : Accepted c.tokenizer event m session diff)
    (hinst : Installed m r.sessions event.sessionId session) :
    ∃ o o' next next', CueBeeRuntime.afterApply c event diff r = .ok o next ∧
      CueBeeRuntime.afterApply d event diff q = .ok o' next' ∧ o.answer = o'.answer ∧
      Alike next next' := by
  obtain ⟨ids,r1,r2,out,r3,hinv,hcancel,honly,hsound,hkept,hrun⟩ := afterApply_revised hengine hr hacc hinst
  obtain ⟨ids',q1,q2,out',q3,hinv',hcancel',honly',hsound',hkept',hrun'⟩ :=
    afterApply_revised (c := d) hother hq (htok ▸ hacc) (h.sessions ▸ hinst)
  have hstart : Alike { r with metrics := r.metrics.inc .sttEventsAccepted 1 }
      { q with metrics := q.metrics.inc .sttEventsAccepted 1 } := (h.inc .sttEventsAccepted 1).2
  obtain ⟨hids,hmid⟩ := hstart.onGraph (hstart.graphs.invalidate event.sessionId diff.changedRange
    diff.newVersion)
  rw [outcome_ok hinv,outcome_ok hinv',Except.ok.injEq] at hids
  rw [after_ok hinv,after_ok hinv'] at hmid
  subst hids
  have hrevised := (hmid.cancelInvalidated hengine hother ids).2
  rw [after_ok hcancel,after_ok hcancel'] at hrevised
  refine ⟨_,_,r3,q3,hrun,hrun',rfl,?_,?_,⟨hsound,hsound',?_,fun id => ?_⟩,?_,fun name hname => ?_⟩
  · exact honly.revisions.trans (hrevised.revisions.trans honly'.revisions.symm)
  · exact honly.sessions.trans (hrevised.sessions.trans honly'.sessions.symm)
  · exact honly.branches.trans (hrevised.graphs.branches.trans honly'.branches.symm)
  · show r3.kv.view.branches id = none ↔ q3.kv.view.branches id = none
    rw [hkept,hkept']
    exact hrevised.graphs.references id
  · exact honly.scheduler.trans (hrevised.scheduler.trans honly'.scheduler.symm)
  · rw [afterApply_raised hrun name,afterApply_raised hrun' name,h.counters name hname]
    refine congrArg _ (eventCounts_congr ?_ hname)
    rfl

theorem Alike.handleEvent (h : Alike r q) (hengine : c.engine.NeverRaises)
    (hother : d.engine.NeverRaises) (htok : d.tokenizer = c.tokenizer) (hr : Inv r) (hq : Inv q)
    (event : STTEvent) :
    Lockstep Alike (EventOutcome.answer <$> CueBeeRuntime.handleEvent c event) r
      (EventOutcome.answer <$> CueBeeRuntime.handleEvent d event) q := by
  cases handled c event r with
  | dropped a hnorm hrun =>
    have hrun' := handleEvent_dropped (c := d) (r := q) (h.revisions ▸ hnorm)
    have hcounted := h.inc .sttEventsDropped 1
    refine .of_ok (map_ok hrun) (map_ok hrun') ⟨rfl,h.sessions,h.graphs,h.scheduler,?_⟩
    exact hcounted.2.counters
  | rejected e a error m hnorm happly hrun =>
    have hrun' := handleEvent_rejected (c := d) (r := q) (h.revisions ▸ hnorm)
      (htok ▸ h.sessions ▸ happly)
    exact .of_error (map_error hrun) (map_error hrun') ⟨rfl,rfl,h.graphs,h.scheduler,h.counters⟩
  | accepted e a diff m hnorm happly hrun =>
    have hrun' := handleEvent_accepted (c := d) (r := q) (h.revisions ▸ hnorm)
      (htok ▸ h.sessions ▸ happly)
    obtain ⟨-,session,hacc,hinst⟩ := apply_ok happly
    have hmid : Alike { r with revisions := a, sessions := m } { q with revisions := a, sessions := m } :=
      ⟨rfl,rfl,h.graphs,h.scheduler,h.counters⟩
    obtain ⟨o,o',next,next',hafter,hafter',hsame,hlast⟩ := hmid.afterApply hengine hother htok hr
      (h.sessions ▸ hq) hacc hinst
    have hleft := map_ok (f := EventOutcome.answer) (hrun.trans hafter)
    have hright := map_ok (f := EventOutcome.answer) (hrun'.trans hafter')
    exact .of_ok hleft (hsame ▸ hright) hlast

/-- The caches agree where nothing is tentative. -/
theorem Alike.resident (h : Alike r q) (hr : Inv r) (hq : Inv q) {s : SessionId}
    (hs : (r.sessions.current s).tentativeTokens = []) :
    outcome (VersionedKVManager.sessionTokens s) r.kv =
      outcome (VersionedKVManager.sessionTokens s) q.kv := by
  obtain ⟨tail,htail,hxs⟩ := hr.agrees s
  obtain ⟨tail',htail',hxs'⟩ := hq.agrees s
  rw [← h.sessions] at htail' hxs'
  rw [hs,List.prefix_nil] at htail htail'
  have hsame : r.kv.view.sessions s = q.kv.view.sessions s :=
    hxs.trans (by rw [htail,← htail']; exact hxs'.symm)
  have hread : outcome (VersionedKVManager.sessionTokens s) r.kv =
      .ok ((r.kv.view.sessions s).map Prod.fst) := outcome_sessionTokens hr.sound s
  rw [hread,hsame]
  exact (outcome_sessionTokens hq.sound s).symm

theorem Alike.symm (h : Alike r q) : Alike q r where
  revisions := h.revisions.symm
  sessions := h.sessions.symm
  graphs := ⟨h.graphs.right,h.graphs.left,h.graphs.branches.symm,fun id => (h.graphs.references id).symm⟩
  scheduler := h.scheduler.symm
  counters name hname := (h.counters name hname).symm

theorem Alike.trans {U : Type} {k : CueBeeRuntime U} (h : Alike r q) (h' : Alike q k) : Alike r k where
  revisions := h.revisions.trans h'.revisions
  sessions := h.sessions.trans h'.sessions
  graphs := ⟨h.graphs.left,h'.graphs.right,h.graphs.branches.trans h'.graphs.branches,
    fun id => (h.graphs.references id).trans (h'.graphs.references id)⟩
  scheduler := h.scheduler.trans h'.scheduler
  counters name hname := (h.counters name hname).trans (h'.counters name hname)

theorem alike_init (sizeR sizeQ : ℕ) (hsizeR : 0 < sizeR) (hsizeQ : 0 < sizeQ) (admissionCap : ℕ)
    (hcap : 0 < admissionCap) (e : S) (f : T) :
    Alike (init sizeR hsizeR admissionCap hcap e) (init sizeQ hsizeQ admissionCap hcap f) where
  revisions := rfl
  sessions := rfl
  graphs := ⟨(inv_init sizeR hsizeR admissionCap hcap e).sound,
    (inv_init sizeQ hsizeQ admissionCap hcap f).sound,rfl,fun _ => Iff.rfl⟩
  scheduler := rfl
  counters _ _ := rfl

end CueBeeRuntime
open CueBeeRuntime

/-- What a caller is told. -/
inductive Told
  | event (answer : EventAnswer)
  | submitted (task : AnalysisTask PyFloat)
  | shed (dropped : List TaskId)
  | started (flight : Option Flight)
  | finished (outcome : TaskOutcome)

namespace Move

/-- The move in a runtime with another engine, unless only the settings of this one change. -/
def carried {S : Type} (T : Type) : Move S → Option (Move T)
  | .handleEvent event => some (.handleEvent event)
  | .submitTask a => some (.submitTask a)
  | .shedLoad targetActive => some (.shedLoad targetActive)
  | .start now => some (.start now)
  | .finish i result => some (.finish i result)
  | .setGpuLoad _ | .engine _ => none

end Move

namespace LiveRuntime
variable {S T : Type} {c : Services S} {d : Services T} {s : LiveRuntime S} {t : LiveRuntime T}

variable (c) in
def told : Move S → LiveRuntime S → Option (Except RuntimeError Told)
  | .handleEvent event, s => 
    some (outcome (.event <$> EventOutcome.answer <$> handleEvent c event) s.runtime)
  | .submitTask a, s => some (outcome (.submitted <$> submitTask c a) s.runtime)
  | .shedLoad targetActive, s => some (outcome (.shed <$> shedLoad targetActive) s.runtime)
  | .start now, s => some (outcome (.started <$> startNext c now) s.runtime)
  | .finish i result, s => (s.generations[i]?).map (fun g =>
      outcome (.finished <$> finishNext g.flight result) s.runtime)
  | .setGpuLoad _, _ | .engine _, _ => none

variable (c) in
/-- What the callers are told in a run. -/
def toldAll : List (Move S) → LiveRuntime S → List (Except RuntimeError Told)
  | [], _ => []
  | move :: rest, s => (told c move s).toList ++ toldAll rest (step c move s)

/-- Runtimes that are alike and generate the same. -/
structure Alike (s : LiveRuntime S) (t : LiveRuntime T) : Prop where
  runtime : s.runtime.Alike t.runtime
  generations : s.generations = t.generations
  submitted : s.submitted = t.submitted
  outcomes : s.outcomes = t.outcomes

theorem Alike.symm (h : Alike s t) : Alike t s :=
  ⟨h.runtime.symm,h.generations.symm,h.submitted.symm,h.outcomes.symm⟩

theorem Alike.trans {U : Type} {u : LiveRuntime U} (h : Alike s t) (h' : Alike t u) : Alike s u :=
  ⟨h.runtime.trans h'.runtime,h.generations.trans h'.generations,h.submitted.trans h'.submitted,
    h.outcomes.trans h'.outcomes⟩

/-- What the caller is told is all that the rest of the runtime sees of a call. -/
theorem Alike.told_map {α : Type} (f : α → Told) {x : EStateM RuntimeError (CueBeeRuntime S) α}
    {y : EStateM RuntimeError (CueBeeRuntime T) α}
    (h : Lockstep CueBeeRuntime.Alike x s.runtime y t.runtime) :
    outcome (f <$> x) s.runtime = outcome (f <$> y) t.runtime := by
  rw [outcome_map,outcome_map,h.1]

/-- A move that both make. -/
theorem Alike.move (h : Alike s t) (hengine : c.engine.NeverRaises) (hother : d.engine.NeverRaises)
    (htok : d.tokenizer = c.tokenizer) (hs : Inv s.runtime) (ht : Inv t.runtime) {move : Move S}
    {carried : Move T} (hcarried : move.carried T = some carried) :
    told c move s = told d carried t ∧ Alike (step c move s) (step d carried t) := by
  cases move with
  | setGpuLoad load | engine state => cases hcarried
  | handleEvent event =>
    cases hcarried
    have hcall := h.runtime.handleEvent hengine hother htok hs ht event
    have hrel := hcall.2
    rw [after_map,after_map] at hrel
    exact ⟨congrArg some (told_map _ hcall),hrel,h.generations,h.submitted,h.outcomes⟩
  | submitTask a =>
    cases hcarried
    have hcall := h.runtime.submitTask htok a
    refine ⟨congrArg some (told_map _ hcall),?_⟩
    rcases hcall.runs with ⟨task,r,q,hleft,hright,hrel⟩ | ⟨e,r,q,hleft,hright,hrel⟩
    · simp only [step,hleft,hright]
      refine ⟨hrel,h.generations,?_,h.outcomes⟩
      rw [h.submitted,h.runtime.sessions]
    · simp only [step,hleft,hright]
      exact ⟨hrel,h.generations,h.submitted,h.outcomes⟩
  | shedLoad targetActive =>
    cases hcarried
    have hcall := h.runtime.shedLoad targetActive
    exact ⟨congrArg some (told_map _ hcall),hcall.2,h.generations,h.submitted,h.outcomes⟩
  | start now =>
    cases hcarried
    have hcall := h.runtime.startNext htok now
    refine ⟨congrArg some (told_map _ hcall),?_⟩
    rcases hcall.runs with ⟨started,r,q,hleft,hright,hrel⟩ | ⟨e,r,q,hleft,hright,hrel⟩
    · cases started with
      | none =>
        simp only [step,hleft,hright]
        exact ⟨hrel,h.generations,h.submitted,h.outcomes⟩
      | some flight =>
        simp only [step,hleft,hright]
        refine ⟨hrel,?_,h.submitted,h.outcomes⟩
        rw [h.generations,h.runtime.sessions]
    · simp only [step,hleft,hright]
      exact ⟨hrel,h.generations,h.submitted,h.outcomes⟩
  | finish i result =>
    cases hcarried
    cases hg : s.generations[i]? with
    | none =>
      have hother : t.generations[i]? = none := h.generations ▸ hg
      simp only [told,step,hg,hother]
      exact ⟨rfl,h⟩
    | some g =>
      have hother : t.generations[i]? = some g := h.generations ▸ hg
      have hcall := h.runtime.finishNext g.flight result
      simp only [told,hg,hother]
      refine ⟨congrArg some (told_map _ hcall),?_⟩
      rcases hcall.runs with ⟨o,r,q,hleft,hright,hrel⟩ | ⟨e,r,q,hleft,hright,hrel⟩
      · simp only [step,hg,hother,hleft,hright]
        exact ⟨hrel,by rw [h.generations],h.submitted,by rw [h.outcomes]⟩
      · simp only [step,hg,hother,hleft,hright]
        exact ⟨hrel,by rw [h.generations],h.submitted,h.outcomes⟩

/-- A move is safe in both or in none. -/
theorem Alike.safeMove_iff (h : Alike s t) {move : Move S} {carried : Move T}
    (hcarried : move.carried T = some carried) : SafeMove move s ↔ SafeMove carried t := by
  cases move with
  | setGpuLoad load | engine state => cases hcarried
  | handleEvent _ | shedLoad _ | start _ | finish _ _ =>
    cases hcarried
    exact Iff.rfl
  | submitTask a =>
    cases hcarried
    simp only [SafeMove,DeadlineFits,h.runtime.sessions,h.runtime.graphs.branches]

/-- A system in flight whose runtime has its invariant. -/
structure Sound (s : LiveRuntime S) : Prop where
  flying : Flying s
  inv : Inv s.runtime

theorem Sound.step (h : Sound s) (htotal : c.tokenizer.Total) (hengine : c.engine.NeverRaises)
    {move : Move S} (hsafe : SafeMove move s) : Sound (step c move s) :=
  ⟨keeps_flying move s h.flying,inv_step htotal hengine h.flying h.inv hsafe⟩

theorem sound_init (blockSize : ℕ) (hblock : 0 < blockSize) (admissionCap : ℕ)
    (hcap : 0 < admissionCap) (e : S) : Sound (init blockSize hblock admissionCap hcap e) :=
  ⟨flying_init blockSize hblock admissionCap hcap e,inv_init blockSize hblock admissionCap hcap e⟩

/-- What follows a run of safe moves. -/
structure Follows (c : Services S) (d : Services T) (moves : List (Move S)) (s : LiveRuntime S)
    (t : LiveRuntime T) : Prop where
  told : toldAll c moves s = toldAll d (moves.filterMap (Move.carried T)) t
  alike : Alike (runAll (act c) moves s) (runAll (act d) (moves.filterMap (Move.carried T)) t)
  sound : Sound (runAll (act c) moves s)
  safe : RunMeets (act d) SafeMove (moves.filterMap (Move.carried T)) t

/-- The other runtime follows without the moves that only change the settings. The moves are safe
in both as soon as they are in one. -/
theorem Alike.follow (h : Alike s t) (htotal : c.tokenizer.Total) (hengine : c.engine.NeverRaises)
    (hother : d.engine.NeverRaises) (htok : d.tokenizer = c.tokenizer) (hs : Sound s) (ht : Sound t)
    {moves : List (Move S)} (hsafe : RunMeets (act c) SafeMove moves s ∨
      RunMeets (act d) SafeMove (moves.filterMap (Move.carried T)) t) : Follows c d moves s t := by
  induction moves generalizing s t with
  | nil => exact ⟨rfl,h,hs,trivial⟩
  | cons move rest ih =>
    cases hcarried : move.carried T with
    | none =>
      have hsettings : SafeMove move s := by
        cases move with
        | setGpuLoad load | engine state => trivial
        | handleEvent _ | submitTask _ | shedLoad _ | start _ | finish _ _ => cases hcarried
      have hs' : Sound (step c move s) := hs.step htotal hengine hsettings
      have hquiet : told c move s = none ∧ Alike (step c move s) t := by
        cases move with
        | setGpuLoad load | engine state =>
          have hr := h.runtime
          exact ⟨rfl,⟨hr.revisions,hr.sessions,hr.graphs,hr.scheduler,hr.counters⟩,h.generations,
            h.submitted,h.outcomes⟩
        | handleEvent _ | submitTask _ | shedLoad _ | start _ | finish _ _ => cases hcarried
      rw [List.filterMap_cons_none hcarried] at hsafe
      have hrest := ih hquiet.2 hs' ht (hsafe.imp_left And.right)
      refine ⟨?_,?_,?_,?_⟩
      · rw [List.filterMap_cons_none hcarried,toldAll,hquiet.1]
        exact hrest.told
      · rw [List.filterMap_cons_none hcarried]
        exact hrest.alike
      · exact hrest.sound
      · rw [List.filterMap_cons_none hcarried]
        exact hrest.safe
    | some carried =>
      rw [List.filterMap_cons_some hcarried] at hsafe
      have hmove : SafeMove move s := hsafe.elim And.left
        (fun hsafe => (h.safeMove_iff hcarried).mpr hsafe.1)
      have hmove' : SafeMove carried t := (h.safeMove_iff hcarried).mp hmove
      obtain ⟨htold,hnext⟩ := h.move hengine hother htok hs.inv ht.inv hcarried
      have hrest := ih hnext (hs.step htotal hengine hmove)
        (ht.step (htok ▸ htotal) hother hmove') (hsafe.imp And.right And.right)
      refine ⟨?_,?_,hrest.sound,?_⟩
      · rw [List.filterMap_cons_some hcarried,toldAll,toldAll,htold,hrest.told]
      · rw [List.filterMap_cons_some hcarried]
        exact hrest.alike
      · rw [List.filterMap_cons_some hcarried]
        exact ⟨hmove',hrest.safe⟩

theorem alike_init (sizeS sizeT : ℕ) (hsizeS : 0 < sizeS) (hsizeT : 0 < sizeT) (admissionCap : ℕ)
    (hcap : 0 < admissionCap) (e : S) (f : T) :
    Alike (init sizeS hsizeS admissionCap hcap e) (init sizeT hsizeT admissionCap hcap f) :=
  ⟨CueBeeRuntime.alike_init sizeS sizeT hsizeS hsizeT admissionCap hcap e f,rfl,rfl,rfl⟩

/-- No load is at most `nan`, so that no tentative tail is prefilled. -/
def plainPolicy : TentativePrefillPolicy := ⟨0,.fin 0,.nan⟩

/-- The engine is told nothing. -/
def plainServices (tokenizer : Tokenizer) : Services Unit :=
  ⟨tokenizer,quietEngine,plainPolicy⟩

end LiveRuntime
open LiveRuntime

/-- Two runtimes with one tokenizer and one admission cap that make the same safe moves tell their
callers the same and stay alike, whatever their block sizes, prefill policies, GPU loads and
engines; where nothing is tentative, their caches hold the same tokens. -/
theorem settings_unseen {S T : Type} (c : Services S) (d : Services T) (htotal : c.tokenizer.Total)
    (hengine : c.engine.NeverRaises) (hother : d.engine.NeverRaises)
    (htok : d.tokenizer = c.tokenizer) (sizeS sizeT : ℕ) (hsizeS : 0 < sizeS) (hsizeT : 0 < sizeT)
    (admissionCap : ℕ) (hcap : 0 < admissionCap) (e : S) (f : T) (moves : List (Move S))
    (more : List (Move T))
    (hsame : more.filterMap (Move.carried Unit) = moves.filterMap (Move.carried Unit))
    (hsafe : RunMeets (act c) SafeMove moves (LiveRuntime.init sizeS hsizeS admissionCap hcap e)) :
    let startS := LiveRuntime.init sizeS hsizeS admissionCap hcap e
    let startT := LiveRuntime.init sizeT hsizeT admissionCap hcap f
    let s := runAll (act c) moves startS
    let t := runAll (act d) more startT
    toldAll c moves startS = toldAll d more startT ∧ LiveRuntime.Alike s t ∧
      ∀ id, (s.runtime.sessions.current id).tentativeTokens = [] →
        outcome (VersionedKVManager.sessionTokens id) s.runtime.kv =
          outcome (VersionedKVManager.sessionTokens id) t.runtime.kv := by
  intro startS startT s t
  have hplain : Sound (LiveRuntime.init sizeS hsizeS admissionCap hcap ()) :=
    sound_init sizeS hsizeS admissionCap hcap ()
  have hleft : Follows c (plainServices c.tokenizer) moves startS _ :=
    (LiveRuntime.alike_init sizeS sizeS hsizeS hsizeS admissionCap hcap e ()).follow htotal hengine
      quietEngine_neverRaises rfl (sound_init sizeS hsizeS admissionCap hcap e) hplain (.inl hsafe)
  have hright : Follows d (plainServices c.tokenizer) more startT _ :=
    (LiveRuntime.alike_init sizeT sizeS hsizeT hsizeS admissionCap hcap f ()).follow
      (htok ▸ htotal) hother quietEngine_neverRaises htok.symm
      (sound_init sizeT hsizeT admissionCap hcap f) hplain (.inr (hsame ▸ hleft.safe))
  have htold := hright.told
  have halike := hright.alike
  rw [hsame] at htold halike
  have hboth := hleft.alike.trans halike.symm
  exact ⟨hleft.told.trans htold.symm,hboth,fun id hid =>
    hboth.runtime.resident hleft.sound.inv hright.sound.inv hid⟩

/-- A tail that one runtime prefills and the other does not. -/
theorem settings_unseen_tail :
    let c := quietServices lenientTokenizer
    let d := plainServices lenientTokenizer
    let event := heard "g" 0 .appendPartial "hello there" (by decide) (by decide)
    let final := heard "g" 1 .commitFinal "hello you" (by decide) (by decide)
    let moves : List (Move Unit) := [.handleEvent event,
      .submitTask (asked "t" .proactiveHint (lit "why")),.start (.fin 1),.handleEvent final]
    let startS := LiveRuntime.init 4 (by decide) 8 (by decide) ()
    let startT := LiveRuntime.init 1 (by decide) 8 (by decide) ()
    (toldAll c moves startS).length = 4 ∧ toldAll c moves startS = toldAll d moves startT ∧
      LiveRuntime.Alike (runAll (act c) moves startS) (runAll (act d) moves startT) := by
  intro c d event final moves startS startT
  obtain ⟨htold,halike,-⟩ := settings_unseen c d lenientTokenizer_total quietEngine_neverRaises
    quietEngine_neverRaises rfl 4 1 (by decide) (by decide) 8 (by decide) () () moves moves rfl
    ⟨trivial,fun _ => .inl (by decide +kernel),trivial,trivial,trivial⟩
  exact ⟨by decide +kernel,htold,halike⟩

end CueBee.Runtime
