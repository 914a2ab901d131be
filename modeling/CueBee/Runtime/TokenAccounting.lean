import Mathlib.Algebra.GroupWithZero.Nat
import CueBee.Cache.RollbackCounter
import CueBee.Runtime.RuntimeRuns

/-! # Tokens are accounted for

`handle_event` counts tokens where it rolls the cache back and where it prefills it. The
counters, the outcomes it returns and the tokens in the cache tell the same story.
-/
namespace CueBee.Runtime
open Cache Transcript Raising PyStr VersionedKVManager

/-- `counters.get(name, 0)`. -/
def MetricRegistry.counter (name : MetricName) (m : MetricRegistry) : ℕ := (m.get? name).getD 0

theorem MetricRegistry.counter_inc_self (name : MetricName) (amount : ℕ) (m : MetricRegistry) :
    (m.inc name amount).counter name = m.counter name + amount := by
  rw [counter,inc,Dict.get?_set_self]
  rfl

theorem MetricRegistry.counter_inc_ne {name other : MetricName} (h : other ≠ name) (amount : ℕ)
    (m : MetricRegistry) : (m.inc name amount).counter other = m.counter other := by
  rw [counter,inc,Dict.get?_set_ne _ _ h]
  rfl

/-- The counter of the cache survives whatever the graph asks of it. -/
theorem spared_rolledBack (n : ℕ) : BranchGraph.Spared (fun g => RolledBack n g.kv) := by
  have hcall : ∀ {α : Type} {x : EStateM KVError VersionedKVManager α}, Keeps (RolledBack n) x →
      Keeps (fun g : BranchGraph => RolledBack n g.kv) (BranchGraph.onKV x) := fun hx =>
    keeps_iff.mpr (fun g hg => ensures_focus.mpr (keeps_iff.mp hx g.kv hg))
  constructor
  · intro branch g hg
    exact hg
  · intro id sessionId includeTentative
    exact hcall (keeps_forkBranch id sessionId includeTentative)
  · intro id tokenIds version
    exact hcall (keeps_appendBranch id tokenIds version)
  · intro id
    exact hcall (keeps_releaseBranch id)

namespace CueBeeRuntime
variable {S : Type} {c : Services S} {r next : CueBeeRuntime S} {p q : ℕ}

/-- `p` prefilled and `q` rolled-back tokens have been counted, the latter by the cache too. -/
structure Counted (p q : ℕ) (r : CueBeeRuntime S) : Prop where
  prefilled : r.metrics.counter .prefillTokens = p
  rolledBack : r.metrics.counter .rollbackTokens = q
  cache : RolledBack q r.kv

theorem counted_init (blockSize : ℕ) (hblock : 0 < blockSize) (admissionCap : ℕ)
    (hcap : 0 < admissionCap) (e : S) :
    Counted 0 0 (init blockSize hblock admissionCap hcap e) := ⟨rfl,rfl,rfl⟩

theorem counted_inc {name : MetricName} (h : MetricName.countsTokens name = false) (amount : ℕ) :
    Keeps (Counted (S := S) p q) (inc name amount) := by
  refine keeps_modify (fun r hr => ⟨?_,?_,hr.cache⟩)
  · have hne : MetricName.prefillTokens ≠ name := by
      rintro rfl
      cases h
    exact (MetricRegistry.counter_inc_ne hne amount r.metrics).trans hr.prefilled
  · have hne : MetricName.rollbackTokens ≠ name := by
      rintro rfl
      cases h
    exact (MetricRegistry.counter_inc_ne hne amount r.metrics).trans hr.rolledBack

theorem counted_onGraph {α : Type} {x : EStateM GraphError BranchGraph α}
    (hx : Keeps (fun g => RolledBack q g.kv) x) : Keeps (Counted (S := S) p q) (onGraph x) := by
  refine keeps_iff.mpr (fun r hr => ensures_focus.mpr ?_)
  refine (keeps_iff.mp hx r.branches hr.cache).mono (fun a g hg => ?_) (fun e g hg => ?_)
  · exact ⟨hr.prefilled,hr.rolledBack,hg⟩
  · exact ⟨hr.prefilled,hr.rolledBack,hg⟩

theorem counted_onKV {α : Type} {x : EStateM KVError VersionedKVManager α}
    (hx : Keeps (RolledBack q) x) : Keeps (Counted (S := S) p q) (onKV x) :=
  counted_onGraph (keeps_iff.mpr (fun g hg => ensures_focus.mpr (keeps_iff.mp hx g.kv hg)))

theorem counted_onEngine {α : Type} (x : EStateM EngineError S α) :
    Keeps (Counted p q) (onEngine x) :=
  keeps_onEngine (fun _ _ hr => ⟨hr.prefilled,hr.rolledBack,hr.cache⟩) x

theorem steps_counted (c : Services S) (p q : ℕ) : Steps c (Counted p q) where
  scheduler _ _ hr := ⟨hr.prefilled,hr.rolledBack,hr.cache⟩
  inc _ amount h := counted_inc h amount
  graph _ hx := counted_onGraph (hx _ (spared_rolledBack q))
  abort _ := counted_onEngine _
  generate _ := counted_onEngine _

theorem onKV_inv {α : Type} {x : EStateM KVError VersionedKVManager α} {a : α}
    (h : onKV x r = .ok a next) : ∃ k, x r.kv = .ok a k ∧ next = r.withKV k := by
  cases hx : x r.kv with
  | ok b k =>
    rw [onKV_ok hx] at h
    cases h
    exact ⟨k,rfl,rfl⟩
  | error e k =>
    rw [onKV_error hx] at h
    cases h

theorem Counted.rollBack (h : Counted p q r) {s : SessionId} {rollbackFrom n : ℕ}
    (hrun : rollBack s rollbackFrom r = .ok n next) : Counted p (q + n) next := by
  obtain ⟨tokens,r1,hread,hrun⟩ := bind_ok_iff.mp hrun
  have h1 := (counted_onKV (keeps_sessionTokens s)).ok h hread
  split at hrun
  · obtain ⟨result,r2,hroll,hrun⟩ := bind_ok_iff.mp hrun
    obtain ⟨k,hk,rfl⟩ := onKV_inv hroll
    have hcache := rolledBack_rollbackTentative hk h1.cache
    cases hrun
    refine ⟨?_,?_,hcache⟩
    · exact (MetricRegistry.counter_inc_ne (by decide) _ _).trans h1.prefilled
    · exact (MetricRegistry.counter_inc_self _ _ _).trans (congrArg (· + _) h1.rolledBack)
  · cases hrun
    exact h1

theorem Counted.prefillMissing (h : Counted p q r) {event : STTEvent}
    {version commitFrontier replaceFrom n : ℕ} {missing : List Token}
    (hrun : prefillMissing c event version commitFrontier replaceFrom missing r = .ok n next) :
    Counted (p + n) q next := by
  unfold CueBeeRuntime.prefillMissing at hrun
  split at hrun
  · next hmissing =>
    obtain ⟨sent,r1,hsend,hrun⟩ := bind_ok_iff.mp hrun
    have hsends : Keeps (Counted p q)
        (sendTokens c event version commitFrontier replaceFrom missing hmissing) := by
      unfold sendTokens
      split
      · exact counted_onEngine _
      · exact counted_onEngine _
    have h1 := hsends.ok h hsend
    obtain ⟨appended,r2,happend,hrun⟩ := bind_ok_iff.mp hrun
    have h2 := (counted_onKV (keeps_appendSession _ _ _ _)).ok h1 happend
    cases hrun
    refine ⟨?_,?_,h2.cache⟩
    · exact (MetricRegistry.counter_inc_self _ _ _).trans (congrArg (· + _) h2.prefilled)
    · exact (MetricRegistry.counter_inc_ne (by decide) _ _).trans h2.rolledBack
  · cases hrun
    exact h

theorem Counted.reviseCache (h : Counted p q r) {event : STTEvent} {diff : TranscriptDiff}
    {out : ℕ × ℕ} (hrun : reviseCache c event diff r = .ok out next) :
    Counted (p + out.1) (q + out.2) next := by
  obtain ⟨rolledBack,r1,hroll,hrun⟩ := bind_ok_iff.mp hrun
  have h1 := h.rollBack hroll
  obtain ⟨state,r2,hget,hrun⟩ := bind_ok_iff.mp hrun
  have h2 := (Steps.onSessions_get event.sessionId).ok h1 hget
  obtain ⟨resident,r3,hread,hrun⟩ := bind_ok_iff.mp hrun
  have h3 := (counted_onKV (keeps_sessionTokens event.sessionId)).ok h2 hread
  split at hrun
  · cases hrun
  · obtain ⟨r4,r5,hself,hrun⟩ := bind_ok_iff.mp hrun
    cases hself
    obtain ⟨prefilled,r6,hfill,hrun⟩ := bind_ok_iff.mp hrun
    have h6 : Counted (p + prefilled) (q + rolledBack) r6 := by
      split at hfill
      · exact h3.prefillMissing hfill
      · cases hfill
        exact h3
    obtain ⟨committed,r7,hcommit,hrun⟩ := bind_ok_iff.mp hrun
    have hcommits : Keeps (Counted (p + prefilled) (q + rolledBack))
        (commitCache event state.commitFrontier diff.newVersion : EStateM RuntimeError
          (CueBeeRuntime S) Unit) :=
      keeps_ite (fun _ => counted_onKV (keeps_commitTentative _ _ _)) (fun _ => keeps_pure _)
    have h7 := hcommits.ok h6 hcommit
    cases hrun
    exact h7

theorem Counted.updateCache (h : Counted p q r) {event : STTEvent} {diff : TranscriptDiff}
    {out : ℕ × ℕ} (hrun : updateCache c event diff r = .ok out next) :
    Counted (p + out.1) (q + out.2) next := by
  unfold CueBeeRuntime.updateCache at hrun
  split at hrun
  · cases hrun
    exact h
  · exact h.reviseCache hrun

theorem Counted.afterApply (h : Counted p q r) {event : STTEvent} {diff : TranscriptDiff}
    {o : EventOutcome} (hrun : afterApply c event diff r = .ok o next) :
    Counted (p + o.prefilledTokens) (q + o.rollbackTokens) next := by
  have hsteps := steps_counted c p q
  obtain ⟨u,r1,haccept,hrun⟩ := bind_ok_iff.mp hrun
  have h1 := (hsteps.inc _ _ rfl).ok h haccept
  obtain ⟨ids,r2,hinvalidate,hrun⟩ := bind_ok_iff.mp hrun
  have h2 := (hsteps.graph _ (fun _ hJ => hJ.invalidate _ _ _)).ok h1 hinvalidate
  obtain ⟨v,r3,hcancel,hrun⟩ := bind_ok_iff.mp hrun
  have h3 := (hsteps.cancelInvalidated ids).ok h2 hcancel
  obtain ⟨out,r4,hupdate,hrun⟩ := bind_ok_iff.mp hrun
  have h4 := h3.updateCache hupdate
  obtain ⟨w,r5,hvalidate,hrun⟩ := bind_ok_iff.mp hrun
  have h5 := (counted_onKV keeps_validateRefCounts).ok h4 hvalidate
  cases hrun
  exact h5

/-- What a call returns to its caller if it is an event: its session and the outcome. -/
def returned (c : Services S) (call : Call) (r : CueBeeRuntime S) :
    List (SessionId × EventOutcome) :=
  match call with
  | .handleEvent event =>
    match handleEvent c event r with
    | .ok o _ => [(event.sessionId,o)]
    | .error _ _ => []
  | _ => []

/-- The outcomes that a run returns, in order. -/
def outcomes (c : Services S) : List Call → CueBeeRuntime S → List (SessionId × EventOutcome)
  | [], _ => []
  | call :: rest, r => returned c call r ++ outcomes c rest (after (exec c call) r)

end CueBeeRuntime

def outcomesOf (s : SessionId) (history : List (SessionId × EventOutcome)) : List EventOutcome :=
  (history.filter (fun entry => entry.1 = s)).map Prod.snd

def prefilledTokens (outcomes : List EventOutcome) : ℕ :=
  (outcomes.map EventOutcome.prefilledTokens).sum

def rollbackTokens (outcomes : List EventOutcome) : ℕ :=
  (outcomes.map EventOutcome.rollbackTokens).sum

theorem outcomesOf_concat_self (s : SessionId) (o : EventOutcome)
    (history : List (SessionId × EventOutcome)) :
    outcomesOf s (history ++ [(s,o)]) = outcomesOf s history ++ [o] := by
  simp [outcomesOf]

theorem outcomesOf_concat_ne {s t : SessionId} (h : t ≠ s) (o : EventOutcome)
    (history : List (SessionId × EventOutcome)) :
    outcomesOf s (history ++ [(t,o)]) = outcomesOf s history := by
  simp [outcomesOf,h]

@[simp] theorem prefilledTokens_concat (os : List EventOutcome) (o : EventOutcome) :
    prefilledTokens (os ++ [o]) = prefilledTokens os + o.prefilledTokens := by
  simp [prefilledTokens]

@[simp] theorem rollbackTokens_concat (os : List EventOutcome) (o : EventOutcome) :
    rollbackTokens (os ++ [o]) = rollbackTokens os + o.rollbackTokens := by
  simp [rollbackTokens]

namespace CueBeeRuntime
variable {S : Type} {c : Services S} {r next : CueBeeRuntime S}
  {history : List (SessionId × EventOutcome)}

/-- The cache holds what the outcomes have prefilled less what they have rolled back, and the
counters are the sums over all sessions. -/
structure Accounted (history : List (SessionId × EventOutcome)) (r : CueBeeRuntime S) : Prop where
  resident : ∀ s, (r.kv.view.sessions s).length + rollbackTokens (outcomesOf s history) =
    prefilledTokens (outcomesOf s history)
  counted : Counted (prefilledTokens (history.map Prod.snd))
    (rollbackTokens (history.map Prod.snd)) r

theorem accounted_init (blockSize : ℕ) (hblock : 0 < blockSize) (admissionCap : ℕ)
    (hcap : 0 < admissionCap) (e : S) :
    Accounted [] (init blockSize hblock admissionCap hcap e) where
  resident _ := rfl
  counted := counted_init blockSize hblock admissionCap hcap e

/-- An outcome that says what has become of its session and of the counters. -/
theorem Accounted.concat (h : Accounted history r) {s : SessionId} {o : EventOutcome}
    (hself : (next.kv.view.sessions s).length + o.rollbackTokens =
      (r.kv.view.sessions s).length + o.prefilledTokens)
    (hothers : ∀ t, t ≠ s → next.kv.view.sessions t = r.kv.view.sessions t)
    (hcounted : ∀ p q, Counted p q r →
      Counted (p + o.prefilledTokens) (q + o.rollbackTokens) next) :
    Accounted (history ++ [(s,o)]) next := by
  constructor
  · intro t
    have hbefore := h.resident t
    by_cases ht : t = s
    · subst ht
      rw [outcomesOf_concat_self,prefilledTokens_concat,rollbackTokens_concat]
      omega
    · rw [outcomesOf_concat_ne (Ne.symm ht),hothers t ht]
      exact hbefore
  · rw [List.map_append,List.map_singleton,prefilledTokens_concat,rollbackTokens_concat]
    exact hcounted _ _ h.counted

/-- Neither the tokens nor their counters have changed. -/
theorem Accounted.same (h : Accounted history r)
    (hreads : next.kv.view.sessions = r.kv.view.sessions)
    (hcounted : ∀ p q, Counted p q r → Counted p q next) : Accounted history next where
  resident s := by
    rw [hreads]
    exact h.resident s
  counted := hcounted _ _ h.counted

theorem returned_ok {event : STTEvent} {o : EventOutcome}
    (hrun : handleEvent c event r = .ok o next) :
    returned c (.handleEvent event) r = [(event.sessionId,o)] := by
  simp only [returned,hrun]

theorem returned_error {event : STTEvent} {e : RuntimeError}
    (hrun : handleEvent c event r = .error e next) : returned c (.handleEvent event) r = [] := by
  simp only [returned,hrun]

theorem Accounted.handleEvent (h : Accounted history r) (hengine : c.engine.NeverRaises)
    (hinv : Inv r) (event : STTEvent) :
    Accounted (history ++ returned c (.handleEvent event) r) (after (handleEvent c event) r) := by
  cases handled c event r with
  | dropped a hnorm hrun =>
    rw [returned_ok hrun,after_ok hrun]
    refine h.concat rfl (fun _ _ => rfl) (fun p q hr => ?_)
    exact counted_inc rfl 1 { r with revisions := a } ⟨hr.prefilled,hr.rolledBack,hr.cache⟩
  | rejected e a error m hnorm happly hrun =>
    rw [returned_error hrun,after_error hrun,List.append_nil]
    exact h.same rfl (fun p q hr => ⟨hr.prefilled,hr.rolledBack,hr.cache⟩)
  | accepted e a diff m hnorm happly hrun =>
    obtain ⟨-,session,hacc,hinst⟩ := SessionManager.apply_ok happly
    obtain ⟨o,next,hafter,-,-,-,-,hreplies⟩ := afterApply_ok
      (r := { r with revisions := a, sessions := m }) hengine hinv hacc hinst
    obtain ⟨-,-,hrelabel,-⟩ := RevisionAdapter.normalize_some hnorm
    have hsession : e.sessionId = event.sessionId := by
      rw [hrelabel]
      rfl
    rw [returned_ok (hrun.trans hafter),after_ok (hrun.trans hafter),← hsession]
    refine h.concat hreplies.resident hreplies.others (fun p q hr => ?_)
    have hcounted : Counted p q { r with revisions := a, sessions := m } :=
      ⟨hr.prefilled,hr.rolledBack,hr.cache⟩
    exact hcounted.afterApply hafter

theorem steps_reads (c : Services S) (xs : SessionId → List (Token × Validity)) :
    Steps c (fun r => BranchGraph.SessionsRead xs r.branches) where
  scheduler _ _ hr := hr
  inc _ _ _ := keeps_modify (fun _ hr => hr)
  graph _ hx := keeps_iff.mpr (fun r hr =>
    ensures_focus.mpr (keeps_iff.mp (hx _ BranchGraph.spared_sessionsRead) r.branches hr))
  abort _ := keeps_onEngine (fun _ _ hr => hr) _
  generate _ := keeps_onEngine (fun _ _ hr => hr) _

theorem Accounted.exec (h : Accounted history r) (hengine : c.engine.NeverRaises) (hinv : Inv r)
    (call : Call) : Accounted (history ++ returned c call r) (after (exec c call) r) := by
  by_cases hevent : ∃ event, call = .handleEvent event
  · obtain ⟨event,rfl⟩ := hevent
    rw [CueBeeRuntime.exec,after_discard]
    exact h.handleEvent hengine hinv event
  · have hnone : returned c call r = [] := by
      cases call with
      | handleEvent event => exact absurd ⟨event,rfl⟩ hevent
      | submitTask a => rfl
      | runNext now => rfl
      | shedLoad targetActive => rfl
      | setGpuLoad load => rfl
    rw [hnone,List.append_nil]
    have hreads := (steps_reads c r.kv.view.sessions).exec
      (fun event he => absurd ⟨event,he⟩ hevent) (fun _ _ _ hr => hr) r ⟨hinv.sound,rfl⟩
    refine h.same hreads.2 (fun p q => (steps_counted c p q).exec
      (fun event he => absurd ⟨event,he⟩ hevent) (fun _ _ _ hr => ?_) r)
    exact ⟨hr.prefilled,hr.rolledBack,hr.cache⟩

theorem Accounted.run (h : Accounted history r) (htok : c.tokenizer.Total)
    (hengine : c.engine.NeverRaises) (hinv : Inv r) {calls : List Call}
    (hfits : RunMeets (CueBeeRuntime.exec c) DeadlineFits calls r) :
    Accounted (history ++ outcomes c calls r) (runAll (CueBeeRuntime.exec c) calls r) := by
  induction calls generalizing history r with
  | nil =>
    rw [outcomes,List.append_nil]
    exact h
  | cons call rest ih =>
    rw [outcomes,← List.append_assoc,runAll_cons]
    exact ih (h.exec hengine hinv call)
      (inv_exec hengine call r hinv (hfits.1.safeCall htok)) hfits.2

/-- After a final the session has no tentative tokens. -/
theorem final_tentativeTokens (hengine : c.engine.NeverRaises) (hinv : Inv r) {event : STTEvent}
    {o : EventOutcome} (hfinal : event.type = .commitFinal)
    (hrun : handleEvent c event r = .ok o next) (haccepted : o.accepted = true) :
    ∃ session, next.sessions.sessions.get? event.sessionId = some session ∧
      session.tentativeTokens = [] ∧ Inv next := by
  cases handled c event r with
  | dropped a hnorm hdropped =>
    rw [hdropped] at hrun
    cases hrun
    cases haccepted
  | rejected e a error m hnorm happly hrejected =>
    rw [hrejected] at hrun
    cases hrun
  | accepted e a diff m hnorm happly hanswer =>
    obtain ⟨-,session,hacc,hinst⟩ := SessionManager.apply_ok happly
    obtain ⟨o',next',hafter,hnext,hrevised,-⟩ := afterApply_ok
      (r := { r with revisions := a, sessions := m }) hengine hinv hacc hinst
    rw [hanswer,hafter] at hrun
    cases hrun
    obtain ⟨-,-,hrelabel,-⟩ := RevisionAdapter.normalize_some hnorm
    have hsession : e.sessionId = event.sessionId := by
      rw [hrelabel]
      rfl
    have htype : e.type = .commitFinal := by
      rw [hrelabel]
      exact (RevisionAdapter.normalizedType_kind _ event.type (by decide)).mpr hfinal
    refine ⟨session,?_,?_,hnext⟩
    · rw [hrevised.sessions,← hsession]
      exact hinst.self
    · cases hacc with
      | metadata _ hkind => simp [SessionManager.isMetadata,htype] at hkind
      | transcript newTail hkind hopen hencode => simp [ConversationSession.revise,htype]

/-- If no deadline overflows behind the fork of a submission, the outcomes of a session account
for its tokens in the cache, the counters for all outcomes, and after a final all tokens of the
session are in the cache. -/
theorem tokens_accounted (c : Services S) (htok : c.tokenizer.Total)
    (hengine : c.engine.NeverRaises) (blockSize : ℕ) (hblock : 0 < blockSize) (admissionCap : ℕ)
    (hcap : 0 < admissionCap) (e : S) (calls : List Call)
    (hfits : RunMeets (exec c) DeadlineFits calls (init blockSize hblock admissionCap hcap e)) :
    let r := runAll (exec c) calls (init blockSize hblock admissionCap hcap e)
    let history := outcomes c calls (init blockSize hblock admissionCap hcap e)
    (∀ s, ∃ tokens k, VersionedKVManager.sessionTokens s r.kv = .ok tokens k ∧
      (tokens.length : ℤ) = prefilledTokens (outcomesOf s history) -
        rollbackTokens (outcomesOf s history)) ∧
    r.metrics.counter .prefillTokens = prefilledTokens (history.map Prod.snd) ∧
    r.metrics.counter .rollbackTokens = rollbackTokens (history.map Prod.snd) ∧
    r.metrics.counter .rollbackTokens = r.kv.rollbackTokens ∧
    ∀ event o next, event.type = .commitFinal → handleEvent c event r = .ok o next →
      o.accepted = true → ∃ session,
        next.sessions.sessions.get? event.sessionId = some session ∧
        (session.totalTokens : ℤ) =
          prefilledTokens (outcomesOf event.sessionId (history ++ [(event.sessionId,o)])) -
          rollbackTokens (outcomesOf event.sessionId (history ++ [(event.sessionId,o)])) := by
  intro r history
  have hinv : Inv r := inv_run htok hengine hblock hcap e hfits
  have haccounted : Accounted history r :=
    (accounted_init blockSize hblock admissionCap hcap e).run htok hengine
      (inv_init blockSize hblock admissionCap hcap e) hfits
  refine ⟨fun s => ⟨_,_,sessionTokens_ok hinv.sound s,?_⟩,haccounted.counted.prefilled,
    haccounted.counted.rolledBack,?_,fun event o next hfinal hrun haccepted => ?_⟩
  · have hresident : (r.branches.kv.view.sessions s).length + _ = _ := haccounted.resident s
    rw [List.length_map]
    omega
  · exact haccounted.counted.rolledBack.trans haccounted.counted.cache.symm
  · obtain ⟨session,hget,htentative,hnext⟩ :=
      final_tentativeTokens hengine hinv hfinal hrun haccepted
    have hlast := haccounted.handleEvent hengine hinv event
    rw [returned_ok hrun,after_ok hrun] at hlast
    have hresident : (next.branches.kv.view.sessions event.sessionId).length + _ = _ :=
      hlast.resident event.sessionId
    obtain ⟨tail,htail,hview⟩ := hnext.agrees event.sessionId
    rw [SessionManager.current_of_some hget] at htail hview
    rw [htentative,List.prefix_nil] at htail
    have htotal : session.totalTokens = session.committedTokens.length := by
      rw [ConversationSession.totalTokens,htentative]
      rfl
    rw [hview,htail,length_spineTail,List.length_nil] at hresident
    refine ⟨session,hget,?_⟩
    omega

/-- A partial of 17 tokens is prefilled; its final rolls 12 of them back and prefills 6. -/
theorem tokens_accounted_final :
    let c := quietServices lenientTokenizer
    let start := init 16 (by decide) 32 (by decide) ()
    let calls := [Call.handleEvent
      (heard "a" 0 .appendPartial "hello brave world" (by decide) (by decide))]
    let final := heard "a" 1 .commitFinal "hello world" (by decide) (by decide)
    (runAll (exec c) calls start).metrics.counter .prefillTokens =
      prefilledTokens ((outcomes c calls start).map Prod.snd) ∧
    ∃ o next session, handleEvent c final (runAll (exec c) calls start) = .ok o next ∧
      (o.accepted,o.prefilledTokens,o.rollbackTokens) = (true,6,12) ∧
      next.sessions.sessions.get? (lit "s") = some session ∧
      (session.totalTokens : ℤ) = 17 + 6 - 12 := by
  intro c start calls final
  obtain ⟨-,hprefill,-,-,hfinal⟩ := tokens_accounted c lenientTokenizer_total
    quietEngine_neverRaises 16 (by decide) 32 (by decide) () calls ⟨trivial,trivial⟩
  obtain ⟨o,next,hrun,hcounts⟩ := exists_of_outcome
    (f := fun o => (o.accepted,o.prefilledTokens,o.rollbackTokens)) (b := (true,6,12))
    (show (outcome (handleEvent c final) (runAll (exec c) calls start)).map _ = _ by decide +kernel)
  obtain ⟨haccepted,hp,hq⟩ : o.accepted = true ∧ o.prefilledTokens = 6 ∧ o.rollbackTokens = 12 := by
    simpa using hcounts
  obtain ⟨session,hget,htotal⟩ := hfinal final o next rfl hrun haccepted
  have hprefilled : prefilledTokens (outcomesOf (lit "s") (outcomes c calls start)) = 17 := by
    decide +kernel
  have hrolledBack : rollbackTokens (outcomesOf (lit "s") (outcomes c calls start)) = 0 := by
    decide +kernel
  refine ⟨hprefill,o,next,session,hrun,hcounts,hget,htotal.trans ?_⟩
  show ((prefilledTokens (outcomesOf (lit "s") (outcomes c calls start ++ [(lit "s",o)])) : ℕ) : ℤ) -
    (rollbackTokens (outcomesOf (lit "s") (outcomes c calls start ++ [(lit "s",o)])) : ℕ) = _
  rw [outcomesOf_concat_self,prefilledTokens_concat,rollbackTokens_concat,hprefilled,hrolledBack,
    hp,hq]
  rfl

/-- A hint with a deadline of `10 ^ 400` milliseconds, and the transcript is revised twice: the
first revision raises behind the transcript, the second between the rollback and its outcome. -/
theorem endless_hint_hides_rollback :
    let c := quietServices lenientTokenizer
    let start := init 4 (by decide) 8 (by decide) ()
    let calls : List Call := [
      .handleEvent (heard "g" 0 .appendPartial "hello there" (by decide) (by decide)),
      .submitTask (askedEndless "t" .proactiveHint (lit "why")),
      .handleEvent (heard "g" 1 .revisePartial "good evening" (by decide) (by decide)),
      .handleEvent (heard "g" 2 .revisePartial "good ev" (by decide) (by decide))]
    let r := runAll (exec c) calls start
    r.metrics.counter .rollbackTokens = 5 ∧
    rollbackTokens ((outcomes c calls start).map Prod.snd) = 0 ∧
    prefilledTokens (outcomesOf (lit "s") (outcomes c calls start)) = 11 ∧
    (outcome (VersionedKVManager.sessionTokens (lit "s")) r.kv).map List.length = .ok 6 := by
  decide +kernel

end CueBeeRuntime
end CueBee.Runtime
