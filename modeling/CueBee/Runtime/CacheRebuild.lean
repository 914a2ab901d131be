import CueBee.Cache.CopyOnWriteRefinement
import CueBee.Runtime.MethodFrames
import CueBee.Runtime.RuntimeRuns
import CueBee.Runtime.UpdateStream

/-! # The updates rebuild the cache

The engine is put behind a recorder, and the recorded updates are followed through
`handle_event`: a roll-back only shortens what is resident, and whatever is taken brings the
engine and the cache to the whole transcript. Nothing is assumed about the other methods of
the engine, which may raise and leave an event half-applied; an update that is refused is
not in the record, and the next one starts from what the cache still holds.
-/
namespace CueBee.Runtime
open Cache Transcript Raising ConversationSession SessionManager VersionedKVManager PyStr

/-- The same services with the engine behind the recorder. -/
def Services.recorded {S : Type} (c : Services S) : Services (S × List SessionRevisionUpdate) where
  tokenizer := c.tokenizer
  engine := c.engine.recorded
  tentativePolicy := c.tentativePolicy

/-- The record has the updates that were taken: a refused one leaves it alone, and so do the
other methods. -/
structure Engine.Records {S : Type} (engine : Engine (S × List SessionRevisionUpdate)) : Prop where
  abort : ∀ taskId p, (after (engine.abort taskId) p).2 = p.2
  generate : ∀ request p, (after (engine.generate request) p).2 = p.2
  updateSession : ∃ f, engine.updateSession = some f ∧ ∀ u p,
    Ensures (f u) p (fun _ q => q.2 = p.2 ++ [u]) (fun _ q => q.2 = p.2)

theorem behind_updates {S α : Type} (x : EStateM EngineError S α) (p : S × List SessionRevisionUpdate) :
    (after (Engine.behind x) p).2 = p.2 := by
  unfold after Engine.behind focus
  cases x p.1 <;> rfl

theorem Engine.TakesUpdates.records {S : Type} {engine : Engine S} (h : engine.TakesUpdates) :
    engine.recorded.Records where
  abort taskId := behind_updates (engine.abort taskId)
  generate request := behind_updates (engine.generate request)
  updateSession := by
    obtain ⟨f,hf,hreturns⟩ := h
    refine ⟨_,by rw [recorded,hf]; rfl,fun u p => ?_⟩
    obtain ⟨a,e,hrun⟩ := hreturns u p.1
    refine ensures_bind.mpr (Ensures.of_ok (modify_apply _ p) ?_)
    exact ensures_focus.mpr (Ensures.of_ok hrun rfl)

namespace CueBeeRuntime
variable {S : Type} {c : Services (S × List SessionRevisionUpdate)}
  {r next : CueBeeRuntime (S × List SessionRevisionUpdate)}

/-- The tokens that the cache holds for a session. -/
def resident {T : Type} (r : CueBeeRuntime T) (s : SessionId) : List Token :=
  (r.kv.view.sessions s).map Prod.fst

/-- A property of what is resident, of the sessions and of the recorded updates. -/
def Reads (P : (SessionId → List Token) → SessionManager → List SessionRevisionUpdate → Prop)
    (r : CueBeeRuntime (S × List SessionRevisionUpdate)) : Prop :=
  r.kv.Sound ∧ P r.resident r.sessions r.engine.2

section Frames
variable {P : (SessionId → List Token) → SessionManager → List SessionRevisionUpdate → Prop}

theorem Reads.congr (h : Reads P r) (hsound : next.kv.Sound)
    (hview : next.kv.view.sessions = r.kv.view.sessions) (hm : next.sessions = r.sessions)
    (hu : next.engine.2 = r.engine.2) : Reads P next := by
  refine ⟨hsound,?_⟩
  have hres : next.resident = r.resident := by
    funext s
    rw [resident,resident,hview]
  rw [hres,hm,hu]
  exact h.2

theorem keeps_reads_graph {α : Type} (x : EStateM GraphError BranchGraph α) (hx : SparesSessions x) :
    Keeps (Reads (S := S) P) (onGraph x) := by
  refine keeps_focus (fun r hr => ?_)
  refine (keeps_iff.mp (hx r.kv.view.sessions) r.branches ⟨hr.1,rfl⟩).mono ?_ ?_
  · exact fun a g hg => hr.congr hg.1 hg.2 rfl rfl
  · exact fun e g hg => hr.congr hg.1 hg.2 rfl rfl

theorem keeps_reads_engine {α : Type} {x : EStateM EngineError (S × List SessionRevisionUpdate) α}
    (hsame : ∀ p, (after x p).2 = p.2) : Keeps (Reads (S := S) P) (onEngine x) := by
  refine keeps_focus (fun r hr => ?_)
  have hsame := hsame r.engine
  cases hx : x r.engine with
  | ok a p =>
    rw [after_ok hx] at hsame
    exact Ensures.of_ok hx (hr.congr hr.1 rfl rfl hsame)
  | error e p =>
    rw [after_error hx] at hsame
    exact Ensures.of_error hx (hr.congr hr.1 rfl rfl hsame)

/-- What reads only the transcripts, the cache and the updates has a frame. -/
theorem frame_reads (hc : c.engine.Records) : Frame c (Reads P) where
  scheduler _ _ hr := hr
  metrics _ _ hr := hr
  graph x hx := keeps_reads_graph x hx
  abort taskId := keeps_reads_engine (hc.abort taskId)
  generate request := keeps_reads_engine (hc.generate request)

theorem keeps_validate : Keeps (Reads (S := S) P) (onKV VersionedKVManager.validateRefCounts) := by
  refine keeps_iff.mpr (fun r hr => ?_)
  exact Ensures.of_ok (onKV_ok (validateRefCounts_spec hr.1.ledger)) hr

end Frames

/-- Between `apply` and the cache: no update has been sent for the event yet. -/
structure Pending (event : STTEvent) (diff : TranscriptDiff) (session : ConversationSession)
    (sent : List SessionRevisionUpdate) (resident : SessionId → List Token) (m : SessionManager)
    (us : List SessionRevisionUpdate) : Prop where
  unsent : us = sent
  streams : Streams resident m us
  installed : m.sessions.get? event.sessionId = some session
  version : session.version = diff.newVersion
  older : ∀ u ∈ updatesOf event.sessionId us, u.version < diff.newVersion
  start : ∀ u ∈ updatesOf event.sessionId us, u.commitFrontier ≤ diff.changedRange.start

/-- Nothing was sent, or one update of `s`, after which the engine, the cache and the
transcript are the same. -/
structure Settled (s : SessionId) (sent : List SessionRevisionUpdate)
    (resident : SessionId → List Token) (m : SessionManager) (us : List SessionRevisionUpdate) :
    Prop where
  streams : Streams resident m us
  caught : us = sent ∨ ∃ u, us = sent ++ [u] ∧ u.sessionId = s ∧
    resident s = engineTokens (updatesOf s us) ∧ resident s = (m.current s).allTokens

variable {event : STTEvent} {diff : TranscriptDiff} {session : ConversationSession}
  {sent : List SessionRevisionUpdate}

theorem settled_of_pending (h : Reads (Pending event diff session sent) r) :
    Reads (Settled event.sessionId sent) r := ⟨h.1,h.2.streams,Or.inl h.2.unsent⟩

theorem keeps_touch {P : (SessionId → List Token) → SessionManager →
    List SessionRevisionUpdate → Prop} (h : Reads P r) (s : SessionId) :
    Reads P (r.withKV (r.kv.touch s)) := by
  refine h.congr (h.1.touch s) ?_ rfl rfl
  rw [kv_withKV,view_touch]

theorem keeps_rollBack_pending : Keeps (Reads (S := S) (Pending event diff session sent))
    (rollBack event.sessionId diff.changedRange.start) := by
  refine keeps_iff.mpr (fun r hr => ?_)
  have hread := onKV_ok (sessionTokens_ok hr.1 event.sessionId)
  have htouch := keeps_touch hr event.sessionId
  unfold Ensures
  simp only [rollBack,bind_ok hread]
  by_cases hlong : diff.changedRange.start <
      ((r.kv.view.sessions event.sessionId).map Prod.fst).length
  · rw [if_pos hlong]
    by_cases hguard : ((diff.changedRange.start : ℕ) : ℤ) <
        NaiveKV.committedEnd ((r.kv.touch event.sessionId).view.sessions event.sessionId)
    · have hreject := onKV_error (r := r.withKV (r.kv.touch event.sessionId))
        (rollbackTentative_rejected (hr.1.touch event.sessionId) hguard)
      rw [bind_error hreject]
      exact keeps_touch htouch event.sessionId
    · obtain ⟨result,k,hrun,hsound,-,hview⟩ :=
        rollbackTentative_ok (hr.1.touch event.sessionId) (not_lt.mp hguard)
      rw [view_touch,Int.toNat_natCast] at hview
      have hroll := onKV_ok (r := r.withKV (r.kv.touch event.sessionId)) hrun
      rw [bind_ok hroll]
      refine ⟨hsound,hr.2.unsent,?_,hr.2.installed,hr.2.version,hr.2.older,hr.2.start⟩
      refine hr.2.streams.cut hr.2.start ?_ (fun t ht => ?_)
      · show (k.view.sessions event.sessionId).map Prod.fst = _
        rw [hview,NaiveKV.sessions_putSession_self,List.map_take]
        rfl
      · show (k.view.sessions t).map Prod.fst = _
        rw [hview,NaiveKV.sessions_putSession_ne _ ht]
        rfl
  · rw [if_neg hlong]
    exact htouch

/-- The update that is sent, and nothing else, is added to the record, unless it is refused. -/
theorem sendTokens_recorded (hc : c.engine.Records) (event : STTEvent)
    (version commitFrontier replaceFrom : ℕ) {missing : List Token} (hmissing : missing ≠ [])
    (r : CueBeeRuntime (S × List SessionRevisionUpdate)) :
    Ensures (sendTokens c event version commitFrontier replaceFrom missing hmissing) r
      (fun _ r' => ∃ e, r' = { r with engine := (e,r.engine.2 ++
        [revisionUpdate event version commitFrontier replaceFrom missing hmissing]) })
      (fun _ r' => ∃ e, r' = { r with engine := (e,r.engine.2) }) := by
  obtain ⟨f,hf,hrecords⟩ := hc.updateSession
  unfold sendTokens
  rw [hf]
  refine ensures_focus.mpr ((hrecords _ r.engine).mono (fun _ q hq => ?_) (fun _ q hq => ?_))
  · exact ⟨q.1,by rw [← hq]⟩
  · exact ⟨q.1,by rw [← hq]⟩

/-- The update for the missing tokens brings the engine to the whole transcript. -/
theorem Pending.caughtUp {before behind : SessionId → List Token} {m : SessionManager}
    {us : List SessionRevisionUpdate} (h : Pending event diff session sent before m us)
    {missing : List Token} (hmissing : missing ≠ [])
    (hall : before event.sessionId ++ missing = session.allTokens)
    (hself : behind event.sessionId = session.allTokens)
    (hothers : ∀ t, t ≠ event.sessionId → behind t = before t) :
    Settled event.sessionId sent behind m (us ++ [revisionUpdate event diff.newVersion
      session.commitFrontier (before event.sessionId).length missing hmissing]) := by
  have hcurrent : m.current event.sessionId = session := current_of_some h.installed
  have hcovered : session.commitFrontier ≤ (behind event.sessionId).length := by
    rw [hself,length_allTokens]
    exact Nat.le_add_right _ _
  have hversion : diff.newVersion = (m.current event.sessionId).version := by
    rw [hcurrent]
    exact h.version.symm
  have hfrontier : session.commitFrontier = (m.current event.sessionId).commitFrontier := by
    rw [hcurrent]
  obtain ⟨hstreams,hengine⟩ := h.streams.sent
    (u := revisionUpdate event diff.newVersion session.commitFrontier
      (before event.sessionId).length missing hmissing)
    rfl rfl hversion h.older hfrontier (hself.trans hall.symm) hcovered hothers
  exact ⟨hstreams,Or.inr ⟨_,by rw [h.unsent],rfl,hengine,hself.trans (by rw [hcurrent])⟩⟩

theorem resident_appended {k : VersionedKVManager} {s : SessionId} {missing : List Token}
    (hview : k.view = r.kv.view.putSession s
      (r.kv.view.sessions s ++ missing.map (fun t => (t,Validity.tentative)))) (t : SessionId) :
    (r.withKV k).resident t = if t = s then r.resident s ++ missing else r.resident t := by
  rw [resident,kv_withKV,hview]
  by_cases ht : t = s
  · rw [ht,NaiveKV.sessions_putSession_self,if_pos rfl,List.map_append]
    simp [Function.comp_def,resident]
  · rw [NaiveKV.sessions_putSession_ne _ ht,if_neg ht]
    rfl

/-- The prefill: the missing tokens are sent and appended, or there are none. -/
theorem prefillMissing_recorded (hc : c.engine.Records)
    (hr : Reads (Pending event diff session sent) r)
    (hresident : r.resident event.sessionId <+: session.allTokens) :
    Ensures (prefillMissing c event diff.newVersion session.commitFrontier
        (r.resident event.sessionId).length
        (session.allTokens.drop (r.resident event.sessionId).length)) r
      (fun _ => Reads (Settled event.sessionId sent)) (fun _ => Reads (Settled event.sessionId sent)) := by
  generalize hm : session.allTokens.drop (r.resident event.sessionId).length = missing
  have hall : r.resident event.sessionId ++ missing = session.allTokens := by
    rw [← hm]
    exact List.prefix_append_drop hresident |>.symm
  by_cases hmissing : missing ≠ []
  · have hsend := sendTokens_recorded hc event diff.newVersion session.commitFrontier
      (r.resident event.sessionId).length hmissing r
    rw [prefillMissing,dif_pos hmissing]
    refine ensures_bind.mpr (hsend.mono ?_ ?_)
    rotate_left
    · rintro _ _ ⟨e,rfl⟩
      exact settled_of_pending (hr.congr hr.1 rfl rfl rfl)
    rintro _ _ ⟨e,rfl⟩
    let u := revisionUpdate event diff.newVersion session.commitFrontier
      (r.resident event.sessionId).length missing hmissing
    obtain ⟨appended,k,happ,hsound,hview⟩ := appendSession_ok (m := r.kv) (s := event.sessionId)
      hr.1 (show Validity.tentative ≠ .invalidated by decide) missing diff.newVersion
    have happend : onKV (VersionedKVManager.appendSession event.sessionId missing .tentative
        diff.newVersion) { r with engine := (e,r.engine.2 ++ [u]) } =
        .ok appended (withKV k { r with engine := (e,r.engine.2 ++ [u]) }) := onKV_ok happ
    have hself := resident_appended hview event.sessionId
    rw [if_pos rfl,hall] at hself
    refine ensures_bind.mpr (Ensures.of_ok happend ?_)
    refine ensures_bind.mpr (Ensures.of_ok (modify_apply _ _) ?_)
    exact Ensures.of_ok (pure_apply _ _) ⟨hsound,hr.2.caughtUp hmissing hall hself
      (fun t ht => (resident_appended hview t).trans (if_neg ht))⟩
  · have hnone : prefillMissing c event diff.newVersion session.commitFrontier
        (r.resident event.sessionId).length missing r = .ok 0 r := by
      simp only [prefillMissing,dif_neg hmissing]
      rfl
    exact Ensures.of_ok hnone (settled_of_pending hr)

/-- A commit changes no token. -/
theorem keeps_commitCache_settled (frontier version : ℕ) :
    Keeps (Reads (S := S) (Settled event.sessionId sent)) (commitCache event frontier version) := by
  refine keeps_ite (fun _ => keeps_iff.mpr (fun r hr => ?_)) (fun _ => keeps_pure _)
  by_cases hlen : ((frontier : ℕ) : ℤ) = (r.kv.view.sessions event.sessionId).length
  · obtain ⟨k,hrun,hsound,hview⟩ := commitTentative_ok hr.1 version hlen
    refine Ensures.of_ok (onKV_ok hrun) ⟨hsound,?_⟩
    have hres : (r.withKV k).resident = r.resident := by
      funext t
      show (k.view.sessions t).map Prod.fst = _
      rw [hview]
      by_cases ht : t = event.sessionId
      · rw [ht,NaiveKV.sessions_putSession_self]
        simp [resident,Function.comp_def]
      · rw [NaiveKV.sessions_putSession_ne _ ht]
        rfl
    rw [hres]
    exact hr.2
  · exact Ensures.of_error (onKV_error (commitTentative_rejected hr.1 version hlen))
      (keeps_touch hr event.sessionId)

theorem reviseCache_settled (hc : c.engine.Records)
    (hr : Reads (Pending event diff session sent) r) :
    Ensures (reviseCache c event diff) r
      (fun _ => Reads (Settled event.sessionId sent)) (fun _ => Reads (Settled event.sessionId sent)) := by
  unfold reviseCache
  refine Ensures.bind ((keeps_iff.mp keeps_rollBack_pending r hr).mono (fun _ _ h => h)
    (fun _ _ h => settled_of_pending h)) (fun rolledBack r1 h1 => ?_)
  refine ensures_bind.mpr (Ensures.of_ok (onSessions_get h1.2.installed) ?_)
  refine ensures_bind.mpr (Ensures.of_ok (onKV_ok (sessionTokens_ok h1.1 event.sessionId)) ?_)
  have h2 := keeps_touch h1 event.sessionId
  have hres : (r1.withKV (r1.kv.touch event.sessionId)).resident event.sessionId =
      (r1.kv.view.sessions event.sessionId).map Prod.fst := by
    rw [resident,kv_withKV,view_touch]
  rw [← hres]
  generalize r1.withKV (r1.kv.touch event.sessionId) = r2 at h2
  by_cases hguard : r2.resident event.sessionId ≠
      session.allTokens.take (r2.resident event.sessionId).length
  · rw [if_pos hguard]
    exact Ensures.of_error (throw_apply _ r2) (settled_of_pending h2)
  · rw [if_neg hguard]
    refine ensures_bind.mpr (Ensures.of_ok (get_apply r2) ?_)
    refine Ensures.bind ?_ (fun prefilled r3 h3 => Ensures.bind
      (keeps_iff.mp (keeps_commitCache_settled _ _) r3 h3) (fun _ r4 h4 =>
        Ensures.of_ok (pure_apply _ r4) h4))
    by_cases hfill : event.type = .commitFinal ∨
        c.tentativePolicy.admit event diff.newTailTokens.length r2.gpuLoad = true
    · rw [if_pos hfill]
      exact prefillMissing_recorded hc h2 (List.prefix_iff_eq_take.mpr (not_not.mp hguard))
    · rw [if_neg hfill]
      exact Ensures.of_ok (pure_apply _ r2) (settled_of_pending h2)

theorem afterApply_settled (hc : c.engine.Records)
    (hr : Reads (Pending event diff session sent) r) :
    Ensures (afterApply c event diff) r
      (fun _ => Reads (Settled event.sessionId sent)) (fun _ => Reads (Settled event.sessionId sent)) := by
  have hsteps := (frame_reads (P := Pending event diff session sent) hc).steps
  have keeping : ∀ {α : Type} {x : EStateM RuntimeError (CueBeeRuntime (S × List SessionRevisionUpdate)) α},
      Keeps (Reads (Pending event diff session sent)) x → ∀ r, Reads (Pending event diff session sent) r →
      Ensures x r (fun _ => Reads (Pending event diff session sent))
        (fun _ => Reads (Settled event.sessionId sent)) :=
    fun hx r h => (keeps_iff.mp hx r h).mono (fun _ _ h => h) (fun _ _ h => settled_of_pending h)
  unfold afterApply
  refine Ensures.bind (keeping (hsteps.inc _ _ rfl) r hr) (fun _ r1 h1 => ?_)
  refine Ensures.bind (keeping (hsteps.graph _ (fun _ hJ => hJ.invalidate _ _ _)) r1 h1)
    (fun ids r2 h2 => ?_)
  refine Ensures.bind (keeping (hsteps.cancelInvalidated ids) r2 h2) (fun _ r3 h3 => ?_)
  refine Ensures.bind ?_ (fun _ r4 h4 => Ensures.bind (keeps_iff.mp keeps_validate r4 h4)
    (fun _ r5 h5 => Ensures.of_ok (pure_apply _ r5) h5))
  unfold updateCache
  by_cases hskip : event.type = .speakerRelabel ∨ event.type = .sessionClose
  · rw [if_pos hskip]
    exact Ensures.of_ok (pure_apply _ r3) (settled_of_pending h3)
  · rw [if_neg hskip]
    exact reviseCache_settled hc h3

/-- The update stream and the cache after any prefix of the run. -/
def Synced (r : CueBeeRuntime (S × List SessionRevisionUpdate)) : Prop := Reads Streams r

/-- Whatever `handle_event` does, returning or raising, the engine is in step afterwards. -/
theorem handleEvent_recorded (hc : c.engine.Records) (event : STTEvent) (hr : Synced r) :
    ∃ s, Reads (Settled s r.engine.2) (after (handleEvent c event) r) := by
  cases handled c event r with
  | dropped a hnorm hrun =>
    rw [after_ok hrun]
    exact ⟨[],hr.1,hr.2,Or.inl rfl⟩
  | rejected e a error m hnorm happly hrun =>
    rw [after_error hrun]
    refine ⟨[],hr.1,hr.2.progress ?_,Or.inl rfl⟩
    rcases apply_error happly with hinst | hinst
    · exact hinst.advances (.refl _)
    · exact hinst.advances (advances_raised _ e)
  | accepted e a diff m hnorm happly hrun =>
    obtain ⟨-,session,hacc,hinst⟩ := apply_ok happly
    have hpending : Reads (Pending e diff session r.engine.2)
        { r with revisions := a, sessions := m } := by
      refine ⟨hr.1,⟨rfl,hr.2.progress (hinst.advances hacc.advances),hinst.self,
        hacc.version_eq.2.symm,fun u hu => ?_,fun u hu => ?_⟩⟩
      · rw [hacc.version_eq.2,hacc.version_eq.1]
        exact Nat.lt_succ_of_le (hr.2.version _ u hu)
      · exact (hr.2.frontier _ u hu).trans hacc.frontier_le
    have hafter := (afterApply_settled hc hpending).after
    rw [after,← hrun] at hafter
    exact ⟨e.sessionId,hafter⟩

theorem keeps_synced_recorded (hc : c.engine.Records) (call : Call) : Keeps Synced (exec c call) := by
  refine (frame_reads (P := Streams) hc).steps.exec (fun event _ r hr => ?_) (fun _ _ _ hr => hr)
  obtain ⟨s,hsettled⟩ := handleEvent_recorded hc event hr
  exact ⟨hsettled.1,hsettled.2.streams⟩

theorem handleEvent_settled {c : Services S} (hengine : c.engine.TakesUpdates) (event : STTEvent)
    (hr : Synced r) : ∃ s, Reads (Settled s r.engine.2) (after (handleEvent c.recorded event) r) :=
  handleEvent_recorded (c := c.recorded) hengine.records event hr

theorem keeps_synced {c : Services S} (hengine : c.engine.TakesUpdates) (call : Call) :
    Keeps Synced (exec c.recorded call) :=
  keeps_synced_recorded (c := c.recorded) hengine.records call

theorem synced_init (blockSize : ℕ) (hblock : 0 < blockSize) (admissionCap : ℕ)
    (hcap : 0 < admissionCap) (e : S) : Synced (init blockSize hblock admissionCap hcap (e,[])) :=
  ⟨sound_init blockSize hblock,.init _⟩

end CueBeeRuntime
open CueBeeRuntime

theorem updates_rebuild_cache {S : Type} (c : Services S) (hengine : c.engine.TakesUpdates)
    (blockSize : ℕ) (hblock : 0 < blockSize) (admissionCap : ℕ) (hcap : 0 < admissionCap) (e : S)
    (calls : List Call) :
    let r := runAll (exec c.recorded) calls (init blockSize hblock admissionCap hcap (e,[]))
    (∀ s, Stream (updatesOf s r.engine.2)) ∧
    (∀ s, ∃ tokens, outcome (sessionTokens s) r.kv = .ok tokens ∧
      tokens <+: engineTokens (updatesOf s r.engine.2)) ∧
    ∀ event, let next := after (handleEvent c.recorded event) r
      next.engine.2 = r.engine.2 ∨ ∃ u, next.engine.2 = r.engine.2 ++ [u] ∧
        outcome (sessionTokens u.sessionId) next.kv =
          .ok (engineTokens (updatesOf u.sessionId next.engine.2)) ∧
        engineTokens (updatesOf u.sessionId next.engine.2) =
          (next.sessions.current u.sessionId).allTokens := by
  intro r
  have h : Synced r := runAll_keeps (keeps_synced hengine) calls
    (synced_init blockSize hblock admissionCap hcap e)
  refine ⟨h.2.stream,fun s => ⟨_,outcome_sessionTokens h.1 s,h.2.lagging s⟩,fun event => ?_⟩
  intro next
  obtain ⟨s,hsettled⟩ := handleEvent_settled hengine event h
  rcases hsettled.2.caught with hsame | ⟨u,hu,rfl,hengine',hsession⟩
  · exact Or.inl hsame
  · refine Or.inr ⟨u,hu,?_,hengine' ▸ hsession⟩
    rw [outcome_sessionTokens hsettled.1]
    exact congrArg _ hengine'

/-- A revision is cut in the cache only, and the final brings the engine back. -/
theorem updates_rebuild_cache_final :
    let c := quietServices lenientTokenizer
    let calls : List Call := [
      .handleEvent (heard "g" 0 .appendPartial "hello there" (by decide) (by decide)),
      .handleEvent (heard "g" 1 .revisePartial "hello" (by decide) (by decide)),
      .handleEvent (heard "g" 2 .commitFinal "hello you" (by decide) (by decide))]
    let r := runAll (exec c.recorded) calls (init 4 (by decide) 8 (by decide) ((),[]))
    ((∀ s, Stream (updatesOf s r.engine.2)) ∧
      (∀ s, ∃ tokens, outcome (sessionTokens s) r.kv = .ok tokens ∧
        tokens <+: engineTokens (updatesOf s r.engine.2)) ∧
      ∀ event, let next := after (handleEvent c.recorded event) r
        next.engine.2 = r.engine.2 ∨ ∃ u, next.engine.2 = r.engine.2 ++ [u] ∧
          outcome (sessionTokens u.sessionId) next.kv =
            .ok (engineTokens (updatesOf u.sessionId next.engine.2)) ∧
          engineTokens (updatesOf u.sessionId next.engine.2) =
            (next.sessions.current u.sessionId).allTokens) ∧
    r.engine.2.map (fun u => (u.version,u.replaceFrom,u.commitFrontier)) = [(1,0,0),(3,4,9)] := by
  intro c calls r
  refine ⟨?_,by decide +kernel⟩
  exact updates_rebuild_cache (quietServices lenientTokenizer) ⟨_,rfl,fun _ s => ⟨(),s,rfl⟩⟩
    4 (by decide) 8 (by decide) () calls

end CueBee.Runtime
