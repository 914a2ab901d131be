import Mathlib.Data.List.Infix
import CueBee.Runtime.CueBeeRuntime
import CueBee.Runtime.GraphSpecs
import CueBee.Transcript.TranscriptProgress

/-! # The cache follows the transcript

`Agrees` relates a session to what the cache holds for it: the committed tokens, and
behind them a prefix of the tentative tokens. This file follows the cache through the
roll-back, the prefill and the commit of one transcript event.
-/
namespace CueBee.Runtime
open Cache Transcript Raising ConversationSession VersionedKVManager

/-- Committed tokens followed by tentative ones. -/
def spineTail (spine tail : List Token) : List (Token × Validity) :=
  spine.map (fun t => (t,.committed)) ++ tail.map (fun t => (t,.tentative))

def Agrees (session : ConversationSession) (xs : List (Token × Validity)) : Prop :=
  ∃ tail, tail <+: session.tentativeTokens ∧ xs = spineTail session.committedTokens tail

section Lists
variable (spine tail more : List Token)

@[simp] theorem length_spineTail : (spineTail spine tail).length = spine.length + tail.length := by
  simp [spineTail]

@[simp] theorem map_fst_spineTail : (spineTail spine tail).map Prod.fst = spine ++ tail := by
  simp [spineTail,Function.comp_def]

theorem take_spineTail (n : ℕ) :
    (spineTail spine tail).take (spine.length + n) = spineTail spine (tail.take n) := by
  have h : ((spine.map (fun t => (t,Validity.committed))) ++
      tail.map (fun t => (t,Validity.tentative))).take
        ((spine.map (fun t => (t,Validity.committed))).length + n) = _ :=
    List.take_length_add_append n
  rw [List.length_map] at h
  rw [spineTail,h,← List.map_take]
  rfl

theorem spineTail_append :
    spineTail spine tail ++ more.map (fun t => (t,.tentative)) = spineTail spine (tail ++ more) := by
  simp [spineTail]

theorem commit_spineTail : (spineTail spine tail).map (fun x => (x.1,Validity.committed)) =
    spineTail (spine ++ tail) [] := by
  simp [spineTail,Function.comp_def]

theorem committedEnd_spineTail : NaiveKV.committedEnd (spineTail spine tail) = spine.length := by
  have hopen : ∀ y ∈ tail.map (fun t => (t,Validity.tentative)), y.2 ≠ .committed := by
    intro y hy
    obtain ⟨t,-,rfl⟩ := List.mem_map.mp hy
    simp
  have hspine : ∀ y ∈ spine.map (fun t => (t,Validity.committed)), y.2 = .committed := by
    intro y hy
    obtain ⟨t,-,rfl⟩ := List.mem_map.mp hy
    rfl
  rw [spineTail,NaiveKV.committedEnd_append_open _ hopen]
  cases spine with
  | nil => rfl
  | cons t rest =>
    have h := NaiveKV.committedEnd_append_committed [] (List.cons_ne_nil _ _) hspine
    simpa using h

end Lists

/-- A cache that agrees with a session holds a prefix of its tokens. -/
theorem Agrees.prefix_allTokens {session : ConversationSession} {xs : List (Token × Validity)}
    (h : Agrees session xs) : xs.map Prod.fst <+: session.allTokens := by
  obtain ⟨tail,htail,rfl⟩ := h
  rw [map_fst_spineTail,allTokens]
  exact (List.prefix_append_right_inj _).mpr htail

theorem Agrees.of_same {a b : ConversationSession} {xs : List (Token × Validity)}
    (h : Agrees a xs) (hs : SameTranscript a b) : Agrees b xs := by
  obtain ⟨tail,htail,rfl⟩ := h
  exact ⟨tail,hs.tentativeTokens ▸ htail,by rw [hs.committedTokens]⟩

theorem agrees_fresh (s : SessionId) : Agrees (.fresh s) [] := ⟨[],List.prefix_rfl,rfl⟩

namespace CueBeeRuntime
variable {S : Type} {c : Services S} {r next : CueBeeRuntime S} {s : SessionId}

/-- Only the cache, the counters and the engine have changed. -/
structure OnlyCache (r next : CueBeeRuntime S) : Prop where
  revisions : next.revisions = r.revisions
  sessions : next.sessions = r.sessions
  branches : next.branches.branches = r.branches.branches
  scheduler : next.scheduler = r.scheduler
  gpuLoad : next.gpuLoad = r.gpuLoad

theorem OnlyCache.refl (r : CueBeeRuntime S) : OnlyCache r r := ⟨rfl,rfl,rfl,rfl,rfl⟩

theorem OnlyCache.trans {k : CueBeeRuntime S} (h : OnlyCache r next) (h' : OnlyCache next k) :
    OnlyCache r k :=
  ⟨h'.1.trans h.1,h'.2.trans h.2,h'.3.trans h.3,h'.4.trans h.4,h'.5.trans h.5⟩

/-- The cache manager of the runtime. -/
def kv (r : CueBeeRuntime S) : VersionedKVManager := r.branches.kv

/-- The runtime with another cache manager. -/
def withKV (kv : VersionedKVManager) (r : CueBeeRuntime S) : CueBeeRuntime S :=
  { r with branches := { r.branches with kv := kv } }

@[simp] theorem kv_withKV (k : VersionedKVManager) (r : CueBeeRuntime S) : (r.withKV k).kv = k := rfl

theorem onlyCache_withKV (k : VersionedKVManager) (r : CueBeeRuntime S) :
    OnlyCache r (r.withKV k) := ⟨rfl,rfl,rfl,rfl,rfl⟩

theorem onKV_ok {α : Type} {x : EStateM KVError VersionedKVManager α} {a : α}
    {k : VersionedKVManager} (h : x r.kv = .ok a k) : onKV x r = .ok a (r.withKV k) := by
  have hx : x r.branches.kv = .ok a k := h
  simp only [onKV,onGraph,BranchGraph.onKV,focus,hx]
  rfl

theorem onKV_error {α : Type} {x : EStateM KVError VersionedKVManager α} {e : KVError}
    {k : VersionedKVManager} (h : x r.kv = .error e k) :
    onKV x r = .error (.graph (.kv e)) (r.withKV k) := by
  have hx : x r.branches.kv = .error e k := h
  simp only [onKV,onGraph,BranchGraph.onKV,focus,hx]
  rfl

theorem rollBack_ok (hs : r.kv.Sound) {rollbackFrom : ℕ}
    (hfrom : NaiveKV.committedEnd (r.kv.view.sessions s) ≤ rollbackFrom) :
    ∃ next, rollBack s rollbackFrom r =
        .ok ((r.kv.view.sessions s).length - rollbackFrom) next ∧ OnlyCache r next ∧
      next.kv.Sound ∧ next.engine = r.engine ∧
      next.kv.view = r.kv.view.putSession s ((r.kv.view.sessions s).take rollbackFrom) := by
  have hread := onKV_ok (sessionTokens_ok hs s)
  by_cases hlong : rollbackFrom < ((r.kv.view.sessions s).map Prod.fst).length
  · have hguard : (NaiveKV.committedEnd ((r.kv.touch s).view.sessions s) : ℤ) ≤ rollbackFrom := by
      rw [view_touch]
      exact_mod_cast hfrom
    obtain ⟨result,k,hrun,hsound,hremoved,hview⟩ :=
      rollbackTentative_ok (m := r.kv.touch s) (s := s) (hs.touch s) hguard
    rw [view_touch] at hview hremoved
    have hroll : onKV (VersionedKVManager.rollbackTentative s rollbackFrom) (r.withKV (r.kv.touch s)) =
        .ok result (r.withKV k) := onKV_ok hrun
    have hinc : (inc MetricName.rollbackTokens result.removedTokens : EStateM RuntimeError
        (CueBeeRuntime S) Unit) (r.withKV k) = .ok () { r.withKV k with
        metrics := MetricRegistry.inc .rollbackTokens result.removedTokens r.metrics } := rfl
    refine ⟨{ r.withKV k with
      metrics := MetricRegistry.inc .rollbackTokens result.removedTokens r.metrics },
      ?_,⟨rfl,rfl,rfl,rfl,rfl⟩,hsound,rfl,hview⟩
    simp only [rollBack,bind_ok hread,if_pos hlong,bind_ok hroll,bind_ok hinc]
    rw [hremoved]
    rfl
  · rw [List.length_map] at hlong
    refine ⟨r.withKV (r.kv.touch s),?_,onlyCache_withKV _ r,hs.touch s,rfl,?_⟩
    · rw [Nat.sub_eq_zero_of_le (not_lt.mp hlong)]
      simp only [rollBack,bind_ok hread,List.length_map,if_neg hlong]
      rfl
    · rw [kv_withKV,view_touch,List.take_of_length_le (not_lt.mp hlong),NaiveKV.putSession_self]

theorem sendTokens_ok (hengine : c.engine.NeverRaises) (event : STTEvent)
    (version commitFrontier replaceFrom : ℕ) {missing : List Token} (hmissing : missing ≠ [])
    (r : CueBeeRuntime S) :
    ∃ e, sendTokens c event version commitFrontier replaceFrom missing hmissing r =
      .ok () { r with engine := e } := by
  unfold sendTokens
  cases hu : c.engine.updateSession with
  | none =>
    obtain ⟨_,e,he⟩ := hengine.prefill event.sessionId missing version
      (event.type ≠ .commitFinal) r.engine
    exact ⟨e,focus_ok he⟩
  | some f =>
    obtain ⟨_,e,he⟩ := hengine.updateSession f hu _ r.engine
    exact ⟨e,focus_ok he⟩

theorem prefillMissing_ok (hengine : c.engine.NeverRaises) (hs : r.kv.Sound) (event : STTEvent)
    (version commitFrontier replaceFrom : ℕ) (missing : List Token) :
    ∃ next, prefillMissing c event version commitFrontier replaceFrom missing r =
        .ok missing.length next ∧ OnlyCache r next ∧ next.kv.Sound ∧
      next.kv.view = r.kv.view.putSession event.sessionId
        (r.kv.view.sessions event.sessionId ++ missing.map (fun t => (t,.tentative))) := by
  by_cases hmissing : missing ≠ []
  · obtain ⟨e,hsend⟩ := sendTokens_ok hengine event version commitFrontier replaceFrom hmissing r
    obtain ⟨appended,k,hrun,hsound,hview⟩ := appendSession_ok (m := r.kv) (s := event.sessionId) hs
      (show Validity.tentative ≠ .invalidated by decide) missing version
    have happ : onKV (VersionedKVManager.appendSession event.sessionId missing .tentative version)
        { r with engine := e } = .ok appended (withKV k { r with engine := e }) := onKV_ok hrun
    refine ⟨{ withKV k { r with engine := e } with
      metrics := MetricRegistry.inc .prefillTokens missing.length r.metrics },
      ?_,⟨rfl,rfl,rfl,rfl,rfl⟩,hsound,hview⟩
    simp only [prefillMissing,dif_pos hmissing,bind_ok hsend,bind_ok happ]
    rfl
  · have hnil : missing = [] := not_not.mp hmissing
    subst hnil
    refine ⟨r,?_,.refl r,hs,?_⟩
    · simp only [prefillMissing,dif_neg hmissing]
      rfl
    · simp

/-- With a prefill, the cache grows by what it lacks. -/
theorem optionalPrefill_ok (hengine : c.engine.NeverRaises) (hs : r.kv.Sound) (event : STTEvent)
    (version commitFrontier replaceFrom : ℕ) (missing : List Token) (p : Prop) [Decidable p] :
    ∃ added next, (if p then prefillMissing c event version commitFrontier replaceFrom missing
        else pure 0) r = .ok added.length next ∧ added = (if p then missing else []) ∧
      OnlyCache r next ∧ next.kv.Sound ∧
      next.kv.view = r.kv.view.putSession event.sessionId
        (r.kv.view.sessions event.sessionId ++ added.map (fun t => (t,.tentative))) := by
  by_cases hp : p
  · obtain ⟨next,hrun,honly,hsound,hview⟩ :=
      prefillMissing_ok hengine hs event version commitFrontier replaceFrom missing
    exact ⟨missing,next,by rw [if_pos hp,hrun],(if_pos hp).symm,honly,hsound,hview⟩
  · refine ⟨[],r,by rw [if_neg hp]; rfl,(if_neg hp).symm,.refl r,hs,?_⟩
    simp

theorem commitCache_ok (hs : r.kv.Sound) (event : STTEvent) (frontier version : ℕ)
    {spine tail : List Token} (hview : r.kv.view.sessions event.sessionId = spineTail spine tail)
    (hfrontier : event.type = .commitFinal → frontier = spine.length + tail.length) :
    ∃ next, commitCache event frontier version r = .ok () next ∧ OnlyCache r next ∧
      next.kv.Sound ∧ next.kv.view = r.kv.view.putSession event.sessionId
        (if event.type = .commitFinal then spineTail (spine ++ tail) [] else spineTail spine tail) := by
  unfold commitCache
  by_cases hp : event.type = .commitFinal
  · have hlen : (frontier : ℤ) = (r.kv.view.sessions event.sessionId).length := by
      rw [hview,length_spineTail,hfrontier hp]
    obtain ⟨k,hrun,hsound,hnext⟩ := commitTentative_ok hs version hlen
    rw [hview,commit_spineTail] at hnext
    exact ⟨r.withKV k,by rw [if_pos hp,onKV_ok hrun],onlyCache_withKV k r,hsound,by rwa [if_pos hp]⟩
  · refine ⟨r,by rw [if_neg hp]; rfl,.refl r,hs,?_⟩
    rw [if_neg hp,← hview,NaiveKV.putSession_self]

theorem allTokens_revise (session : ConversationSession) (event : STTEvent) (newTail : List Token) :
    (session.revise event newTail).allTokens = session.committedTokens ++ newTail := by
  unfold revise allTokens
  split <;> simp

variable {before : ConversationSession} {event : STTEvent} {newTail kept : List Token}

/-- Rolling back never raises and keeps what the old and the new tail have in common. -/
theorem rollBack_agrees (hs : r.kv.Sound) (guard oldVersion : ℕ) (newTail : List Token)
    (hagrees : Agrees before (r.kv.view.sessions event.sessionId)) :
    ∃ kept rolledBack next, rollBack event.sessionId
        (before.transcriptDiff guard event newTail oldVersion).changedRange.start r =
        .ok rolledBack next ∧ OnlyCache r next ∧ next.kv.Sound ∧
      next.kv.view = r.kv.view.putSession event.sessionId (spineTail before.committedTokens kept) ∧
      kept <+: newTail ∧ before.committedTokens.length + kept.length + rolledBack =
        (r.kv.view.sessions event.sessionId).length ∧
      rolledBack = (r.kv.view.sessions event.sessionId).length -
        (before.transcriptDiff guard event newTail oldVersion).changedRange.start := by
  obtain ⟨tail,htail,hview⟩ := hagrees
  have hstart : (before.transcriptDiff guard event newTail oldVersion).changedRange.start =
      before.committedTokens.length + commonPrefix guard before.tentativeTokens newTail := rfl
  generalize hk : commonPrefix guard before.tentativeTokens newTail = k at hstart
  have htake : newTail.take k = before.tentativeTokens.take k := hk ▸ take_tokenLcp _ _ _
  have hkept : tail.take k <+: newTail :=
    (htail.take k).trans (htake ▸ List.take_prefix k newTail)
  have hguard : NaiveKV.committedEnd (r.kv.view.sessions event.sessionId) ≤
      (before.transcriptDiff guard event newTail oldVersion).changedRange.start := by
    rw [hview,committedEnd_spineTail,hstart]
    exact Nat.le_add_right _ _
  obtain ⟨next,hroll,honly,hsound,-,hnext⟩ := rollBack_ok hs hguard
  rw [hview,hstart,take_spineTail] at hnext
  refine ⟨tail.take k,_,next,hroll,honly,hsound,hnext,hkept,?_,rfl⟩
  rw [hview,hstart,length_spineTail,List.length_take]
  omega

/-- Prefill and commit never raise; the cache grows by a part of the new tail, and by all of
it for a final. -/
theorem refill_agrees (hengine : c.engine.NeverRaises) (hs : r.kv.Sound) (version rolledBack : ℕ)
    (p : Prop) [Decidable p] (hp : event.type = .commitFinal → p)
    (hview : r.kv.view.sessions event.sessionId = spineTail before.committedTokens kept)
    (hkept : kept <+: newTail) :
    ∃ prefilled next xs, (do
        let prefilled ← (if p then prefillMissing c event version
          (before.revise event newTail).commitFrontier (before.committedTokens ++ kept).length
          ((before.revise event newTail).allTokens.drop (before.committedTokens ++ kept).length)
          else return 0)
        commitCache event (before.revise event newTail).commitFrontier version
        return (prefilled,rolledBack)) r = .ok (prefilled,rolledBack) next ∧
      OnlyCache r next ∧ next.kv.Sound ∧ next.kv.view = r.kv.view.putSession event.sessionId xs ∧
      Agrees (before.revise event newTail) xs ∧
      xs.length = before.committedTokens.length + kept.length + prefilled ∧
      prefilled = if p then newTail.length - kept.length else 0 := by
  obtain ⟨added,mid,hfill,hadded,honly,hsmid,hmid⟩ := optionalPrefill_ok hengine hs event
    version (before.revise event newTail).commitFrontier (before.committedTokens ++ kept).length
    ((before.revise event newTail).allTokens.drop (before.committedTokens ++ kept).length) p
  rw [hview,spineTail_append] at hmid
  rw [allTokens_revise,List.length_append,List.drop_length_add_append] at hadded
  have hsplit := List.prefix_append_drop hkept
  have hgrown : kept ++ added <+: newTail := by
    conv_rhs => rw [hsplit]
    refine (List.prefix_append_right_inj _).mpr ?_
    rw [hadded]
    split
    · exact List.prefix_rfl
    · exact List.nil_prefix
  have hfinal : event.type = .commitFinal → kept ++ added = newTail := by
    intro hc
    rw [hadded,if_pos (hp hc)]
    exact hsplit.symm
  have hsess : mid.kv.view.sessions event.sessionId =
      spineTail before.committedTokens (kept ++ added) := by
    rw [hmid,NaiveKV.sessions_putSession_self]
  have hfrontier : event.type = .commitFinal → (before.revise event newTail).commitFrontier =
      before.committedTokens.length + (kept ++ added).length := by
    intro hc
    simp [commitFrontier,revise,hc,hfinal hc]
  obtain ⟨next,hcommit,honly',hsound,hnext⟩ := commitCache_ok hsmid event
    (before.revise event newTail).commitFrontier version hsess hfrontier
  refine ⟨added.length,next,if event.type = .commitFinal then
    spineTail (before.committedTokens ++ (kept ++ added)) []
    else spineTail before.committedTokens (kept ++ added),?_,honly.trans honly',hsound,?_,?_,?_,?_⟩
  · rw [bind_ok hfill,bind_ok hcommit]
    rfl
  · rw [hnext,hmid]
    simp only [NaiveKV.putSession,Function.update_idem]
  · by_cases hc : event.type = .commitFinal
    · rw [if_pos hc,hfinal hc]
      exact ⟨[],List.nil_prefix,by simp [revise,hc]⟩
    · rw [if_neg hc]
      exact ⟨kept ++ added,by simpa [revise,hc] using hgrown,by simp [revise,hc]⟩
  · split <;> simp <;> omega
  · rw [hadded]
    split <;> simp

/-- How many tokens a transcript event prefills and rolls back, of `resident` ones. -/
def reviseCounts (policy : TentativePrefillPolicy) (load : PyFloat) (event : STTEvent)
    (diff : TranscriptDiff) (session : ConversationSession) (resident : ℕ) : ℕ × ℕ :=
  (if event.type = .commitFinal ∨ policy.admit event diff.newTailTokens.length load = true then
    session.totalTokens - min resident diff.changedRange.start else 0,
    resident - diff.changedRange.start)

/-- Revising the cache never raises and re-establishes `Agrees`. -/
theorem reviseCache_ok (hengine : c.engine.NeverRaises) (hs : r.kv.Sound) (guard oldVersion : ℕ)
    (hagrees : Agrees before (r.kv.view.sessions event.sessionId))
    (hget : r.sessions.sessions.get? event.sessionId = some (before.revise event newTail)) :
    ∃ prefilled rolledBack next xs,
      reviseCache c event (before.transcriptDiff guard event newTail oldVersion) r =
        .ok (prefilled,rolledBack) next ∧ OnlyCache r next ∧ next.kv.Sound ∧
      next.kv.view = r.kv.view.putSession event.sessionId xs ∧
      Agrees (before.revise event newTail) xs ∧
      xs.length + rolledBack = (r.kv.view.sessions event.sessionId).length + prefilled ∧
      (prefilled,rolledBack) = reviseCounts c.tentativePolicy r.gpuLoad event
        (before.transcriptDiff guard event newTail oldVersion) (before.revise event newTail)
        (r.kv.view.sessions event.sessionId).length := by
  obtain ⟨kept,rolledBack,r1,hroll,honly1,hs1,hview1,hkept,hcount,hrolled⟩ :=
    rollBack_agrees hs guard oldVersion newTail hagrees
  have hkeptAll : min (r.kv.view.sessions event.sessionId).length
      (before.transcriptDiff guard event newTail oldVersion).changedRange.start =
      before.committedTokens.length + kept.length := by omega
  have hsess1 : r1.kv.view.sessions event.sessionId = spineTail before.committedTokens kept := by
    rw [hview1,NaiveKV.sessions_putSession_self]
  -- the check that the resident tokens are a prefix of the transcript
  have hstate : onSessions (SessionManager.get event.sessionId) r1 =
      .ok (before.revise event newTail) r1 := by
    have hg : SessionManager.get event.sessionId r1.sessions =
        .ok (before.revise event newTail) r1.sessions := by
      simp only [SessionManager.get,honly1.sessions,hget]
    exact focus_ok hg
  have hread := onKV_ok (sessionTokens_ok hs1 event.sessionId)
  rw [hsess1,map_fst_spineTail] at hread
  have hprefix : before.committedTokens ++ kept <+: (before.revise event newTail).allTokens := by
    rw [allTokens_revise]
    exact (List.prefix_append_right_inj _).mpr hkept
  have hcheck : ¬(before.committedTokens ++ kept ≠ (before.revise event newTail).allTokens.take
      (before.committedTokens ++ kept).length) :=
    not_not.mpr (List.prefix_iff_eq_take.mp hprefix)
  -- the prefill and the commit
  let r2 := r1.withKV (r1.kv.touch event.sessionId)
  have hview2 : r2.kv.view = r1.kv.view := view_touch _ _
  obtain ⟨prefilled,next,xs,hfill,honly2,hs2,hnext,hnew,hlen,hfilled⟩ := refill_agrees (r := r2) hengine
    (hs1.touch event.sessionId)
    (before.transcriptDiff guard event newTail oldVersion).newVersion rolledBack
    (event.type = .commitFinal ∨ c.tentativePolicy.admit event
      (before.transcriptDiff guard event newTail oldVersion).newTailTokens.length r2.gpuLoad = true)
    Or.inl (hview2 ▸ hsess1) hkept
  refine ⟨prefilled,rolledBack,next,xs,?_,(honly1.trans (onlyCache_withKV _ r1)).trans honly2,hs2,
    ?_,hnew,by omega,?_⟩
  · simp only [reviseCache,bind_ok hroll,bind_ok hstate,bind_ok hread,if_neg hcheck,
      bind_ok (get_apply _)]
    exact hfill
  · rw [hnext,hview2,hview1]
    simp only [NaiveKV.putSession,Function.update_idem]
  · have hload : r2.gpuLoad = r.gpuLoad := honly1.gpuLoad
    have htotal : (before.revise event newTail).totalTokens =
        before.committedTokens.length + newTail.length := by
      rw [← length_allTokens,allTokens_revise,List.length_append]
    rw [hfilled,hload]
    refine Prod.ext ?_ hrolled
    show (if _ then _ else _) = if _ then _ else _
    split
    · rw [htotal,hkeptAll,Nat.add_sub_add_left]
    · rfl

end CueBeeRuntime
end CueBee.Runtime
