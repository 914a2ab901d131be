import CueBee.Cache.CopyOnWriteRefinement
import CueBee.Runtime.RuntimeRuns

/-! # The cache agrees with the transcript

For every run of the runtime, what a caller can read from the cache about a session: its
tokens, which of its references are committed, and what a fork takes over.
-/
namespace CueBee.Runtime
open Cache Transcript Raising ConversationSession VersionedKVManager PyStr

/-- Committed tokens in front of a spine and a tail belong to the spine. -/
theorem spineTail_of_append {own spine tail : List Token} {pairs : List (Token × Validity)}
    (h : own.map (fun t => (t,.committed)) ++ pairs = spineTail spine tail) :
    ∃ others, spine = own ++ others ∧ pairs = spineTail others tail := by
  induction own generalizing spine with
  | nil => exact ⟨spine,rfl,h⟩
  | cons t own ih =>
    cases spine with
    | nil =>
      -- the first token would have to be a tentative one
      have hhead := congrArg List.head? h
      cases tail with
      | nil => simp [spineTail] at hhead
      | cons u us => simp [spineTail] at hhead
    | cons x xs =>
      simp only [spineTail,List.map_cons,List.cons_append,List.cons.injEq,Prod.mk.injEq] at h
      obtain ⟨⟨rfl,-⟩,h⟩ := h
      obtain ⟨others,rfl,hpairs⟩ := ih h
      exact ⟨others,rfl,hpairs⟩

/-- References that read as a spine and a tail are split where the tail begins. -/
theorem split_of_spineTail {pool : BlockPool} {refs : List KVRef} {spine tail : List Token}
    (hfull : ∀ ref ∈ refs, pool.tokens ref.physicalBlockId ≠ [])
    (h : pairsOf pool refs = spineTail spine tail) :
    ∃ committed rest, refs = committed ++ rest ∧
      (∀ ref ∈ committed, ref.validity = .committed) ∧
      (∀ ref ∈ rest, ref.validity = .tentative) ∧ tokensOf pool committed = spine := by
  induction refs generalizing spine with
  | nil =>
    have hlen := congrArg List.length h
    rw [length_spineTail,pairsOf_nil,List.length_nil] at hlen
    have hspine : spine = [] := List.length_eq_zero_iff.mp (by omega)
    exact ⟨[],[],rfl,by simp,by simp,hspine.symm⟩
  | cons ref refs ih =>
    have hrest : ∀ r ∈ refs, pool.tokens r.physicalBlockId ≠ [] :=
      fun r hr => hfull r (List.mem_cons_of_mem _ hr)
    cases spine with
    | nil =>
      -- no token is committed
      refine ⟨[],ref :: refs,rfl,by simp,fun r hr => ?_,rfl⟩
      obtain ⟨u,us,hus⟩ := List.exists_cons_of_ne_nil (hfull r hr)
      have hmem : (u,r.validity) ∈ pairsOf pool (ref :: refs) := by
        refine List.mem_flatMap.mpr ⟨r,hr,?_⟩
        rw [hus]
        exact List.mem_cons_self
      rw [h,spineTail,List.map_nil,List.nil_append] at hmem
      obtain ⟨v,-,hv⟩ := List.mem_map.mp hmem
      exact (congrArg Prod.snd hv).symm
    | cons x xs =>
      have hvalid : ref.validity = .committed := by
        obtain ⟨t,ts,hts⟩ := List.exists_cons_of_ne_nil (hfull ref List.mem_cons_self)
        have hhead := congrArg List.head? h
        rw [pairsOf_cons,hts] at hhead
        simp only [spineTail,List.map_cons,List.cons_append,List.head?_cons,Option.some.injEq] at hhead
        exact congrArg Prod.snd hhead
      rw [pairsOf_cons,hvalid] at h
      obtain ⟨others,hspine,hpairs⟩ := spineTail_of_append h
      obtain ⟨committed,rest,hrefs,hc,hr,hread⟩ := ih hrest hpairs
      refine ⟨ref :: committed,rest,by rw [hrefs]; rfl,?_,hr,by rw [tokensOf_cons,hread,hspine]⟩
      intro r hmem
      rcases List.mem_cons.mp hmem with rfl | hmem
      · exact hvalid
      · exact hc r hmem

theorem forked_committed (spine tail : List Token) :
    NaiveKV.forked false (spineTail spine tail) = spine := by
  simp [NaiveKV.forked,spineTail,List.filter_map,Function.comp_def]

namespace CueBeeRuntime
variable {S : Type} {c : Services S} {r next : CueBeeRuntime S}

/-- What can be read from the cache about session `s`. -/
structure CacheAgrees (r : CueBeeRuntime S) (s : SessionId) : Prop where
  tokens : ∃ resident, outcome (sessionTokens s) r.kv = .ok resident ∧
    resident <+: (r.sessions.current s).allTokens
  committed : ∃ committed rest, r.kv.sessionRefs s = committed ++ rest ∧
    (∀ ref ∈ committed, ref.validity = .committed) ∧ (∀ ref ∈ rest, ref.validity ≠ .committed) ∧
    tokensOf r.kv.pool committed = (r.sessions.current s).committedTokens
  fork : ∀ b, r.kv.branches.get? b = none → ∃ fresh kv, forkBranch b s false r.kv = .ok fresh kv ∧
    outcome (branchTokens b) kv = .ok (r.sessions.current s).committedTokens

theorem Inv.cacheAgrees (h : Inv r) (s : SessionId) : CacheAgrees r s := by
  have hsound : r.kv.Sound := h.sound
  obtain ⟨tail,htail,hview⟩ := h.agrees s
  refine ⟨⟨_,outcome_sessionTokens hsound s,(h.agrees s).prefix_allTokens⟩,?_,fun b hb => ?_⟩
  · have hfull : ∀ ref ∈ r.kv.sessionRefs s, r.kv.pool.tokens ref.physicalBlockId ≠ [] := by
      intro ref href hnil
      have hspan := ((hsound.session_ledger s).span (List.mem_append_left _ href)).1
      rw [hnil] at hspan
      exact absurd hspan (by simp)
    obtain ⟨committed,rest,hrefs,hc,hr,hread⟩ := split_of_spineTail hfull hview
    refine ⟨committed,rest,hrefs,hc,fun ref href => ?_,hread⟩
    rw [hr ref href]
    decide
  · have hnone : r.kv.view.branches b = none := by
      simp only [view,hb,Option.map_none]
    obtain ⟨fresh,kv,hrun,hnext,hfork⟩ := forkBranch_ok (s := s) hsound hnone false
    have hforked : NaiveKV.forked false (r.kv.view.sessions s) =
        (r.sessions.current s).committedTokens := by
      rw [show r.kv.view.sessions s = _ from hview]
      exact forked_committed _ _
    refine ⟨fresh,kv,hrun,?_⟩
    rw [outcome_branchTokens hnext,hfork,hforked,NaiveKV.branches_putBranch_self]

/-- The only exceptions of `handle_event` are those of `SessionManager`. -/
theorem handleEvent_error (hengine : c.engine.NeverRaises) (h : Inv r) {event : STTEvent}
    {error : RuntimeError} (hrun : handleEvent c event r = .error error next) :
    ∃ e, error = .session e := by
  cases handled c event r with
  | dropped a hnorm hdrop =>
    rw [hdrop] at hrun
    cases hrun
  | rejected e a err m hnorm happly hreject =>
    rw [hreject] at hrun
    cases hrun
    exact ⟨err,rfl⟩
  | accepted e a diff m hnorm happly hafter =>
    obtain ⟨-,session,hacc,hinst⟩ := SessionManager.apply_ok happly
    obtain ⟨outcome,last,hok,-,-,-⟩ := afterApply_ok
      (r := { r with revisions := a, sessions := m }) hengine h hacc hinst
    rw [hafter,hok] at hrun
    cases hrun

end CueBeeRuntime
open CueBeeRuntime

/-- If no deadline overflows behind the fork of a submission, the cache agrees with the
transcript after every call. -/
theorem cache_agrees_with_transcript {S : Type} (c : Services S) (htok : c.tokenizer.Total)
    (hengine : c.engine.NeverRaises) (blockSize : ℕ) (hblock : 0 < blockSize) (admissionCap : ℕ)
    (hcap : 0 < admissionCap) (e : S) (calls : List Call)
    (hfits : RunMeets (exec c) DeadlineFits calls (init blockSize hblock admissionCap hcap e)) :
    let r := runAll (exec c) calls (init blockSize hblock admissionCap hcap e)
    (∀ s, CacheAgrees r s) ∧
    ∀ event error next, handleEvent c event r = .error error next → ∃ e, error = .session e := by
  intro r
  have h : Inv r := inv_run htok hengine hblock hcap e hfits
  exact ⟨h.cacheAgrees,fun _ _ _ hrun => handleEvent_error hengine h hrun⟩

/-- A final shortens the transcript, and the cache holds the tokens of the final. -/
theorem cache_agrees_with_transcript_final :
    let calls : List Call := [
      .handleEvent (heard "g" 0 .appendPartial "hello there" (by decide) (by decide)),
      .submitTask (asked "t" .proactiveHint (lit "why")),
      .handleEvent (heard "g" 1 .commitFinal "hello" (by decide) (by decide)),.runNext (.fin 1)]
    let r := runAll (exec (quietServices lenientTokenizer)) calls (init 4 (by decide) 8 (by decide) ())
    ((∀ s, CacheAgrees r s) ∧ ∀ event error next,
      handleEvent (quietServices lenientTokenizer) event r = .error error next →
      ∃ e, error = .session e) ∧
    (r.kv.view.sessions (lit "s")).map Prod.fst = [105,102,109,109,112] := by
  intro calls r
  refine ⟨?_,by decide +kernel⟩
  exact cache_agrees_with_transcript (quietServices lenientTokenizer) lenientTokenizer_total
    quietEngine_neverRaises 4 (by decide) 8 (by decide) () calls
    ⟨trivial,fun _ => .inl (by decide +kernel),trivial,trivial,trivial⟩

/-- A hint with a deadline of `10 ^ 400` milliseconds, and the transcript is revised: the revision
raises when the transcript has moved and the cache has not. -/
theorem endless_hint_splits_cache :
    let c := quietServices lenientTokenizer
    let calls : List Call := [
      .handleEvent (heard "g" 0 .appendPartial "hello there" (by decide) (by decide)),
      .submitTask (askedEndless "t" .proactiveHint (lit "why"))]
    let r := runAll (exec c) calls (init 4 (by decide) 8 (by decide) ())
    let event := heard "g" 1 .revisePartial "good evening" (by decide) (by decide)
    outcome (handleEvent c event) r = .error (.scheduler (.unknownTask (lit "t"))) ∧
    ¬CacheAgrees (after (handleEvent c event) r) (lit "s") := by
  intro c calls r event
  refine ⟨by decide +kernel,?_⟩
  rintro ⟨⟨resident,hresident,hheld⟩,-,-⟩
  have htokens : outcome (sessionTokens (lit "s")) (after (handleEvent c event) r).kv =
      .ok ((lenientTokenizer.encode (lit "hello there")).getD []) := by decide +kernel
  rw [htokens,Except.ok.injEq] at hresident
  revert hheld
  rw [← hresident]
  decide +kernel

end CueBee.Runtime
