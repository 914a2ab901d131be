import CueBee.Speaker.ProfileRuns
import CueBee.Speaker.LostChunks
import CueBee.Speaker.BatchLimits

/-! # The local worker in exact arithmetic

What passes the voice activity detection is loud, so that its features have a unit vector and a
quality well above zero. A service whose workers compute these features never raises: every
accepted chunk gets a segment, and every profile keeps a unit vector.
-/
namespace CueBee.Speaker
open Cache Raising PyStr VectorGeometry

theorem exact_min (x y : ℝ) : FloatOps.min x y = min x y := by
  unfold FloatOps.min
  by_cases h : y < x
  · simp [h,h.le]
  · simp [h,not_lt.mp h]

/-- The quality of what is just loud enough. -/
noncomputable def lowestQuality (vad : EnergyVAD ℝ) : ℝ :=
  min 1 (vad.rmsThreshold / FloatOps.ofRat (3 / 20))

theorem fullQuality_pos : (0 : ℝ) < FloatOps.ofRat (3 / 20) := by
  rw [exact_ofRat]
  norm_num

theorem lowestQuality_nonneg (vad : EnergyVAD ℝ) : 0 ≤ lowestQuality vad := by
  have hthreshold : 0 ≤ vad.rmsThreshold := by simpa using vad.threshold_ok
  exact le_min zero_le_one (div_nonneg hthreshold fullQuality_pos.le)

/-- A unit vector of dimension `d`, and a quality between `lowest` and 1. -/
structure Features.Clear (d : ℕ) (lowest : ℝ) (f : Features ℝ) : Prop where
  length : f.embedding.length = d
  unit : dot f.embedding f.embedding = 1
  lower : lowest ≤ f.quality
  upper : f.quality ≤ 1

theorem rms_of_isSpeech {vad : EnergyVAD ℝ} {samples : List ℝ} (h : vad.isSpeech samples = true) :
    vad.rmsThreshold ≤ rms samples := by
  unfold EnergyVAD.isSpeech at h
  split at h
  · cases h
  · exact decide_eq_true_eq.mp (Bool.and_eq_true_iff.mp h).1

theorem chunkFeatures_clear {d : ℕ} (hd : 4 ≤ d) {vad : EnergyVAD ℝ} (hloud : 0 < vad.rmsThreshold)
    {samples : List ℝ} (h : vad.isSpeech samples = true) :
    (chunkFeatures d samples).Clear d (lowestQuality vad) := by
  have hrms := rms_of_isSpeech h
  have hquality : (chunkFeatures d samples).quality =
      max 0 (min 1 (rms samples / FloatOps.ofRat (3 / 20))) := by
    show FloatOps.max ((0 : ℚ) : ℝ) (FloatOps.min ((1 : ℚ) : ℝ) _) = _
    rw [exact_max,exact_min,Rat.cast_zero,Rat.cast_one]
  constructor
  · rw [chunkFeatures,length_normalize]
    simp only [List.length_append,List.length_map,List.length_range,List.length_cons,List.length_nil]
    omega
  · -- the energy is one of the entries
    refine dot_normalize (fun hzero => ?_)
    have henergy := dot_self_eq_zero.mp hzero (rms samples) (by simp)
    linarith
  · rw [hquality]
    exact le_max_of_le_right (min_le_min_left 1 (div_le_div_of_nonneg_right hrms fullQuality_pos.le))
  · rw [hquality]
    exact max_le zero_le_one (min_le_left _ _)

/-- Every centroid is a unit vector. -/
def SpeakerSession.Unit (session : SpeakerSession ℝ) : Prop :=
  ∀ speakerId p, session.profiles.get? speakerId = some p → dot p.centroid p.centroid = 1

namespace SpeakerSession
variable {d : ℕ} {session after : SpeakerSession ℝ} {vector : List ℝ}

theorem Unit.answer (h : session.Unit) (hkept : session.Kept d) (hvector : vector.length = d)
    (hunit : dot vector vector = 1) {threshold quality : ℝ} {reply : SpeakerId × ℝ}
    (hanswer : session.answer threshold vector quality = (.ok reply,after)) : after.Unit := by
  have hanswered := hkept.sized.answered hvector threshold quality
  rw [hanswer] at hanswered
  cases hanswered with
  | opened score hscore hlow =>
    intro speakerId p hp
    rw [SpeakerSessionStore.addProfile,Dict.get?_set] at hp
    split at hp
    · cases hp
      exact hunit
    · exact h speakerId p hp
  | matched best hbest hopposite hhigh =>
    obtain ⟨hget,hbestKept⟩ := hkept.sized.mem_values hbest.mem
    obtain ⟨-,hgrown⟩ := hbestKept.blend hvector (.inl hunit) hopposite (weightOf_pos quality)
    intro speakerId p hp
    rw [Dict.get?_set] at hp
    split at hp
    · cases hp
      exact hgrown.centroid (h _ _ hget)
    · exact h speakerId p hp

end SpeakerSession

namespace SpeakerSessionStore
variable {d : ℕ} {lowest : ℝ} {store next : SpeakerSessionStore ℝ}

/-- Kept, with unit vectors in every session. -/
structure Lit (d : ℕ) (store : SpeakerSessionStore ℝ) : Prop where
  kept : Kept d store
  unit : ∀ s, (store.session s).Unit

theorem lit_init (d : ℕ) (threshold : ℝ) (h : FloatOps.between (-1) 1 threshold = true) :
    Lit d (init threshold h) :=
  ⟨kept_init d threshold h,fun _ _ _ hp => nomatch hp⟩

/-- A segment of the given similarity and quality, for a speaker that the store knows. -/
structure Heard (lowest : ℝ) (store : SpeakerSessionStore ℝ) (segment : SpeakerSegment ℝ) : Prop where
  similar : -1 ≤ segment.similarity ∧ segment.similarity ≤ 1
  quality : lowest ≤ segment.embeddingQuality ∧ segment.embeddingQuality ≤ 1
  known : ∃ p, (store.session segment.sessionId).profiles.get? segment.speakerId = some p

theorem Heard.grows {segment : SpeakerSegment ℝ} (h : Heard lowest store segment)
    (hgrows : Grows store next) : Heard lowest next segment := by
  obtain ⟨p,hp⟩ := h.known
  obtain ⟨p',hp',-⟩ := hgrows.profiles _ _ p hp
  exact ⟨h.similar,h.quality,p',hp'⟩

/-- Clear features are taken, and the chunk gets its segment. -/
theorem Lit.assign (h : Lit d store) {f : Features ℝ} (hf : f.Clear d lowest) (hlowest : 0 ≤ lowest)
    (chunk : AudioChunk ℝ) : ∃ assigned next,
      SpeakerSessionStore.assign chunk.sessionId f.embedding f.quality store = .ok assigned next ∧
      Lit d next ∧ Grows store next ∧ Heard lowest next (segmentOf chunk assigned f.quality) := by
  have hnonneg : 0 ≤ f.quality := hlowest.trans hf.lower
  have hunit : dot (normalize f.embedding) (normalize f.embedding) = 1 :=
    dot_normalize (by rw [hf.unit]; exact one_ne_zero)
  obtain ⟨speakerId,score,next,hrun,hlower,hupper,hone,hkept,hgrows⟩ :=
    h.kept.assign chunk.sessionId hf.length hnonneg hf.upper
  obtain ⟨p,hp,-⟩ := hone.changed
  refine ⟨(speakerId,score),next,hrun,⟨hkept,fun s => ?_⟩,hgrows,
    ⟨⟨hlower,hupper⟩,⟨hf.lower,hf.upper⟩,p,hp⟩⟩
  have hquality : FloatOps.between 0 1 f.quality = true := by
    rw [exact_between]
    exact ⟨by simpa using hnonneg,by simpa using hf.upper⟩
  have hanswers := assign_answers chunk.sessionId f.embedding hquality store
  have hsession := hanswers.installed
  have houtcome := hanswers.outcome
  rw [outcome_ok hrun] at houtcome
  rw [after_ok hrun] at hsession
  by_cases hs : s = chunk.sessionId
  · rw [hs,hsession.session_self]
    exact (h.unit chunk.sessionId).answer (h.kept.session chunk.sessionId)
      ((length_normalize f.embedding).trans hf.length) hunit (Prod.ext houtcome.symm rfl)
  · rw [hsession.session_ne hs]
    exact h.unit s

end SpeakerSessionStore

namespace SpeakerService
open SpeakerSessionStore (Lit Grows Heard)
variable {W : Type} {d : ℕ} {vad : EnergyVAD ℝ} {lowest : ℝ} {s : SpeakerService W ℝ}

/-- The workers compute the local features, and the profiles are unit vectors. -/
structure Local (d : ℕ) (vad : EnergyVAD ℝ) (s : SpeakerService W ℝ) : Prop where
  workers : ∀ worker ∈ s.workers, worker.Computes (fun chunk => chunkFeatures d chunk.samples)
  vad : s.vad = vad
  lit : s.store.Lit d

/-- Everything in the list is speech. -/
def Speech (vad : EnergyVAD ℝ) (items : List (QueuedChunk ℝ)) : Prop :=
  ∀ item ∈ items, vad.isSpeech item.chunk.samples = true

theorem assignBatch_heard (nowMs : ℤ) {results : Dict ChunkId (EmbeddingResult ℝ)} (hlowest : 0 ≤ lowest)
    {batch : List (QueuedChunk ℝ)} (hbatch : ∀ item ∈ batch, ∃ result,
      results.get? item.chunk.chunkId = some result ∧ result.features.Clear d lowest)
    (h : s.store.Lit d) : ∃ segments store,
      assignBatch nowMs results batch s = .ok segments { s with store := store } ∧ store.Lit d ∧
      Grows s.store store ∧ ∀ segment ∈ segments, Heard lowest store segment := by
  induction batch generalizing s with
  | nil => exact ⟨[],s.store,rfl,h,.refl _,by simp⟩
  | cons item rest ih =>
    obtain ⟨result,hresult,hclear⟩ := hbatch item List.mem_cons_self
    obtain ⟨assigned,mid,hassign,hmid,hgrows,hheard⟩ := h.assign hclear hlowest item.chunk
    have hon : onStore (SpeakerSessionStore.assign item.chunk.sessionId result.embedding
        result.quality) s = .ok assigned { s with store := mid } := focus_ok hassign
    obtain ⟨segments,store,hrun,hlast,hmore,hsegments⟩ := ih (s := { s with store := mid })
      (fun other hother => hbatch other (List.mem_cons_of_mem _ hother)) hmid
    refine ⟨segmentOf item.chunk assigned result.quality :: segments,store,?_,hlast,
      hgrows.trans hmore,fun segment hsegment => ?_⟩
    · simp only [assignBatch,hresult]
      refine (bind_ok hon).trans ?_
      rw [queueDelay,exact_ofInt]
      exact bind_ok hrun
    · rcases List.mem_cons.mp hsegment with rfl | hsegment
      · exact hheard.grows hmore
      · exact hsegments segment hsegment

/-- Every item of a batch of speech finds clear features, if only those of a chunk of its id. -/
theorem byChunk_clear (hd : 4 ≤ d) (hloud : 0 < vad.rmsThreshold) {batch : List (QueuedChunk ℝ)}
    (hspeech : Speech vad batch) {results : List (EmbeddingResult ℝ)}
    (hresults : results.map (fun result => (result.chunkId,result.features)) =
      (batch.map QueuedChunk.chunk).map (fun chunk => (chunk.chunkId,chunkFeatures d chunk.samples)))
    {item : QueuedChunk ℝ} (hitem : item ∈ batch) : ∃ result,
      (byChunk results).get? item.chunk.chunkId = some result ∧
      result.features.Clear d (lowestQuality vad) := by
  rw [List.map_map] at hresults
  rcases get?_byChunk results Dict.empty item.chunk.chunkId with ⟨result,hmem,-,hget⟩ | ⟨hnone,-⟩
  · have hcomputed : (result.chunkId,result.features) ∈
        results.map (fun result => (result.chunkId,result.features)) :=
      List.mem_map.mpr ⟨result,hmem,rfl⟩
    rw [hresults] at hcomputed
    obtain ⟨other,hother,hsame⟩ := List.mem_map.mp hcomputed
    have hfeatures : chunkFeatures d other.chunk.samples = result.features := (Prod.mk.inj hsame).2
    exact ⟨result,hget,hfeatures ▸ chunkFeatures_clear hd hloud (hspeech other hother)⟩
  · have hcomputed : (item.chunk.chunkId,chunkFeatures d item.chunk.samples) ∈
        results.map (fun result => (result.chunkId,result.features)) := by
      rw [hresults]
      exact List.mem_map.mpr ⟨item,hitem,rfl⟩
    obtain ⟨result,hmem,hsame⟩ := List.mem_map.mp hcomputed
    exact absurd (Prod.mk.inj hsame).1 (hnone result hmem)

theorem Local.processBatch (h : Local d vad s) (nowMs : ℤ) (hd : 4 ≤ d) (hloud : 0 < vad.rmsThreshold)
    {batch : List (QueuedChunk ℝ)} (hspeech : Speech vad batch) : ∃ segments t,
      processBatch nowMs batch s = .ok segments t ∧ Local d vad t ∧ Grows s.store t.store ∧
      ∀ segment ∈ segments, Heard (lowestQuality vad) t.store segment := by
  obtain ⟨results,w,hembed,hresults⟩ :=
    h.workers s.worker (List.get_mem _ _) (batch.map QueuedChunk.chunk) s.outside
  have hcount : results.length = batch.length := by
    have hlength := congrArg List.length hresults
    simpa only [List.length_map] using hlength
  obtain ⟨segments,store,hrun,hlit,hgrows,hheard⟩ := assignBatch_heard nowMs
    (s := { s with nextWorker := s.nextWorker + 1, outside := w }) (lowestQuality_nonneg vad)
    (fun _ hitem => byChunk_clear hd hloud hspeech hresults hitem) h.lit
  have hbatch : SpeakerService.processBatch nowMs batch s = .ok segments
      { s with nextWorker := s.nextWorker + 1, outside := w, store := store } := by
    refine (bind_ok (embed_returns hembed)).trans ?_
    rw [if_neg (not_not.mpr hcount)]
    exact hrun
  exact ⟨segments,_,hbatch,⟨h.workers,h.vad,hlit⟩,hgrows,hheard⟩

theorem Local.processBatches (h : Local d vad s) (nowMs : ℤ) (hd : 4 ≤ d) (hloud : 0 < vad.rmsThreshold)
    {batches : List (List (QueuedChunk ℝ))} (hspeech : Speech vad batches.flatten) : ∃ segments t,
      processBatches nowMs batches s = .ok segments t ∧ Local d vad t ∧ Grows s.store t.store ∧
      ∀ segment ∈ segments, Heard (lowestQuality vad) t.store segment := by
  induction batches generalizing s with
  | nil => exact ⟨[],s,rfl,h,.refl _,by simp⟩
  | cons batch rest ih =>
    obtain ⟨segments,mid,hbatch,hmid,hgrows,hheard⟩ := h.processBatch nowMs hd hloud
      (fun item hitem => hspeech item (List.mem_append_left _ hitem))
    obtain ⟨more,t,hrun,ht,hgrows',hmore⟩ := ih hmid
      (fun item hitem => hspeech item (List.mem_append_right _ hitem))
    refine ⟨segments ++ more,t,(bind_ok hbatch).trans (bind_ok hrun),ht,hgrows.trans hgrows',
      fun segment hsegment => ?_⟩
    rcases List.mem_append.mp hsegment with hsegment | hsegment
    · exact (hheard segment hsegment).grows hgrows'
    · exact hmore segment hsegment

/-- Only speech is queued. -/
theorem Local.submit (h : Local d vad s) (chunk : AudioChunk ℝ) (nowMs : ℤ)
    (hspeech : Speech vad s.batcher.queued) : ∃ status t, submit chunk nowMs s = .ok status t ∧
      Local d vad t ∧ t.store = s.store ∧ Speech vad t.batcher.queued := by
  unfold SpeakerService.submit
  by_cases hsilent : s.vad.isSpeech chunk.samples = false
  · rw [if_pos hsilent]
    exact ⟨_,_,rfl,⟨h.workers,h.vad,h.lit⟩,rfl,hspeech⟩
  · rw [if_neg hsilent]
    rw [Bool.not_eq_false,h.vad] at hsilent
    have hqueue := SpeakerMicroBatcher.enqueue_perm chunk nowMs s.batcher
    have hanswer := SpeakerMicroBatcher.enqueue_answer chunk nowMs s.batcher
    rw [AudioChunk.durationSeconds,exact_ofInt] at hanswer
    cases henqueue : s.batcher.enqueue chunk nowMs with
    | mk answer batcher =>
      rw [henqueue] at hqueue hanswer
      rcases hqueue with ⟨htaken,-,item,-,hchunk,hperm⟩ | ⟨hrefused,-,hqueued⟩
      · obtain rfl : answer = some true := htaken
        refine ⟨_,_,rfl,⟨h.workers,h.vad,h.lit⟩,rfl,fun other hother => ?_⟩
        rcases List.mem_cons.mp (hperm.mem_iff.mp hother) with rfl | hother
        · rw [hchunk]
          exact hsilent
        · exact hspeech other hother
      · obtain rfl : answer = some false := by
          split at hanswer
          · exact hanswer
          · exact absurd hanswer hrefused
        refine ⟨_,_,rfl,⟨h.workers,h.vad,h.lit⟩,rfl,?_⟩
        show Speech vad batcher.queued
        rw [hqueued]
        exact hspeech

end SpeakerService

namespace LiveSpeaker
open SpeakerService (Local Speech)
open SpeakerSessionStore (Heard)
variable {W : Type} {d : ℕ} {vad : EnergyVAD ℝ} {s : LiveSpeaker W ℝ}

/-- No chunk is lost, only speech is queued, and every segment returned is for a known speaker. -/
structure Serving (d : ℕ) (vad : EnergyVAD ℝ) (s : LiveSpeaker W ℝ) : Prop where
  counted : Counted s
  service : s.service.Local d vad
  speech : Speech vad s.service.batcher.queued
  heard : ∀ segments ∈ s.flushed, ∀ segment ∈ segments,
    Heard (lowestQuality vad) s.service.store segment

theorem Serving.submit (h : Serving d vad s) (chunk : AudioChunk ℝ) (nowMs : ℤ) :
    ∃ next, exec (.submit chunk nowMs) s = .ok () next ∧ Serving d vad next := by
  obtain ⟨status,t,hsubmit,hlocal,hstore,hspeech⟩ := h.service.submit chunk nowMs h.speech
  have hcounted := counted_submit h.counted chunk nowMs
  have hrun : ∃ accepted, exec (.submit chunk nowMs) s = .ok () ⟨t,accepted,s.flushed⟩ := by
    by_cases hstatus : status = .accepted
    · refine ⟨s.accepted ++ [(s.service.batcher.nextSerial,chunk)],
        (bind_ok (get_apply s)).trans ((bind_ok (focus_ok hsubmit)).trans ?_)⟩
      rw [if_pos hstatus]
      rfl
    · refine ⟨s.accepted,(bind_ok (get_apply s)).trans ((bind_ok (focus_ok hsubmit)).trans ?_)⟩
      rw [if_neg hstatus]
      rfl
  obtain ⟨accepted,hrun⟩ := hrun
  rw [after_ok hrun] at hcounted
  exact ⟨_,hrun,hcounted,hlocal,hspeech,hstore ▸ h.heard⟩

theorem Serving.flush (h : Serving d vad s) (hd : 4 ≤ d) (hloud : 0 < vad.rmsThreshold) (nowMs : ℤ)
    (force : Bool) : ∃ next, exec (.flush nowMs force) s = .ok () next ∧ Serving d vad next := by
  obtain ⟨hpop,-,-⟩ := SpeakerMicroBatcher.popReady_perm nowMs force h.counted.serials
  have hpopped : Speech vad (s.service.batcher.popReady nowMs force).1.flatten := fun item hitem =>
    h.speech item (hpop.mem_iff.mp (List.mem_append_left _ hitem))
  have hlocal : Local d vad { s.service with
      batcher := (s.service.batcher.popReady nowMs force).2 } :=
    ⟨h.service.workers,h.service.vad,h.service.lit⟩
  obtain ⟨segments,t,hrun,ht,hgrows,hheard⟩ := hlocal.processBatches nowMs hd hloud hpopped
  have hflush : SpeakerService.flush nowMs force s.service =
      .ok segments { t with backlogSeconds := some t.batcher.backlogSeconds } :=
    (bind_ok (x := SpeakerService.popReady nowMs force) rfl).trans ((bind_ok hrun).trans rfl)
  have hexec : exec (.flush nowMs force) s =
      .ok () ⟨{ t with backlogSeconds := some t.batcher.backlogSeconds },s.accepted,
        s.flushed ++ [segments]⟩ := bind_ok (focus_ok hflush)
  have hcounted := counted_flush h.counted (SpeakerService.processBatches_ok hrun).1
  rw [after_ok hexec] at hcounted
  have hbatcher : t.batcher = (s.service.batcher.popReady nowMs force).2 :=
    (SpeakerService.keeps_batcher_processBatches _ _ _).ok rfl hrun
  refine ⟨_,hexec,hcounted,⟨ht.workers,ht.vad,ht.lit⟩,fun item hitem => ?_,fun some hsome => ?_⟩
  · have hleft : item ∈ (s.service.batcher.popReady nowMs force).2.queued := hbatcher ▸ hitem
    exact h.speech item (hpop.mem_iff.mp (List.mem_append_right _ hleft))
  · rcases List.mem_append.mp hsome with hsome | hsome
    · exact fun segment hsegment => (h.heard some hsome segment hsegment).grows hgrows
    · rw [List.mem_singleton.mp hsome]
      exact hheard

/-- Every call returns. -/
theorem Serving.exec (h : Serving d vad s) (hd : 4 ≤ d) (hloud : 0 < vad.rmsThreshold)
    (call : SpeakerCall ℝ) : ∃ next, LiveSpeaker.exec call s = .ok () next ∧ Serving d vad next := by
  cases call with
  | submit chunk nowMs => exact h.submit chunk nowMs
  | flush nowMs force => exact h.flush hd hloud nowMs force

theorem keeps_serving (hd : 4 ≤ d) (hloud : 0 < vad.rmsThreshold) (call : SpeakerCall ℝ) :
    Keeps (Serving (W := W) d vad) (LiveSpeaker.exec call) := by
  intro s h
  obtain ⟨next,hrun,hnext⟩ := h.exec hd hloud call
  rwa [after_ok hrun]

end LiveSpeaker
open LiveSpeaker

/-- A service whose workers compute the local features never raises and loses no chunk. -/
theorem local_workers_never_fail {W : Type} (workers : List (EmbeddingWorker W ℝ))
    (hworkers : workers ≠ []) (d : ℕ) (hd : 4 ≤ d)
    (hcompute : ∀ worker ∈ workers, worker.Computes (fun chunk => chunkFeatures d chunk.samples))
    (threshold : ℝ) (h : FloatOps.between (-1) 1 threshold = true) (maxBatchSize : ℕ)
    (maxWaitMs dispatchSlackMs : ℤ) (perSessionPending : ℕ) (hbatch : 0 < maxBatchSize)
    (hwait : 0 < maxWaitMs) (hpending : 0 < perSessionPending) (vad : EnergyVAD ℝ)
    (hloud : 0 < vad.rmsThreshold) (outside : W) (calls : List (SpeakerCall ℝ)) :
    let s := runAll exec calls (start (SpeakerService.init workers hworkers
      (SpeakerSessionStore.init threshold h) (SpeakerMicroBatcher.init maxBatchSize maxWaitMs
        dispatchSlackMs perSessionPending hbatch hwait hpending) vad outside))
    (∀ call, ∃ next, exec call s = .ok () next) ∧ Conserved s ∧
    (∀ segments ∈ s.flushed, ∀ segment ∈ segments,
      SpeakerSessionStore.Heard (lowestQuality vad) s.service.store segment) ∧
    ∀ sessionId speakerId p,
      (s.service.store.session sessionId).profiles.get? speakerId = some p →
      p.centroid.length = d ∧ dot p.centroid p.centroid = 1 := by
  intro s
  have hserving : Serving d vad s := runAll_keeps (keeps_serving hd hloud) calls
    ⟨⟨⟨List.nodup_nil,[],.nil,.refl _⟩,rfl⟩,
      ⟨hcompute,rfl,SpeakerSessionStore.lit_init d threshold h⟩,(fun _ hitem => nomatch hitem),
      (fun _ hsegments => nomatch hsegments)⟩
  refine ⟨fun call => ?_,hserving.counted.conserved,hserving.heard,fun sessionId speakerId p hp => ?_⟩
  · obtain ⟨next,hrun,-⟩ := hserving.exec hd hloud call
    exact ⟨next,hrun⟩
  · exact ⟨((hserving.service.lit.kept.session sessionId).profile speakerId p hp).length,
      hserving.service.lit.unit sessionId speakerId p hp⟩

/-- Two voices at the default thresholds, the second under the id of the first chunk. -/
theorem local_workers_never_fail_two_voices : ∃ vad : EnergyVAD ℝ, vad.rmsThreshold = 1 / 100 ∧
    ∃ (h : FloatOps.between (-1) 1 ((3 : ℝ) / 4) = true),
      let s := runAll exec [
          .submit (.halfSecond "a" "c" none 1 (by decide) (by decide)) 0,
          .submit (.halfSecond "b" "c" none (-1) (by decide) (by decide)) 1,.flush 25 true]
        (start (SpeakerService.init [deterministicEmbeddingWorker 16 (by decide) 0] (by simp)
          (SpeakerSessionStore.init (3 / 4) h) (SpeakerMicroBatcher.init 16 20 5 8 (by decide)
            (by decide) (by decide)) vad ()))
      (∀ call, ∃ next, exec call s = .ok () next) ∧ Conserved s := by
  have hthreshold : FloatOps.lt (1 / 100 : ℝ) (FloatOps.ofRat 0) = false := by simp
  have hratio : FloatOps.between 0 1 (1 / 20 : ℝ) = true := by
    rw [exact_between]
    norm_num
  have h : FloatOps.between (-1) 1 ((3 : ℝ) / 4) = true := by
    rw [exact_between]
    norm_num
  refine ⟨⟨1 / 100,1 / 20,hthreshold,hratio⟩,rfl,h,?_⟩
  obtain ⟨hreturns,hconserved,-⟩ := local_workers_never_fail [deterministicEmbeddingWorker 16
    (by decide) 0] (by simp) 16 (by decide) (fun worker hworker => by
      rw [List.mem_singleton.mp hworker]
      exact deterministicEmbeddingWorker_computes 16 (by decide) 0) (3 / 4) h 16 20 5 8 (by decide)
    (by decide) (by decide) ⟨1 / 100,1 / 20,hthreshold,hratio⟩ (by norm_num) () [
      .submit (.halfSecond "a" "c" none 1 (by decide) (by decide)) 0,
      .submit (.halfSecond "b" "c" none (-1) (by decide) (by decide)) 1,.flush 25 true]
  exact ⟨hreturns,hconserved⟩

end CueBee.Speaker
