import CueBee.Speaker.BatchConservation
import CueBee.Speaker.TenantIsolation

/-! # What becomes of an accepted chunk

`flush` takes every batch that is due out of the queues before the first one is embedded.
An accepted chunk stays queued or comes back in the segments of one flush exactly as long as
the workers answer every batch, the store takes every result and every waiting time is a float.
-/
namespace CueBee.Speaker
open Cache Raising PyStr

variable {W K : Type} [SampleOps K]

/-- A service with the chunks it has accepted, by their serials, and the segments of every
flush that returned. -/
structure LiveSpeaker (W K : Type) [SampleOps K] where
  service : SpeakerService W K
  accepted : List (ℕ × AudioChunk K)
  flushed : List (List (SpeakerSegment K))

def ticket (item : QueuedChunk K) : ℕ × AudioChunk K := (item.serial,item.chunk)

namespace LiveSpeaker

def start (service : SpeakerService W K) : LiveSpeaker W K := ⟨service,[],[]⟩

def putService (service : SpeakerService W K) (s : LiveSpeaker W K) : LiveSpeaker W K :=
  { s with service := service }

def exec : SpeakerCall K → EStateM SpeakerError (LiveSpeaker W K) Unit
  | .submit chunk nowMs => do
    let s ← get
    let status ← focus service putService id (SpeakerService.submit chunk nowMs)
    if status = .accepted then
      modify (fun t => { t with
        accepted := t.accepted ++ [(s.service.batcher.nextSerial,chunk)] })
    else return ()
  | .flush nowMs force => do
    let segments ← focus service putService id (SpeakerService.flush nowMs force)
    modify (fun t => { t with flushed := t.flushed ++ [segments] })

end LiveSpeaker

/-- The segment is the one of the chunk. -/
def Describes (accepted : ℕ × AudioChunk K) (segment : SpeakerSegment K) : Prop :=
  segment.sessionId = accepted.2.sessionId ∧ segment.chunkId = accepted.2.chunkId ∧
    segment.startMs = accepted.2.startMs ∧ segment.endMs = accepted.2.endMs

/-- Every accepted chunk is queued, or it is in the segments of exactly one flush that
returned, and there once. -/
structure Conserved (s : LiveSpeaker W K) : Prop where
  distinct : (s.accepted.map Prod.fst).Nodup
  accounted : ∃ delivered : List (List (ℕ × AudioChunk K)),
    List.Forall₂ (List.Forall₂ Describes) delivered s.flushed ∧
    (s.service.batcher.queued.map ticket ++ delivered.flatten).Perm s.accepted

/-- The store takes the results of a batch one after another, from `store` to `store'`, and no
item has waited too long for a float. -/
inductive AllAssigned (nowMs : ℤ) (results : Dict ChunkId (EmbeddingResult K)) :
    List (QueuedChunk K) → SpeakerSessionStore K → SpeakerSessionStore K → Prop
  | nil (store : SpeakerSessionStore K) : AllAssigned nowMs results [] store store
  | cons {item : QueuedChunk K} {rest : List (QueuedChunk K)} {store store' : SpeakerSessionStore K}
      (result : EmbeddingResult K) (assigned : SpeakerId × K) (mid : SpeakerSessionStore K)
      (hresult : results.get? item.chunk.chunkId = some result)
      (hassign : SpeakerSessionStore.assign item.chunk.sessionId result.embedding result.quality store =
        .ok assigned mid)
      (hdelay : (SpeakerService.queueDelay nowMs item : Option K) ≠ none)
      (hrest : AllAssigned nowMs results rest mid store') :
      AllAssigned nowMs results (item :: rest) store store'

/-- The workers answer every batch with one result for each chunk, under the ids of the chunks,
and the store takes all of them. -/
inductive Answered (nowMs : ℤ) : List (List (QueuedChunk K)) → SpeakerService W K → Prop
  | nil (s : SpeakerService W K) : Answered nowMs [] s
  | cons {batch : List (QueuedChunk K)} {rest : List (List (QueuedChunk K))} {s : SpeakerService W K}
      (results : List (EmbeddingResult K)) (outside : W) (store : SpeakerSessionStore K)
      (hembed : s.worker.embedBatch (batch.map QueuedChunk.chunk) s.outside = .ok results outside)
      (hcount : results.length = batch.length)
      (hassign : AllAssigned nowMs (byChunk results) batch s.store store)
      (hrest : Answered nowMs rest
        { s with nextWorker := s.nextWorker + 1, outside := outside, store := store }) :
      Answered nowMs (batch :: rest) s

/-- The condition on a call: the batches that a flush pops are answered. -/
def FlushAnswered : SpeakerCall K → LiveSpeaker W K → Prop
  | .submit _ _, _ => True
  | .flush nowMs force, s => Answered nowMs (s.service.batcher.popReady nowMs force).1
      { s.service with batcher := (s.service.batcher.popReady nowMs force).2 }

namespace SpeakerService
variable {s t : SpeakerService W K} {nowMs : ℤ}

theorem assignBatch_of_assigned {results : Dict ChunkId (EmbeddingResult K)}
    {batch : List (QueuedChunk K)} {store : SpeakerSessionStore K}
    (h : AllAssigned nowMs results batch s.store store) :
    ∃ segments, assignBatch nowMs results batch s = .ok segments { s with store := store } := by
  induction batch generalizing s with
  | nil =>
    cases h
    exact ⟨[],rfl⟩
  | cons item rest ih =>
    cases h with
    | cons result assigned mid hresult hassign hdelay hrest =>
      obtain ⟨segments,hmore⟩ := ih (s := { s with store := mid }) hrest
      obtain ⟨delay,hdelay⟩ := Option.ne_none_iff_exists'.mp hdelay
      have hon : onStore (SpeakerSessionStore.assign item.chunk.sessionId result.embedding
          result.quality) s = .ok assigned { s with store := mid } := focus_ok hassign
      refine ⟨segmentOf item.chunk assigned result.quality :: segments,?_⟩
      simp only [assignBatch,hresult]
      refine (bind_ok hon).trans ?_
      rw [hdelay]
      exact bind_ok hmore

theorem assignBatch_ok {results : Dict ChunkId (EmbeddingResult K)} {batch : List (QueuedChunk K)}
    {segments : List (SpeakerSegment K)} (h : assignBatch nowMs results batch s = .ok segments t) :
    ∃ store, t = { s with store := store } ∧ AllAssigned nowMs results batch s.store store ∧
      List.Forall₂ Describes (batch.map ticket) segments := by
  induction batch generalizing s t segments with
  | nil =>
    cases h
    exact ⟨_,rfl,.nil _,.nil⟩
  | cons item rest ih =>
    cases hresult : results.get? item.chunk.chunkId with
    | none =>
      simp only [assignBatch,hresult] at h
      cases h
    | some result =>
      simp only [assignBatch,hresult] at h
      obtain ⟨assigned,mid,hon,hnext⟩ := bind_ok_iff.mp h
      cases hassign : SpeakerSessionStore.assign item.chunk.sessionId result.embedding
          result.quality s.store with
      | error e store =>
        rw [onStore,focus_error hassign] at hon
        cases hon
      | ok a store =>
        rw [onStore,focus_ok hassign] at hon
        cases hon
        cases hdelay : (queueDelay nowMs item : Option K) with
        | none =>
          rw [hdelay] at hnext
          cases hnext
        | some delay =>
          rw [hdelay] at hnext
          obtain ⟨more,u,hmore,hlast⟩ := bind_ok_iff.mp hnext
          obtain ⟨store',rfl,hrest,hsegments⟩ := ih hmore
          cases hlast
          exact ⟨store',rfl,.cons result assigned store hresult hassign (by simp [hdelay]) hrest,
            .cons ⟨rfl,rfl,rfl,rfl⟩ hsegments⟩

theorem embed_returns {chunks : List (AudioChunk K)} {results : List (EmbeddingResult K)} {w : W}
    (h : s.worker.embedBatch chunks s.outside = .ok results w) :
    embed chunks s = .ok results { s with nextWorker := s.nextWorker + 1, outside := w } := by
  simp only [embed,focus,h]

theorem embed_raises {chunks : List (AudioChunk K)} {e : WorkerError} {w : W}
    (h : s.worker.embedBatch chunks s.outside = .error e w) :
    embed chunks s = .error (.worker e) { s with nextWorker := s.nextWorker + 1, outside := w } := by
  simp only [embed,focus,h]

theorem processBatches_of_answered {batches : List (List (QueuedChunk K))}
    (h : Answered nowMs batches s) : ∃ segments t, processBatches nowMs batches s = .ok segments t := by
  induction h with
  | nil s => exact ⟨[],s,rfl⟩
  | @cons batch rest s results outside store hembed hcount hassign hrest ih =>
    obtain ⟨more,t,hmore⟩ := ih
    obtain ⟨segments,hassigned⟩ := assignBatch_of_assigned
      (s := { s with nextWorker := s.nextWorker + 1, outside := outside }) hassign
    have hbatch : processBatch nowMs batch s = .ok segments
        { s with nextWorker := s.nextWorker + 1, outside := outside, store := store } := by
      refine (bind_ok (embed_returns hembed)).trans ?_
      rw [if_neg (by simp [hcount])]
      exact hassigned
    exact ⟨segments ++ more,t,(bind_ok hbatch).trans (bind_ok hmore)⟩

/-- A flush that gets through its batches was answered, and its segments are those of the
chunks in the batches. -/
theorem processBatches_ok {batches : List (List (QueuedChunk K))} {segments : List (SpeakerSegment K)}
    (h : processBatches nowMs batches s = .ok segments t) :
    Answered nowMs batches s ∧ List.Forall₂ Describes (batches.flatten.map ticket) segments := by
  induction batches generalizing s t segments with
  | nil =>
    cases h
    exact ⟨.nil _,.nil⟩
  | cons batch rest ih =>
    obtain ⟨first,mid,hbatch,hnext⟩ := bind_ok_iff.mp h
    obtain ⟨more,u,hmore,hlast⟩ := bind_ok_iff.mp hnext
    obtain ⟨results,m,hembed,hassign⟩ := bind_ok_iff.mp hbatch
    cases hrun : s.worker.embedBatch (batch.map QueuedChunk.chunk) s.outside with
    | error e w =>
      rw [embed_raises hrun] at hembed
      cases hembed
    | ok r w =>
      rw [embed_returns hrun] at hembed
      cases hembed
      by_cases hcount : results.length = batch.length
      · rw [if_neg (by simp [hcount])] at hassign
        obtain ⟨store,rfl,hassigned,hfirst⟩ := assignBatch_ok hassign
        obtain ⟨hrest,hdescribes⟩ := ih hmore
        cases hlast
        refine ⟨.cons results w store hrun hcount hassigned hrest,?_⟩
        rw [List.flatten_cons,List.map_append]
        exact List.rel_append hfirst hdescribes
      · rw [if_pos hcount] at hassign
        cases hassign

section Batcher
variable (b : SpeakerMicroBatcher K)

theorem keeps_batcher_embed (chunks : List (AudioChunk K)) :
    Keeps (fun s : SpeakerService W K => s.batcher = b) (embed chunks) := by
  intro s hs
  cases hrun : s.worker.embedBatch chunks s.outside with
  | ok results w => rwa [after_ok (embed_returns hrun)]
  | error e w => rwa [after_error (embed_raises hrun)]

theorem keeps_batcher_assignBatch (nowMs : ℤ) (results : Dict ChunkId (EmbeddingResult K))
    (batch : List (QueuedChunk K)) :
    Keeps (fun s : SpeakerService W K => s.batcher = b) (assignBatch nowMs results batch) := by
  induction batch with
  | nil => exact keeps_pure _
  | cons item rest ih =>
    unfold assignBatch
    cases results.get? item.chunk.chunkId with
    | none => exact keeps_throw _
    | some result =>
      refine keeps_bind (fun s hs => ?_) (fun assigned => ?_)
      · cases hassign : SpeakerSessionStore.assign item.chunk.sessionId result.embedding
            result.quality s.store with
        | ok a store => rwa [onStore,after_ok (focus_ok hassign)]
        | error e store => rwa [onStore,after_error (focus_error hassign)]
      · cases (queueDelay nowMs item : Option K) with
        | none => exact keeps_throw _
        | some delay => exact keeps_bind ih (fun _ => keeps_pure _)

theorem keeps_batcher_processBatches (nowMs : ℤ) (batches : List (List (QueuedChunk K))) :
    Keeps (fun s : SpeakerService W K => s.batcher = b) (processBatches nowMs batches) := by
  induction batches with
  | nil => exact keeps_pure _
  | cons batch rest ih =>
    refine keeps_bind ?_ (fun segments => keeps_bind ih (fun _ => keeps_pure _))
    refine keeps_bind (keeps_batcher_embed b _) (fun results => ?_)
    exact keeps_ite (fun _ => keeps_throw _) (fun _ => keeps_batcher_assignBatch b nowMs _ batch)

end Batcher

/-- A flush that is answered returns the segments of the chunks it popped. -/
theorem flush_answered {force : Bool}
    (h : Answered nowMs (s.batcher.popReady nowMs force).1
      { s with batcher := (s.batcher.popReady nowMs force).2 }) :
    ∃ segments t, flush nowMs force s = .ok segments t ∧
      t.batcher = (s.batcher.popReady nowMs force).2 ∧
      List.Forall₂ Describes ((s.batcher.popReady nowMs force).1.flatten.map ticket) segments := by
  obtain ⟨segments,t,hrun⟩ := processBatches_of_answered h
  have hbatcher := (keeps_batcher_processBatches (s.batcher.popReady nowMs force).2 nowMs _).ok rfl hrun
  refine ⟨segments,{ t with backlogSeconds := some t.batcher.backlogSeconds },?_,hbatcher,
    (processBatches_ok hrun).2⟩
  exact (bind_ok (x := popReady nowMs force) rfl).trans ((bind_ok hrun).trans rfl)

/-- One that is not raises, and the chunks it popped are gone. -/
theorem flush_unanswered {force : Bool}
    (h : ¬Answered nowMs (s.batcher.popReady nowMs force).1
      { s with batcher := (s.batcher.popReady nowMs force).2 }) :
    ∃ e t, flush nowMs force s = .error e t ∧ t.batcher = (s.batcher.popReady nowMs force).2 := by
  cases hrun : processBatches nowMs (s.batcher.popReady nowMs force).1
      { s with batcher := (s.batcher.popReady nowMs force).2 } with
  | ok segments t => exact absurd (processBatches_ok hrun).1 h
  | error e t =>
    refine ⟨e,t,?_,
      (keeps_batcher_processBatches (s.batcher.popReady nowMs force).2 nowMs _).error rfl hrun⟩
    exact (bind_ok (x := popReady nowMs force) rfl).trans (bind_error hrun)

/-- What `submit` does to the queues: a chunk is accepted, or nothing is queued. -/
theorem submit_cases (chunk : AudioChunk K) (nowMs : ℤ) (s : SpeakerService W K) :
    (∃ t, submit chunk nowMs s = .ok .accepted t ∧
      t.batcher.nextSerial = s.batcher.nextSerial + 1 ∧
      ∃ item : QueuedChunk K, ticket item = (s.batcher.nextSerial,chunk) ∧
        t.batcher.queued.Perm (item :: s.batcher.queued)) ∨
    (outcome (submit chunk nowMs) s ≠ .ok .accepted ∧
      (after (submit chunk nowMs) s).batcher.nextSerial = s.batcher.nextSerial ∧
      (after (submit chunk nowMs) s).batcher.queued = s.batcher.queued) := by
  unfold submit outcome after
  by_cases hspeech : s.vad.isSpeech chunk.samples = false
  · simp only [if_pos hspeech]
    exact .inr ⟨by simp,rfl,rfl⟩
  · simp only [if_neg hspeech]
    have hqueue := SpeakerMicroBatcher.enqueue_perm chunk nowMs s.batcher
    generalize s.batcher.enqueue chunk nowMs = answer at hqueue ⊢
    rcases answer with ⟨_ | _ | _,batcher⟩
    · obtain ⟨-,hserial,hqueued⟩ := hqueue.resolve_left (by simp)
      exact .inr ⟨by simp,hserial,hqueued⟩
    · obtain ⟨-,hserial,hqueued⟩ := hqueue.resolve_left (by simp)
      exact .inr ⟨by simp,hserial,hqueued⟩
    · obtain ⟨-,hserial,item,hitem,hchunk,hperm⟩ := hqueue.resolve_right (by simp)
      exact .inl ⟨_,rfl,hserial,item,by rw [ticket,hitem,hchunk],hperm⟩

end SpeakerService

namespace LiveSpeaker
variable {s : LiveSpeaker W K}

/-- Conserved, and every accepted chunk has the serial of its turn. -/
structure Counted (s : LiveSpeaker W K) : Prop where
  conserved : Conserved s
  numbered : s.accepted.map Prod.fst = List.range s.service.batcher.nextSerial

theorem Counted.serials (h : Counted s) :
    (s.service.batcher.queued.map QueuedChunk.serial).Nodup := by
  obtain ⟨delivered,-,hperm⟩ := h.conserved.accounted
  have hdistinct := (hperm.map Prod.fst).nodup_iff.mpr h.conserved.distinct
  rw [List.map_append,List.map_map] at hdistinct
  exact (List.nodup_append.mp hdistinct).1

omit [SampleOps K] in
theorem describes_flatten {delivered : List (List (ℕ × AudioChunk K))}
    {flushed : List (List (SpeakerSegment K))}
    (h : List.Forall₂ (List.Forall₂ Describes) delivered flushed) :
    List.Forall₂ Describes delivered.flatten flushed.flatten := by
  induction h with
  | nil => exact .nil
  | cons hfirst _ ih => exact List.rel_append hfirst ih

theorem distinct_of_numbered (h : s.accepted.map Prod.fst = List.range s.service.batcher.nextSerial) :
    (s.accepted.map Prod.fst).Nodup := by
  rw [h]
  exact List.nodup_range

theorem counted_submit (h : Counted s) (chunk : AudioChunk K) (nowMs : ℤ) :
    Counted (after (exec (.submit chunk nowMs)) s) := by
  obtain ⟨delivered,hdescribes,hperm⟩ := h.conserved.accounted
  rcases SpeakerService.submit_cases chunk nowMs s.service with
    ⟨t,hsubmit,hserial,item,hitem,hqueued⟩ | ⟨hstatus,hserial,hqueued⟩
  · have hafter : after (exec (.submit chunk nowMs)) s = ⟨t,
        s.accepted ++ [(s.service.batcher.nextSerial,chunk)],s.flushed⟩ := by
      refine after_ok (a := ⟨⟩) ((bind_ok (get_apply s)).trans ((bind_ok (focus_ok hsubmit)).trans ?_))
      rw [if_pos rfl]
      rfl
    rw [hafter]
    have hnumbered : (s.accepted ++ [(s.service.batcher.nextSerial,chunk)]).map Prod.fst =
        List.range t.batcher.nextSerial := by
      rw [List.map_append,h.numbered,hserial,List.range_succ]
      rfl
    refine ⟨⟨distinct_of_numbered hnumbered,delivered,hdescribes,?_⟩,hnumbered⟩
    refine ((hqueued.map ticket).append_right _).trans ?_
    rw [List.map_cons,hitem,List.cons_append]
    exact (hperm.cons _).trans (List.perm_append_singleton _ _).symm
  · have hafter : after (exec (.submit chunk nowMs)) s =
        ⟨after (SpeakerService.submit chunk nowMs) s.service,s.accepted,s.flushed⟩ := by
      cases hsubmit : SpeakerService.submit chunk nowMs s.service with
      | ok status t =>
        rw [outcome_ok hsubmit] at hstatus
        refine after_ok (a := ⟨⟩) ((bind_ok (get_apply s)).trans ((bind_ok (focus_ok hsubmit)).trans ?_))
        rw [if_neg (fun heq => hstatus (congrArg Except.ok heq)),after_ok hsubmit]
        rfl
      | error e t =>
        refine (after_error ((bind_ok (get_apply s)).trans (bind_error (focus_error hsubmit)))).trans ?_
        rw [after_error hsubmit]
        rfl
    rw [hafter]
    have hnumbered : s.accepted.map Prod.fst =
        List.range (after (SpeakerService.submit chunk nowMs) s.service).batcher.nextSerial :=
      h.numbered.trans (congrArg List.range hserial.symm)
    refine ⟨⟨h.conserved.distinct,delivered,hdescribes,?_⟩,hnumbered⟩
    show ((after (SpeakerService.submit chunk nowMs) s.service).batcher.queued.map ticket ++
      delivered.flatten).Perm s.accepted
    rwa [hqueued]

theorem counted_flush (h : Counted s) {nowMs : ℤ} {force : Bool}
    (hanswered : FlushAnswered (.flush nowMs force) s) :
    Counted (after (exec (.flush nowMs force)) s) := by
  obtain ⟨delivered,hdescribes,hperm⟩ := h.conserved.accounted
  obtain ⟨segments,t,hflush,hbatcher,hsegments⟩ := SpeakerService.flush_answered hanswered
  have hafter : after (exec (.flush nowMs force)) s = ⟨t,s.accepted,s.flushed ++ [segments]⟩ :=
    after_ok (bind_ok (focus_ok hflush))
  obtain ⟨hpop,-,hserial⟩ := SpeakerMicroBatcher.popReady_perm nowMs force h.serials
  rw [hafter]
  have hnumbered : s.accepted.map Prod.fst = List.range t.batcher.nextSerial := by
    rw [hbatcher,hserial]
    exact h.numbered
  refine ⟨⟨h.conserved.distinct,
    delivered ++ [(s.service.batcher.popReady nowMs force).1.flatten.map ticket],
    List.rel_append hdescribes (.cons hsegments .nil),?_⟩,hnumbered⟩
  have hmoved := hpop.map ticket
  rw [List.map_append] at hmoved
  show (t.batcher.queued.map ticket ++ _).Perm s.accepted
  rw [hbatcher,List.flatten_append,List.flatten_singleton,← List.append_assoc]
  refine List.perm_append_comm.trans ?_
  rw [← List.append_assoc]
  exact (hmoved.append_right _).trans hperm

/-- A flush that is not answered has lost chunks for good. -/
theorem not_conserved_flush (h : Counted s) {nowMs : ℤ} {force : Bool}
    (hanswered : ¬FlushAnswered (.flush nowMs force) s) :
    ¬Conserved (after (exec (.flush nowMs force)) s) := by
  obtain ⟨delivered,hdescribes,hperm⟩ := h.conserved.accounted
  obtain ⟨e,t,hflush,hbatcher⟩ := SpeakerService.flush_unanswered hanswered
  have hafter : after (exec (.flush nowMs force)) s = ⟨t,s.accepted,s.flushed⟩ :=
    after_error (bind_error (focus_error hflush))
  obtain ⟨hpop,hne,-⟩ := SpeakerMicroBatcher.popReady_perm nowMs force h.serials
  rw [hafter]
  rintro ⟨-,delivered',hdescribes',hperm'⟩
  -- the segments account for as many chunks as before, the queues for fewer
  have hsame := (describes_flatten hdescribes).length_eq.trans
    (describes_flatten hdescribes').length_eq.symm
  have hpopped : 0 < (s.service.batcher.popReady nowMs force).1.flatten.length := by
    cases hbatches : (s.service.batcher.popReady nowMs force).1 with
    | nil =>
      refine absurd ?_ hanswered
      rw [FlushAnswered,hbatches]
      exact .nil _
    | cons batch rest =>
      have hbatch := hne batch (hbatches ▸ List.mem_cons_self)
      rw [List.flatten_cons,List.length_append]
      exact Nat.add_pos_left (List.length_pos_of_ne_nil hbatch) _
  have hbefore := hperm.length_eq
  have hafterwards : (t.batcher.queued.map ticket ++ delivered'.flatten).length =
    s.accepted.length := hperm'.length_eq
  have hqueues := hpop.length_eq
  rw [hbatcher] at hafterwards
  simp only [List.length_append,List.length_map] at hbefore hafterwards hqueues
  omega

theorem counted_iff (h : Counted s) (call : SpeakerCall K) :
    Conserved (after (exec call) s) ↔ FlushAnswered call s := by
  cases call with
  | submit chunk nowMs => exact ⟨fun _ => trivial,fun _ => (counted_submit h chunk nowMs).conserved⟩
  | flush nowMs force =>
    refine ⟨fun hconserved => ?_,fun hanswered => (counted_flush h hanswered).conserved⟩
    by_contra hanswered
    exact not_conserved_flush h hanswered hconserved

/-- No accepted chunk is lost in a run exactly if every flush is answered. -/
theorem no_chunk_lost (workers : List (EmbeddingWorker W K)) (hworkers : workers ≠ [])
    (store : SpeakerSessionStore K) (maxBatchSize : ℕ) (maxWaitMs dispatchSlackMs : ℤ)
    (perSessionPending : ℕ) (hbatch : 0 < maxBatchSize) (hwait : 0 < maxWaitMs)
    (hpending : 0 < perSessionPending) (vad : EnergyVAD K) (outside : W)
    (calls : List (SpeakerCall K)) :
    let s := start (SpeakerService.init workers hworkers store
      (SpeakerMicroBatcher.init maxBatchSize maxWaitMs dispatchSlackMs perSessionPending
        hbatch hwait hpending) vad outside)
    RunMeets exec (fun call s => Conserved (after (exec call) s)) calls s ↔
      RunMeets exec FlushAnswered calls s := by
  intro s
  refine runMeets_congr (I := Counted) (fun call t ht => counted_iff ht call) ?_ calls
    ⟨⟨List.nodup_nil,[],.nil,.refl _⟩,rfl⟩
  intro call t ht hconserved
  cases call with
  | submit chunk nowMs => exact counted_submit ht chunk nowMs
  | flush nowMs force => exact counted_flush ht ((counted_iff ht _).mp hconserved)

/-- A flush returns the chunks of two sessions that have waited long enough. -/
theorem no_chunk_lost_two_sessions :
    let first := signal "a" "c" 1 (by decide) (by decide)
    let second := signal "b" "d" (-1) (by decide) (by decide)
    let calls := [.submit first 0,.submit second 5,.flush 25 false]
    RunMeets exec (fun call s => Conserved (after (exec call) s)) calls (start signService) ∧
      (runAll exec calls (start signService)).flushed.flatten.length = 2 := by
  intro first second calls
  let s := (runAll exec [.submit first 0,.submit second 5] (start signService)).service
  have hrun : (outcome (SpeakerService.processBatches 25 (s.batcher.popReady 25 false).1)
      { s with batcher := (s.batcher.popReady 25 false).2 }).map List.length = .ok 2 := by
    decide +kernel
  obtain ⟨segments,t,hsegments,-⟩ := exists_of_outcome hrun
  have hanswered : FlushAnswered (.flush 25 false)
      (runAll exec [.submit first 0,.submit second 5] (start signService)) :=
    (SpeakerService.processBatches_ok hsegments).1
  exact ⟨(no_chunk_lost [signWorker] (by simp) _ 4 20 5 8 (by decide) (by decide) (by decide) _ ()
    _).mpr ⟨trivial,trivial,hanswered,trivial⟩,by decide +kernel⟩

/-- A worker that is out of order. -/
def brokenWorker : EmbeddingWorker Unit ℚ := ⟨fun _ => throw ⟨lit "out of memory"⟩⟩

/-- The chunk is popped before the worker raises, and no flush returns it. -/
theorem broken_worker_loses_chunk :
    ¬RunMeets exec (fun call s => Conserved (after (exec call) s))
      [.submit (signal "a" "c" 1 (by decide) (by decide)) 0,.flush 25 false]
      (start { signService with workers := [brokenWorker], workers_present := by simp }) := by
  rintro ⟨-,⟨-,delivered,hdescribes,hperm⟩,-⟩
  have hflushed : delivered.flatten.length = 0 := by
    rw [(describes_flatten hdescribes).length_eq]
    decide +kernel
  have hlength := hperm.length_eq
  rw [List.length_append,hflushed] at hlength
  revert hlength
  decide +kernel

end LiveSpeaker
end CueBee.Speaker
