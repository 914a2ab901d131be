import CueBee.Speaker.TenantIsolation

/-! # Replacing the workers

`replace_workers` may put any fleet in the place of another while audio is coming in. Workers
that answer every batch alike leave no trace of which of them were there: the clients get the
same replies, and the same chunks are queued and the same speakers known afterwards.
-/
namespace CueBee.Speaker
open Cache Raising PyStr

variable {W V K : Type}

/-- The worker answers every batch with these features under these ids. -/
def EmbeddingWorker.Answers (F : List (AudioChunk K) → List (ChunkId × Features K))
    (worker : EmbeddingWorker W K) : Prop :=
  ∀ chunks w, ∃ results w', worker.embedBatch chunks w = .ok results w' ∧
    results.map (fun result => (result.chunkId,result.features)) = F chunks

theorem EmbeddingWorker.Computes.answers {f : AudioChunk K → Features K}
    {worker : EmbeddingWorker W K} (h : worker.Computes f) :
    worker.Answers (fun chunks => chunks.map (fun chunk => (chunk.chunkId,f chunk))) := h

/-- A call on the service: of a client, or of whoever scales it. -/
inductive FleetCall (W K : Type)
  | client (call : SpeakerCall K)
  | replaceWorkers (workers : List (EmbeddingWorker W K))

inductive FleetError
  | noWorkers
  | speaker (error : SpeakerError)
deriving DecidableEq

/-- What is left of the calls for a service that is never scaled. -/
def clientCalls : List (FleetCall W K) → List (SpeakerCall K)
  | [] => []
  | .client call :: rest => call :: clientCalls rest
  | .replaceWorkers _ :: rest => clientCalls rest

variable [SampleOps K]

namespace SpeakerService

def replaceWorkers (workers : List (EmbeddingWorker W K)) :
    EStateM FleetError (SpeakerService W K) Unit := fun s =>
  if h : workers = [] then .error .noWorkers s
  else .ok () { s with workers := workers, workers_present := h, nextWorker := 0 }

/-- A reply to a client, and nothing for whoever scales the service. -/
def execFleet : FleetCall W K → EStateM FleetError (SpeakerService W K) (Option (SpeakerReply K))
  | .client call => focus id (fun s _ => s) .speaker (do
      let reply ← exec call
      return some reply)
  | .replaceWorkers workers => do
    replaceWorkers workers
    return none

/-- What the clients are told in a run. -/
def clientReplies : List (FleetCall W K) → SpeakerService W K →
    List (Except SpeakerError (SpeakerReply K))
  | [], _ => []
  | .client call :: rest, s =>
    outcome (exec call) s :: clientReplies rest (after (execFleet (.client call)) s)
  | .replaceWorkers workers :: rest, s =>
    clientReplies rest (after (execFleet (.replaceWorkers workers)) s)

/-- All that two services have in common that differ in their fleets only. -/
structure SeenAlike (F : List (AudioChunk K) → List (ChunkId × Features K))
    (s : SpeakerService W K) (t : SpeakerService V K) : Prop where
  left : ∀ w ∈ s.workers, w.Answers F
  right : ∀ w ∈ t.workers, w.Answers F
  store : s.store = t.store
  batcher : s.batcher = t.batcher
  vad : s.vad = t.vad
  counters : s.counters = t.counters
  backlogSeconds : s.backlogSeconds = t.backlogSeconds

section Lookup
variable {results results' : List (EmbeddingResult K)}

omit [SampleOps K] in
/-- The lookup by chunk id depends on the ids and the features only. -/
theorem features_byChunk (h : results.map (fun result => (result.chunkId,result.features)) =
    results'.map (fun result => (result.chunkId,result.features))) (chunkId : ChunkId) :
    ((byChunk results).get? chunkId).map EmbeddingResult.features =
      ((byChunk results').get? chunkId).map EmbeddingResult.features := by
  unfold byChunk
  have hfold : ∀ d d' : Dict ChunkId (EmbeddingResult K),
      (∀ id, (d.get? id).map EmbeddingResult.features = (d'.get? id).map EmbeddingResult.features) →
      ((results.foldl (fun d result => d.set result.chunkId result) d).get? chunkId).map
          EmbeddingResult.features =
        ((results'.foldl (fun d result => d.set result.chunkId result) d').get? chunkId).map
          EmbeddingResult.features := by
    induction results generalizing results' with
    | nil =>
      rw [List.map_nil,eq_comm,List.map_eq_nil_iff] at h
      subst h
      exact fun d d' hd => hd chunkId
    | cons first rest ih =>
      cases results' with
      | nil => cases h
      | cons first' rest' =>
        rw [List.map_cons,List.map_cons,List.cons.injEq,Prod.mk.injEq] at h
        refine fun d d' hd => ih h.2 _ _ (fun id => ?_)
        rw [Dict.get?_set,Dict.get?_set,h.1.1]
        split
        · exact congrArg some h.1.2
        · exact hd id
  exact hfold Dict.empty Dict.empty (fun _ => rfl)

end Lookup

variable {F : List (AudioChunk K) → List (ChunkId × Features K)} {s : SpeakerService W K}
  {t : SpeakerService V K}

theorem seenAlike_onStore {α : Type} (x : EStateM StoreError (SpeakerSessionStore K) α)
    (h : SeenAlike F s t) : Lockstep (SeenAlike F) (onStore x) s (onStore x) t := by
  cases hx : x s.store with
  | ok a store =>
    have hy : x t.store = .ok a store := h.store ▸ hx
    exact .of_ok (focus_ok hx) (focus_ok hy)
      ⟨h.left,h.right,rfl,h.batcher,h.vad,h.counters,h.backlogSeconds⟩
  | error e store =>
    have hy : x t.store = .error e store := h.store ▸ hx
    exact .of_error (focus_error hx) (focus_error hy)
      ⟨h.left,h.right,rfl,h.batcher,h.vad,h.counters,h.backlogSeconds⟩

theorem seenAlike_assignBatch {d d' : Dict ChunkId (EmbeddingResult K)}
    (hd : ∀ id, (d.get? id).map EmbeddingResult.features = (d'.get? id).map EmbeddingResult.features)
    (nowMs : ℤ) (batch : List (QueuedChunk K)) (h : SeenAlike F s t) :
    Lockstep (SeenAlike F) (assignBatch nowMs d batch) s (assignBatch nowMs d' batch) t := by
  induction batch generalizing s t with
  | nil => exact lockstep_pure [] h
  | cons item rest ih =>
    have hitem := hd item.chunk.chunkId
    rw [assignBatch,assignBatch]
    cases hget : d.get? item.chunk.chunkId with
    | none =>
      rw [hget,Option.map_none,eq_comm,Option.map_eq_none_iff] at hitem
      rw [hitem]
      exact .of_error rfl rfl h
    | some result =>
      rw [hget,Option.map_some,eq_comm] at hitem
      obtain ⟨result',hget',hsame⟩ := Option.map_eq_some_iff.mp hitem
      have hembedding : result'.embedding = result.embedding := congrArg Features.embedding hsame
      have hquality : result'.quality = result.quality := congrArg Features.quality hsame
      rw [hget']
      dsimp only
      rw [hembedding,hquality]
      refine (seenAlike_onStore _ h).bind (fun assigned s1 t1 h1 => ?_)
      cases queueDelay nowMs item with
      | none => exact lockstep_throw SpeakerError.overflow h1
      | some delay => exact (ih h1).bind (fun segments s2 t2 h2 => lockstep_pure _ h2)

/-- Whose turn it is makes no difference to the features. -/
theorem seenAlike_processBatch (nowMs : ℤ) (batch : List (QueuedChunk K))
    (h : SeenAlike F s t) :
    Lockstep (SeenAlike F) (processBatch nowMs batch) s (processBatch nowMs batch) t := by
  have hembed : ∀ {U : Type} (u : SpeakerService U K), (∀ w ∈ u.workers, w.Answers F) →
      ∃ results outside, embed (batch.map QueuedChunk.chunk) u =
          .ok results { u with nextWorker := u.nextWorker + 1, outside := outside } ∧
        results.map (fun result => (result.chunkId,result.features)) =
          F (batch.map QueuedChunk.chunk) := by
    intro U u hu
    obtain ⟨results,outside,hrun,hresults⟩ :=
      hu u.worker (List.get_mem _ _) (batch.map QueuedChunk.chunk) u.outside
    refine ⟨results,outside,?_,hresults⟩
    simp only [embed,focus,hrun]
  obtain ⟨results,outside,hs,hresults⟩ := hembed s h.left
  obtain ⟨results',outside',ht,hresults'⟩ := hembed t h.right
  have hsame := hresults.trans hresults'.symm
  have hlength : results.length = results'.length := by
    simpa using congrArg List.length hsame
  have hnext : SeenAlike F { s with nextWorker := s.nextWorker + 1, outside := outside }
      { t with nextWorker := t.nextWorker + 1, outside := outside' } :=
    ⟨h.left,h.right,h.store,h.batcher,h.vad,h.counters,h.backlogSeconds⟩
  by_cases hcount : results.length ≠ batch.length
  · refine .of_error (e := .resultCount) ?_ ?_ hnext
    · simp only [processBatch,bind_ok hs,if_pos hcount]
      rfl
    · simp only [processBatch,bind_ok ht,if_pos (hlength ▸ hcount)]
      rfl
  · refine (seenAlike_assignBatch (features_byChunk hsame) nowMs batch hnext).congr ?_ ?_
    · simp only [processBatch,bind_ok hs,if_neg hcount]
    · simp only [processBatch,bind_ok ht,if_neg (hlength ▸ hcount)]

theorem seenAlike_processBatches (nowMs : ℤ) (batches : List (List (QueuedChunk K)))
    (h : SeenAlike F s t) :
    Lockstep (SeenAlike F) (processBatches nowMs batches) s (processBatches nowMs batches) t := by
  induction batches generalizing s t with
  | nil => exact lockstep_pure [] h
  | cons batch rest ih =>
    refine (seenAlike_processBatch nowMs batch h).bind (fun segments s1 t1 h1 => ?_)
    exact (ih h1).bind (fun more s2 t2 h2 => lockstep_pure _ h2)

theorem seenAlike_submit (chunk : AudioChunk K) (nowMs : ℤ) (h : SeenAlike F s t) :
    Lockstep (SeenAlike F) (submit chunk nowMs) s (submit chunk nowMs) t := by
  have hcounters : ∀ name, (s.inc name).counters = (t.inc name).counters := by
    intro name
    simp only [inc,h.counters]
  by_cases hvad : s.vad.isSpeech chunk.samples = false
  · have hs : submit chunk nowMs s = .ok .silence (s.inc .silenceDropped) := by
      simp only [submit,if_pos hvad]
    have ht : submit chunk nowMs t = .ok .silence (t.inc .silenceDropped) := by
      rw [h.vad] at hvad
      simp only [submit,if_pos hvad]
    exact .of_ok hs ht ⟨h.left,h.right,h.store,h.batcher,h.vad,hcounters _,h.backlogSeconds⟩
  · have hvad' : ¬t.vad.isSpeech chunk.samples = false := h.vad ▸ hvad
    unfold Lockstep outcome after submit
    simp only [if_neg hvad,if_neg hvad',← h.batcher]
    rcases s.batcher.enqueue chunk nowMs with ⟨_ | _ | _,b⟩
    · exact ⟨rfl,h.left,h.right,h.store,rfl,h.vad,h.counters,h.backlogSeconds⟩
    · exact ⟨rfl,h.left,h.right,h.store,rfl,h.vad,hcounters _,h.backlogSeconds⟩
    · exact ⟨rfl,h.left,h.right,h.store,rfl,h.vad,hcounters _,rfl⟩

theorem seenAlike_flush (nowMs : ℤ) (force : Bool) (h : SeenAlike F s t) :
    Lockstep (SeenAlike F) (flush nowMs force) s (flush nowMs force) t := by
  have hpop : Lockstep (SeenAlike F) (popReady nowMs force) s (popReady nowMs force) t := by
    have hs : popReady nowMs force s = .ok (s.batcher.popReady nowMs force).1
        { s with batcher := (s.batcher.popReady nowMs force).2 } := rfl
    have ht : popReady nowMs force t = .ok (s.batcher.popReady nowMs force).1
        { t with batcher := (s.batcher.popReady nowMs force).2 } := by
      simp only [popReady,← h.batcher]
    exact .of_ok hs ht ⟨h.left,h.right,h.store,rfl,h.vad,h.counters,h.backlogSeconds⟩
  refine hpop.bind (fun batches s1 t1 h1 => ?_)
  refine (seenAlike_processBatches nowMs batches h1).bind (fun output s2 t2 h2 => ?_)
  exact .of_ok rfl rfl ⟨h2.left,h2.right,h2.store,h2.batcher,h2.vad,h2.counters,
    congrArg (fun batcher => some batcher.backlogSeconds) h2.batcher⟩

theorem seenAlike_exec (call : SpeakerCall K) (h : SeenAlike F s t) :
    Lockstep (SeenAlike F) (exec call) s (exec call) t := by
  cases call with
  | submit chunk nowMs =>
    exact (seenAlike_submit chunk nowMs h).bind (fun status s1 t1 h1 => lockstep_pure _ h1)
  | flush nowMs force =>
    exact (seenAlike_flush nowMs force h).bind (fun segments s1 t1 h1 => lockstep_pure _ h1)

/-- Scaling the service leaves what it has in common with the other. -/
theorem seenAlike_replaceWorkers {workers : List (EmbeddingWorker W K)}
    (hworkers : ∀ w ∈ workers, w.Answers F) (h : SeenAlike F s t) :
    SeenAlike F (after (execFleet (.replaceWorkers workers)) s) t := by
  by_cases hnone : workers = []
  · have hrun : execFleet (.replaceWorkers workers) s = .error .noWorkers s :=
      bind_error (by simp only [replaceWorkers,dif_pos hnone])
    rw [after_error hrun]
    exact h
  · have hreplace : replaceWorkers workers s = .ok ()
        { s with workers := workers, workers_present := hnone, nextWorker := 0 } := by
      simp only [replaceWorkers,dif_neg hnone]
    have hrun : execFleet (.replaceWorkers workers) s = .ok none _ := bind_ok hreplace
    rw [after_ok hrun]
    exact ⟨hworkers,h.right,h.store,h.batcher,h.vad,h.counters,h.backlogSeconds⟩

theorem after_client (call : SpeakerCall K) (s : SpeakerService W K) :
    after (execFleet (.client call)) s = after (exec call) s := by
  cases hrun : exec call s with
  | ok reply next =>
    have hreply : (exec call >>= fun reply => pure (some reply)) (id s) = .ok (some reply) next :=
      bind_ok hrun
    have hfleet : execFleet (.client call) s = .ok (some reply) next := by
      simp only [execFleet,focus,hreply]
    rw [after_ok hrun,after_ok hfleet]
  | error e next =>
    have hreply : (exec call >>= fun reply => pure (some reply)) (id s) = .error e next :=
      bind_error hrun
    have hfleet : execFleet (.client call) s = .error (.speaker e) next := by
      simp only [execFleet,focus,hreply]
    rw [after_error hrun,after_error hfleet]

end SpeakerService
open SpeakerService

/-- Whatever fleets take turns at the calls of the clients, the clients are told the same as by
a service that keeps its own fleet, and both are left with the same queue and speakers. -/
theorem fleet_changes_unseen (F : List (AudioChunk K) → List (ChunkId × Features K))
    (s : SpeakerService W K) (t : SpeakerService V K) (h : SeenAlike F s t)
    (calls : List (FleetCall W K))
    (hcalls : ∀ workers, .replaceWorkers workers ∈ calls → ∀ w ∈ workers, w.Answers F) :
    clientReplies calls s = replies exec (clientCalls calls) t ∧
    SeenAlike F (runAll execFleet calls s) (runAll exec (clientCalls calls) t) := by
  induction calls generalizing s t with
  | nil => exact ⟨rfl,h⟩
  | cons call rest ih =>
    have hrest : ∀ workers, .replaceWorkers workers ∈ rest → ∀ w ∈ workers, w.Answers F :=
      fun workers hin => hcalls workers (List.mem_cons_of_mem _ hin)
    cases call with
    | client call =>
      obtain ⟨hsame,hnext⟩ := seenAlike_exec call h
      obtain ⟨hreplies,hend⟩ := ih _ _ hnext hrest
      rw [clientCalls,clientReplies,replies,runAll_cons,runAll_cons,after_client,hsame,hreplies]
      exact ⟨rfl,hend⟩
    | replaceWorkers workers =>
      exact ih _ _ (seenAlike_replaceWorkers (hcalls workers List.mem_cons_self) h) hrest

/-- A worker that counts its batches. -/
def countingWorker : EmbeddingWorker ℕ ℚ where
  embedBatch chunks := do
    modify (· + 1)
    return chunks.map (fun chunk =>
      ⟨chunk.chunkId,(signFeatures chunk).embedding,(signFeatures chunk).quality,0⟩)

theorem countingWorker_computes : countingWorker.Computes signFeatures := by
  refine fun chunks w => ⟨_,w + 1,rfl,?_⟩
  rw [List.map_map]
  rfl

/-- The worker is replaced between two chunks of one voice. -/
theorem fleet_changes_unseen_replacement :
    let first := signal "a" "c" 1 (by decide) (by decide)
    let second := signal "a" "d" 1 (by decide) (by decide)
    let calls : List (FleetCall ℕ ℚ) := [.client (.submit first 0),.client (.flush 25 false),
      .replaceWorkers [countingWorker,countingWorker],.client (.submit second 30),
      .client (.flush 60 false)]
    let s : SpeakerService ℕ ℚ := .init [countingWorker] (by simp) signService.store
      signService.batcher signService.vad 0
    clientReplies calls s = replies exec (clientCalls calls) signService := by
  intro first second calls s
  have hcounting : countingWorker.Answers _ := countingWorker_computes.answers
  have hsame : SeenAlike (fun chunks => chunks.map (fun chunk => (chunk.chunkId,signFeatures chunk)))
      s signService := by
    refine ⟨fun w hw => ?_,fun w hw => (signService_computes w hw).answers,rfl,rfl,rfl,rfl,rfl⟩
    rw [List.mem_singleton.mp hw]
    exact hcounting
  refine (fleet_changes_unseen _ s signService hsame calls (fun workers hin w hw => ?_)).1
  have hworkers : workers = [countingWorker,countingWorker] := by
    simpa [calls] using hin
  rw [hworkers] at hw
  have hw : w = countingWorker := by simpa using hw
  exact hw ▸ hcounting

end CueBee.Speaker
