import Mathlib.Algebra.Order.Ring.Rat
import CueBee.Speaker.SpeakerService

/-! # Every chunk is assigned by its own embedding

The service looks results up by chunk id, and chunk ids are only given per session. `Tenants`
is the service as its clients see it, with every chunk assigned by the features of its own;
the two make the same runs as long as no batch holds two chunks of one id with different
features.
-/
namespace CueBee.Speaker
open Cache Raising PyStr

variable {W K : Type}

theorem get?_byChunk (results : List (EmbeddingResult K)) (d : Dict ChunkId (EmbeddingResult K))
    (chunkId : ChunkId) :
    (∃ r ∈ results, r.chunkId = chunkId ∧
      (results.foldl (fun d result => d.set result.chunkId result) d).get? chunkId = some r) ∨
    ((∀ r ∈ results, r.chunkId ≠ chunkId) ∧
      (results.foldl (fun d result => d.set result.chunkId result) d).get? chunkId =
        d.get? chunkId) := by
  induction results generalizing d with
  | nil => exact Or.inr ⟨by simp,rfl⟩
  | cons first rest ih =>
    rcases ih (d.set first.chunkId first) with ⟨r,hr,hid,hget⟩ | ⟨hne,hget⟩
    · exact Or.inl ⟨r,List.mem_cons_of_mem _ hr,hid,hget⟩
    · by_cases hfirst : first.chunkId = chunkId
      · refine Or.inl ⟨first,List.mem_cons_self,hfirst,hget.trans ?_⟩
        rw [hfirst,Dict.get?_set_self]
      · refine Or.inr ⟨fun r hr => ?_,hget.trans ?_⟩
        · rcases List.mem_cons.mp hr with rfl | hr
          · exact hfirst
          · exact hne r hr
        · rw [Dict.get?_set_ne _ _ (Ne.symm hfirst)]

/-- The lookup by chunk id gives each item of the batch its own features. -/
def OwnFeatures (f : AudioChunk K → Features K) (results : Dict ChunkId (EmbeddingResult K))
    (batch : List (QueuedChunk K)) : Prop :=
  ∀ item ∈ batch, ∃ r, results.get? item.chunk.chunkId = some r ∧ r.features = f item.chunk

/-- Chunks of one id in the batch have the same features. -/
def Distinguished (f : AudioChunk K → Features K) (batch : List (QueuedChunk K)) : Prop :=
  ∀ a ∈ batch, ∀ b ∈ batch, a.chunk.chunkId = b.chunk.chunkId → f a.chunk = f b.chunk

/-- The lookup is right exactly when chunks of one id have the same features. -/
theorem ownFeatures_iff {f : AudioChunk K → Features K} {results : List (EmbeddingResult K)}
    {batch : List (QueuedChunk K)}
    (h : results.map (fun result => (result.chunkId,result.features)) =
      (batch.map QueuedChunk.chunk).map (fun chunk => (chunk.chunkId,f chunk))) :
    OwnFeatures f (byChunk results) batch ↔ Distinguished f batch := by
  rw [List.map_map] at h
  constructor
  · intro hown a ha b hb hid
    obtain ⟨r,hr,hfa⟩ := hown a ha
    obtain ⟨q,hq,hfb⟩ := hown b hb
    rw [hid,hq,Option.some.injEq] at hr
    rw [← hfa,← hfb,hr]
  · intro hdist item hitem
    rcases get?_byChunk results Dict.empty item.chunk.chunkId with ⟨r,hr,hid,hget⟩ | ⟨hne,-⟩
    · refine ⟨r,hget,?_⟩
      -- the result found was computed for some item of the same id
      have hmem : (r.chunkId,r.features) ∈ results.map (fun q => (q.chunkId,q.features)) :=
        List.mem_map.mpr ⟨r,hr,rfl⟩
      rw [h] at hmem
      obtain ⟨other,hother,hsame⟩ := List.mem_map.mp hmem
      obtain ⟨hotherId,hotherFeatures⟩ := Prod.mk.injEq _ _ _ _ ▸ hsame
      rw [← hotherFeatures]
      exact hdist other hother item hitem (hotherId.trans hid)
    · have hmem : (item.chunk.chunkId,f item.chunk) ∈
          results.map (fun q => (q.chunkId,q.features)) := by
        rw [h]
        exact List.mem_map.mpr ⟨item,hitem,rfl⟩
      obtain ⟨q,hq,hsame⟩ := List.mem_map.mp hmem
      exact absurd (congrArg Prod.fst hsame) (hne q hq)

variable [SampleOps K]

structure Tenants (K : Type) [SampleOps K] where
  vad : EnergyVAD K
  batcher : SpeakerMicroBatcher K
  store : SpeakerSessionStore K

namespace Tenants

def submit (chunk : AudioChunk K) (nowMs : ℤ) : EStateM SpeakerError (Tenants K) SubmitStatus :=
  fun t =>
    if t.vad.isSpeech chunk.samples = false then .ok .silence t
    else
      match t.batcher.enqueue chunk nowMs with
      | (none,batcher) => .error .overflow { t with batcher := batcher }
      | (some false,batcher) => .ok .backpressure { t with batcher := batcher }
      | (some true,batcher) => .ok .accepted { t with batcher := batcher }

def onStore {α : Type} (x : EStateM StoreError (SpeakerSessionStore K) α) :
    EStateM SpeakerError (Tenants K) α :=
  focus Tenants.store (fun store t => { t with store := store }) .store x

/-- Each chunk is assigned to its session by its own features. -/
def assignEach (f : AudioChunk K → Features K) (nowMs : ℤ) :
    List (QueuedChunk K) → EStateM SpeakerError (Tenants K) (List (SpeakerSegment K))
  | [] => return []
  | item :: rest => do
    let assigned ← onStore (SpeakerSessionStore.assign item.chunk.sessionId
      (f item.chunk).embedding (f item.chunk).quality)
    match SpeakerService.queueDelay nowMs item with
    | none => throw .overflow
    | some _ => do
      let segments ← assignEach f nowMs rest
      return segmentOf item.chunk assigned (f item.chunk).quality :: segments

def assignBatches (f : AudioChunk K → Features K) (nowMs : ℤ) :
    List (List (QueuedChunk K)) → EStateM SpeakerError (Tenants K) (List (SpeakerSegment K))
  | [] => return []
  | batch :: rest => do
    let segments ← assignEach f nowMs batch
    let more ← assignBatches f nowMs rest
    return segments ++ more

def popReady (nowMs : ℤ) (force : Bool) :
    EStateM SpeakerError (Tenants K) (List (List (QueuedChunk K))) := fun t =>
  .ok (t.batcher.popReady nowMs force).1
    { t with batcher := (t.batcher.popReady nowMs force).2 }

def flush (f : AudioChunk K → Features K) (nowMs : ℤ) (force : Bool) :
    EStateM SpeakerError (Tenants K) (List (SpeakerSegment K)) := do
  let batches ← popReady nowMs force
  assignBatches f nowMs batches

def exec (f : AudioChunk K → Features K) :
    SpeakerCall K → EStateM SpeakerError (Tenants K) (SpeakerReply K)
  | .submit chunk nowMs => do
    let status ← submit chunk nowMs
    return .submitted status
  | .flush nowMs force => do
    let segments ← flush f nowMs force
    return .flushed segments

end Tenants

namespace SpeakerService
open Tenants (assignEach assignBatches)
variable {f : AudioChunk K → Features K} {s : SpeakerService W K} {t : Tenants K}

def tenants (s : SpeakerService W K) : Tenants K := ⟨s.vad,s.batcher,s.store⟩

/-- All workers compute `f`, and the clients see `t`. -/
structure Serves (f : AudioChunk K → Features K) (s : SpeakerService W K) (t : Tenants K) : Prop where
  workers : ∀ w ∈ s.workers, w.Computes f
  tenants : s.tenants = t

/-- The condition on `flush`: every batch that is due is distinguished by the chunk ids. -/
def AllDistinguished (f : AudioChunk K → Features K) : SpeakerCall K → SpeakerService W K → Prop
  | .flush nowMs force, s => ∀ batch ∈ (s.batcher.popReady nowMs force).1, Distinguished f batch
  | .submit _ _, _ => True

theorem lockstep_onStore {α : Type} (x : EStateM StoreError (SpeakerSessionStore K) α)
    (h : Serves f s t) : Lockstep (Serves f) (onStore x) s (Tenants.onStore x) t := by
  obtain ⟨hworkers,rfl⟩ := h
  cases hx : x s.store with
  | ok a store =>
    exact .of_ok (focus_ok hx) (focus_ok (r := s.tenants) hx) ⟨hworkers,rfl⟩
  | error e store =>
    exact .of_error (focus_error hx) (focus_error (r := s.tenants) hx) ⟨hworkers,rfl⟩

theorem lockstep_assignBatch (nowMs : ℤ) {results : Dict ChunkId (EmbeddingResult K)}
    {batch : List (QueuedChunk K)} (hown : OwnFeatures f results batch) (h : Serves f s t) :
    Lockstep (Serves f) (assignBatch nowMs results batch) s (assignEach f nowMs batch) t := by
  induction batch generalizing s t with
  | nil => exact lockstep_pure [] h
  | cons item rest ih =>
    obtain ⟨result,hget,hfeatures⟩ := hown item List.mem_cons_self
    have hrest : OwnFeatures f results rest := fun i hi => hown i (List.mem_cons_of_mem _ hi)
    simp only [assignBatch,hget,assignEach,← hfeatures]
    refine (lockstep_onStore _ h).bind (fun assigned s1 t1 h1 => ?_)
    cases queueDelay nowMs item with
    | none => exact lockstep_throw SpeakerError.overflow h1
    | some delay => exact (ih hrest h1).bind (fun segments s2 t2 h2 => lockstep_pure _ h2)

/-- A batch is embedded by one of the workers, and no client sees it. -/
theorem embed_ok (h : Serves f s t) (chunks : List (AudioChunk K)) :
    ∃ results next, embed chunks s = .ok results next ∧ Serves f next t ∧
      results.map (fun result => (result.chunkId,result.features)) =
        chunks.map (fun chunk => (chunk.chunkId,f chunk)) := by
  have hmem : s.worker ∈ s.workers := List.get_mem _ _
  obtain ⟨results,w,hrun,hresults⟩ := h.workers _ hmem chunks s.outside
  have hembed : embed chunks s = .ok results
      { s with nextWorker := s.nextWorker + 1, outside := w } := by
    simp only [embed,focus,hrun]
  exact ⟨results,_,hembed,⟨h.workers,h.tenants⟩,hresults⟩

theorem lockstep_processBatch (nowMs : ℤ) {batch : List (QueuedChunk K)} (hdist : Distinguished f batch)
    (h : Serves f s t) :
    Lockstep (Serves f) (processBatch nowMs batch) s (assignEach f nowMs batch) t := by
  obtain ⟨results,next,hembed,hnext,hresults⟩ := embed_ok h (batch.map QueuedChunk.chunk)
  have hlen : ¬results.length ≠ batch.length := by
    have hlength := congrArg List.length hresults
    simpa using hlength
  have hrun : processBatch nowMs batch s = assignBatch nowMs (byChunk results) batch next := by
    simp only [processBatch,bind_ok hembed,if_neg hlen]
  exact (lockstep_assignBatch nowMs ((ownFeatures_iff hresults).mpr hdist) hnext).congr hrun rfl

theorem lockstep_processBatches (nowMs : ℤ) {batches : List (List (QueuedChunk K))}
    (hdist : ∀ batch ∈ batches, Distinguished f batch) (h : Serves f s t) :
    Lockstep (Serves f) (processBatches nowMs batches) s (assignBatches f nowMs batches) t := by
  induction batches generalizing s t with
  | nil => exact lockstep_pure [] h
  | cons batch rest ih =>
    refine (lockstep_processBatch nowMs (hdist batch List.mem_cons_self) h).bind
      (fun segments s1 t1 h1 => ?_)
    exact (ih (fun b hb => hdist b (List.mem_cons_of_mem _ hb)) h1).bind
      (fun more s2 t2 h2 => lockstep_pure _ h2)

theorem lockstep_submit (chunk : AudioChunk K) (nowMs : ℤ) (h : Serves f s t) :
    Lockstep (Serves f) (submit chunk nowMs) s (Tenants.submit chunk nowMs) t := by
  obtain ⟨hworkers,rfl⟩ := h
  unfold Lockstep outcome after submit Tenants.submit
  by_cases hvad : s.vad.isSpeech chunk.samples = false
  · have hvad' : s.tenants.vad.isSpeech chunk.samples = false := hvad
    simp only [if_pos hvad,if_pos hvad']
    exact ⟨trivial,hworkers,rfl⟩
  · have hvad' : ¬s.tenants.vad.isSpeech chunk.samples = false := hvad
    simp only [if_neg hvad,if_neg hvad']
    have hbatcher : s.tenants.batcher = s.batcher := rfl
    rw [hbatcher]
    rcases s.batcher.enqueue chunk nowMs with ⟨_ | _ | _,b⟩
    · exact ⟨rfl,hworkers,rfl⟩
    · exact ⟨rfl,hworkers,rfl⟩
    · exact ⟨rfl,hworkers,rfl⟩

theorem lockstep_flush {nowMs : ℤ} {force : Bool}
    (hdist : ∀ batch ∈ (s.batcher.popReady nowMs force).1, Distinguished f batch)
    (h : Serves f s t) :
    Lockstep (Serves f) (flush nowMs force) s (Tenants.flush f nowMs force) t := by
  obtain ⟨hworkers,rfl⟩ := h
  generalize hpop : s.batcher.popReady nowMs force = popped at hdist
  have hs : popReady nowMs force s = .ok popped.1 { s with batcher := popped.2 } := by
    simp only [popReady,hpop]
  have ht : Tenants.popReady nowMs force s.tenants =
      .ok popped.1 { s.tenants with batcher := popped.2 } := by
    simp only [Tenants.popReady,tenants,hpop]
  have hnext : Serves f { s with batcher := popped.2 } { s.tenants with batcher := popped.2 } :=
    ⟨hworkers,rfl⟩
  have hrest := (lockstep_processBatches nowMs hdist hnext).modify_left
    (f := fun s => { s with backlogSeconds := some s.batcher.backlogSeconds })
    (fun s t h => ⟨h.workers,h.tenants⟩)
  exact hrest.congr (bind_ok hs) (bind_ok ht)

theorem lockstep_exec (call : SpeakerCall K) (s : SpeakerService W K) (t : Tenants K)
    (h : Serves f s t) (hdist : AllDistinguished f call s) :
    Lockstep (Serves f) (exec call) s (Tenants.exec f call) t := by
  cases call with
  | submit chunk nowMs =>
    exact (lockstep_submit chunk nowMs h).bind (fun status s1 t1 h1 => lockstep_pure _ h1)
  | flush nowMs force =>
    exact (lockstep_flush hdist h).bind (fun segments s1 t1 h1 => lockstep_pure _ h1)

end SpeakerService
open SpeakerService

/-- If chunk ids tell the chunks of every batch apart, every segment and every profile comes
from the features of the chunk it belongs to. -/
theorem assigned_by_own_features (f : AudioChunk K → Features K) (s : SpeakerService W K)
    (hworkers : ∀ w ∈ s.workers, w.Computes f) (calls : List (SpeakerCall K))
    (hdist : RunMeets exec (AllDistinguished f) calls s) :
    replies exec calls s = replies (Tenants.exec f) calls s.tenants ∧
    (runAll exec calls s).store = (runAll (Tenants.exec f) calls s.tenants).store := by
  obtain ⟨hreplies,hserves⟩ := hdist.lockstep lockstep_exec ⟨hworkers,rfl⟩
  exact ⟨hreplies,congrArg Tenants.store hserves.tenants⟩

/-- Exact fractions; the root is exact on squares. -/
instance : SampleOps ℚ where
  sum := List.sum
  sqrt q := (Nat.sqrt q.num.toNat : ℚ) / Nat.sqrt q.den
  abs q := |q|

/-- Two directions, told apart by the sign of the first sample. -/
def signFeatures (chunk : AudioChunk ℚ) : Features ℚ :=
  ⟨if 0 < chunk.samples.headD 0 then [1,0] else [0,1],1⟩

def signWorker : EmbeddingWorker Unit ℚ where
  embedBatch chunks := pure (chunks.map (fun chunk =>
    ⟨chunk.chunkId,(signFeatures chunk).embedding,(signFeatures chunk).quality,0⟩))

theorem signWorker_computes : signWorker.Computes signFeatures := by
  refine fun chunks w => ⟨_,w,rfl,?_⟩
  rw [List.map_map]
  rfl

def signService : SpeakerService Unit ℚ :=
  .init [signWorker] (by simp) (.init (4 / 5) (by decide +kernel))
    (.init 4 20 5 8 (by decide) (by decide) (by decide))
    ⟨1 / 100,1 / 20,by decide +kernel,by decide +kernel⟩ ()

theorem signService_computes : ∀ w ∈ signService.workers, w.Computes signFeatures := by
  intro w hw
  rw [List.mem_singleton.mp hw]
  exact signWorker_computes

/-- Half a second of a constant signal. -/
def signal (session chunk : String) (level : ℚ) (hsession : lit session ≠ [])
    (hchunk : lit chunk ≠ []) : AudioChunk ℚ :=
  .halfSecond session chunk none level hsession hchunk

/-- The centroids of a session. -/
def centroids (sessionId : SessionId) (store : SpeakerSessionStore ℚ) : List (List ℚ) :=
  (store.session sessionId).profiles.values.map SpeakerProfile.centroid

/-- Two sessions in one batch, each with a chunk id of its own. -/
theorem assigned_by_own_features_two_sessions :
    let calls : List (SpeakerCall ℚ) := [
      .submit (signal "a" "c" 1 (by decide) (by decide)) 0,
      .submit (signal "b" "d" (-1) (by decide) (by decide)) 0,.flush 25 false]
    (replies exec calls signService = replies (Tenants.exec signFeatures) calls signService.tenants ∧
      (runAll exec calls signService).store =
        (runAll (Tenants.exec signFeatures) calls signService.tenants).store) ∧
    centroids (lit "a") (runAll exec calls signService).store = [[1,0]] ∧
    centroids (lit "b") (runAll exec calls signService).store = [[0,1]] := by
  intro calls
  have hdist : RunMeets exec (AllDistinguished signFeatures) calls signService := by
    refine ⟨trivial,trivial,?_,trivial⟩
    unfold AllDistinguished Distinguished
    decide +kernel
  refine ⟨?_,by decide +kernel,by decide +kernel⟩
  exact assigned_by_own_features signFeatures signService signService_computes calls hdist

/-- Two sessions in one batch use the same chunk id: the profile of session "a" is made from
the chunk of session "b". -/
theorem shared_chunk_id_leaks :
    let calls : List (SpeakerCall ℚ) := [
      .submit (signal "a" "c" 1 (by decide) (by decide)) 0,
      .submit (signal "b" "c" (-1) (by decide) (by decide)) 0,.flush 25 false]
    (∀ w ∈ signService.workers, w.Computes signFeatures) ∧
    centroids (lit "a") (runAll exec calls signService).store = [[0,1]] ∧
    centroids (lit "a") (runAll (Tenants.exec signFeatures) calls signService.tenants).store =
      [[1,0]] ∧
    (runAll exec calls signService).store ≠
      (runAll (Tenants.exec signFeatures) calls signService.tenants).store := by
  intro calls
  have hcode : centroids (lit "a") (runAll exec calls signService).store = [[0,1]] := by
    decide +kernel
  have hown : centroids (lit "a") (runAll (Tenants.exec signFeatures) calls
      signService.tenants).store = [[1,0]] := by
    decide +kernel
  refine ⟨signService_computes,hcode,hown,fun h => ?_⟩
  rw [h,hown] at hcode
  exact absurd hcode (by decide +kernel)

end CueBee.Speaker
