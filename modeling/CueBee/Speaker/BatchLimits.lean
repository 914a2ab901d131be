import CueBee.Speaker.BatchConservation

/-! # Limits of the batcher over whole runs

A `BatcherHistory` is a batcher together with the chunks it has taken and the batches it has
returned. The inner loop of `pop_ready` is the relation `Rounds`, which has no fuel.
-/
namespace CueBee.Speaker
open Cache PyStr

namespace SpeakerMicroBatcher
variable {K : Type}

/-- `while ready and queue`, entered with `ready` set: the loop ends with these batches and
this queue. -/
inductive Rounds (limit : ℕ) (force : Bool) :
    List (QueuedChunk K) → List (List (QueuedChunk K)) → List (QueuedChunk K) → Prop
  | empty : Rounds limit force [] [] []
  | last {queue : List (QueuedChunk K)} (hne : queue ≠ [])
      (hstop : ¬(force = true ∨ limit ≤ (unselected limit queue).length)) :
      Rounds limit force queue [fairSelect (candidates queue) limit] (unselected limit queue)
  | again {queue left : List (QueuedChunk K)} {batches : List (List (QueuedChunk K))}
      (hne : queue ≠ []) (hready : force = true ∨ limit ≤ (unselected limit queue).length)
      (hrest : Rounds limit force (unselected limit queue) batches left) :
      Rounds limit force queue (fairSelect (candidates queue) limit :: batches) left

/-- The loop terminates, with the result of `dispatch`. -/
theorem rounds_dispatch {limit : ℕ} (hlimit : 0 < limit) (force : Bool) {fuel : ℕ}
    {queue : List (QueuedChunk K)} (hfuel : queue.length ≤ fuel) :
    Rounds limit force queue (dispatch limit force fuel queue).1
      (dispatch limit force fuel queue).2 := by
  induction fuel generalizing queue with
  | zero =>
    obtain rfl := List.length_eq_zero_iff.mp (Nat.le_zero.mp hfuel)
    exact .empty
  | succ fuel ih =>
    by_cases hne : queue = []
    · subst hne
      exact .empty
    · have hshorter := length_unselected_lt hlimit hne
      simp only [dispatch,if_neg hne]
      split
      · next hready => exact .again hne hready (ih (Nat.le_of_lt_succ (hshorter.trans_le hfuel)))
      · next hstop => exact .last hne hstop

theorem Rounds.forced {limit : ℕ} {force : Bool} {queue left : List (QueuedChunk K)}
    {batches : List (List (QueuedChunk K))} (h : Rounds limit force queue batches left)
    (hforce : force = true) : left = [] := by
  induction h with
  | empty => rfl
  | last hne hstop => exact absurd (.inl hforce) hstop
  | again hne hready hrest ih => exact ih

theorem length_takeTurns_le (room : ℕ) (sessions : List (QueuedChunk K × List (QueuedChunk K))) :
    (takeTurns room sessions).length ≤ room := by
  induction room, sessions using takeTurns.induct with
  | case1 sessions => exact Nat.le_refl 0
  | case2 room => cases room <;> exact Nat.zero_le _
  | case3 room item sessions ih => exact Nat.succ_le_succ ih
  | case4 room item next rest sessions ih => exact Nat.succ_le_succ ih

theorem Rounds.length_le {limit : ℕ} {force : Bool} {queue left : List (QueuedChunk K)}
    {batches : List (List (QueuedChunk K))} (h : Rounds limit force queue batches left) :
    ∀ batch ∈ batches, batch.length ≤ limit := by
  induction h with
  | empty =>
    intro batch hbatch
    cases hbatch
  | last hne hstop =>
    intro batch hbatch
    rw [List.mem_singleton.mp hbatch]
    exact length_takeTurns_le _ _
  | again hne hready hrest ih =>
    intro batch hbatch
    rcases List.mem_cons.mp hbatch with rfl | hbatch
    · exact length_takeTurns_le _ _
    · exact ih batch hbatch

def countOf (sessionId : SessionId) (items : List (QueuedChunk K)) : ℕ :=
  items.countP (fun item => item.chunk.sessionId = sessionId)

theorem countOf_append (s : SessionId) (items more : List (QueuedChunk K)) :
    countOf s (items ++ more) = countOf s items + countOf s more := List.countP_append

theorem countOf_cons (s : SessionId) (item : QueuedChunk K) (items : List (QueuedChunk K)) :
    countOf s (item :: items) = countOf s items + if item.chunk.sessionId = s then 1 else 0 := by
  simp [countOf,List.countP_cons]

theorem countOf_perm (s : SessionId) {items more : List (QueuedChunk K)} (h : items.Perm more) :
    countOf s items = countOf s more := h.countP_eq _

theorem get_settle (s : SessionId) (batch : List (QueuedChunk K)) (pending : Dict SessionId ℤ) :
    ((settle batch pending).get? s).getD 0 = (pending.get? s).getD 0 - countOf s batch := by
  induction batch generalizing pending with
  | nil => simp [settle,countOf]
  | cons item batch ih =>
    have hrest := ih (pending.set item.chunk.sessionId
      ((pending.get? item.chunk.sessionId).getD 0 - 1))
    rw [countOf_cons]
    refine hrest.trans ?_
    rw [Dict.get?_set]
    by_cases hs : s = item.chunk.sessionId
    · rw [if_pos hs,if_pos hs.symm,Option.getD_some,hs]
      omega
    · rw [if_neg hs,if_neg (Ne.symm hs)]
      omega

structure SameLimits (b b' : SpeakerMicroBatcher K) : Prop where
  maxBatchSize : b'.maxBatchSize = b.maxBatchSize
  maxWaitMs : b'.maxWaitMs = b.maxWaitMs
  dispatchSlackMs : b'.dispatchSlackMs = b.dispatchSlackMs
  perSessionPending : b'.perSessionPending = b.perSessionPending

theorem SameLimits.refl (b : SpeakerMicroBatcher K) : SameLimits b b := ⟨rfl,rfl,rfl,rfl⟩

theorem SameLimits.trans {a b d : SpeakerMicroBatcher K} (h : SameLimits a b)
    (h' : SameLimits b d) : SameLimits a d :=
  ⟨h'.1.trans h.1,h'.2.trans h.2,h'.3.trans h.3,h'.4.trans h.4⟩

/-- What popping the given buckets returns and leaves, apart from conservation. -/
structure PopsWithin (force : Bool) (buckets : List Bucket) (b : SpeakerMicroBatcher K)
    (batches : List (List (QueuedChunk K))) (b' : SpeakerMicroBatcher K) : Prop where
  limits : SameLimits b b'
  pending : ∀ s, b'.pending s = b.pending s - countOf s batches.flatten
  sizes : ∀ batch ∈ batches, batch.length ≤ b.maxBatchSize
  oneBucket : ∀ batch ∈ batches, ∃ bucket ∈ buckets, ∀ item ∈ batch, item ∈ b.queue bucket
  kept : ∀ bucket, ∀ item ∈ b'.queue bucket, item ∈ b.queue bucket
  emptied : force = true → ∀ bucket ∈ buckets, b'.queue bucket = []

theorem popBucket_within (nowMs : ℤ) (force : Bool) (bucket : Bucket) (b : SpeakerMicroBatcher K)
    (hserials : ((b.queue bucket).map QueuedChunk.serial).Nodup) :
    PopsWithin force [bucket] b (popBucket nowMs force bucket b).1
      (popBucket nowMs force bucket b).2 := by
  obtain ⟨hperm,-,hothers,-⟩ := popBucket_perm nowMs force bucket b hserials
  have hkept : ∀ other, ∀ item ∈ (popBucket nowMs force bucket b).2.queue other,
      item ∈ b.queue other := by
    intro other item hitem
    by_cases hother : other = bucket
    · subst hother
      exact hperm.mem_iff.mp (List.mem_append_right _ hitem)
    · exact hothers other hother ▸ hitem
  have hmem : ∀ batch ∈ (popBucket nowMs force bucket b).1,
      ∃ other ∈ [bucket], ∀ item ∈ batch, item ∈ b.queue other := by
    intro batch hbatch
    refine ⟨bucket,List.mem_singleton_self bucket,fun item hitem => hperm.mem_iff.mp ?_⟩
    exact List.mem_append_left _ (List.mem_flatten.mpr ⟨batch,hbatch,hitem⟩)
  revert hkept hmem
  unfold popBucket
  split
  · next hqueue =>
    intro hkept hmem
    refine ⟨.refl b,fun s => by simp [countOf],by simp,hmem,hkept,fun _ other hother => ?_⟩
    rw [List.mem_singleton.mp hother,hqueue]
  · next first rest hqueue =>
    have hrounds := rounds_dispatch b.batchSize_pos force (le_refl (first :: rest).length)
    split
    · intro hkept hmem
      refine ⟨⟨rfl,rfl,rfl,rfl⟩,fun s => get_settle s _ _,hrounds.length_le,hmem,hkept,?_⟩
      intro hforce other hother
      rw [List.mem_singleton.mp hother]
      simpa [queue] using hrounds.forced hforce
    · next hready =>
      intro hkept hmem
      refine ⟨.refl b,fun s => by simp [countOf],by simp,hmem,hkept,fun hforce => ?_⟩
      exact absurd (by simp [ready,hforce]) hready

theorem popBuckets_within (nowMs : ℤ) (force : Bool) {buckets : List Bucket}
    (hbuckets : buckets.Nodup) (b : SpeakerMicroBatcher K)
    (hserials : ∀ bucket ∈ buckets, ((b.queue bucket).map QueuedChunk.serial).Nodup) :
    PopsWithin force buckets b (popBuckets nowMs force buckets b).1
      (popBuckets nowMs force buckets b).2 := by
  induction buckets generalizing b with
  | nil => exact ⟨.refl b,fun s => by simp [popBuckets,countOf],by simp [popBuckets],
      by simp [popBuckets],fun _ _ hitem => hitem,by simp⟩
  | cons bucket buckets ih =>
    obtain ⟨hbucket,hbuckets⟩ := List.nodup_cons.mp hbuckets
    have hself := hserials bucket List.mem_cons_self
    obtain ⟨-,-,hothers,-⟩ := popBucket_perm nowMs force bucket b hself
    have hpop := popBucket_within nowMs force bucket b hself
    have hqueues : ∀ other ∈ buckets, (popBucket nowMs force bucket b).2.queue other = b.queue other :=
      fun other hother => hothers other (fun heq => hbucket (heq ▸ hother))
    have hnext : ∀ other ∈ buckets,
        (((popBucket nowMs force bucket b).2.queue other).map QueuedChunk.serial).Nodup := by
      intro other hother
      rw [hqueues other hother]
      exact hserials other (List.mem_cons_of_mem _ hother)
    obtain ⟨-,-,hmoreOthers,-⟩ := popBuckets_perm nowMs force hbuckets _ hnext
    have hmore := ih hbuckets _ hnext
    simp only [popBuckets]
    refine ⟨hpop.limits.trans hmore.limits,?_,?_,?_,?_,?_⟩
    · intro s
      rw [hmore.pending,hpop.pending,List.flatten_append,countOf_append]
      omega
    · intro batch hbatch
      rcases List.mem_append.mp hbatch with hbatch | hbatch
      · exact hpop.sizes batch hbatch
      · exact hpop.limits.maxBatchSize ▸ hmore.sizes batch hbatch
    · intro batch hbatch
      rcases List.mem_append.mp hbatch with hbatch | hbatch
      · obtain ⟨other,hother,hitems⟩ := hpop.oneBucket batch hbatch
        exact ⟨bucket,List.mem_cons_self,List.mem_singleton.mp hother ▸ hitems⟩
      · obtain ⟨other,hother,hitems⟩ := hmore.oneBucket batch hbatch
        exact ⟨other,List.mem_cons_of_mem _ hother,hqueues other hother ▸ hitems⟩
    · intro other item hitem
      exact hpop.kept other item (hmore.kept other item hitem)
    · intro hforce other hother
      rcases List.mem_cons.mp hother with rfl | hother
      · rw [hmoreOthers other hbucket]
        exact hpop.emptied hforce other (List.mem_singleton_self other)
      · exact hmore.emptied hforce other hother

theorem popReady_within (nowMs : ℤ) (force : Bool) {b : SpeakerMicroBatcher K}
    (hserials : (b.queued.map QueuedChunk.serial).Nodup) :
    PopsWithin force Bucket.sorted b (b.popReady nowMs force).1 (b.popReady nowMs force).2 :=
  popBuckets_within nowMs force (by decide) b (fun bucket hbucket =>
    ((List.sublist_flatten_of_mem (List.mem_map_of_mem hbucket)).map QueuedChunk.serial).nodup
      hserials)

section Enqueue
variable [FloatOps K]

theorem enqueue_limits (chunk : AudioChunk K) (nowMs : ℤ) (b : SpeakerMicroBatcher K) :
    SameLimits b (b.enqueue chunk nowMs).2 := by
  unfold enqueue
  split
  · exact ⟨rfl,rfl,rfl,rfl⟩
  · split <;> exact ⟨rfl,rfl,rfl,rfl⟩

theorem bucketOf_eq_none {chunk : AudioChunk K} :
    bucketOf chunk = none ↔ chunk.durationSeconds = none :=
  Option.map_eq_none_iff

/-- What `enqueue` answers. -/
theorem enqueue_answer (chunk : AudioChunk K) (nowMs : ℤ) (b : SpeakerMicroBatcher K) :
    (b.enqueue chunk nowMs).1 =
      if (b.perSessionPending : ℤ) ≤ b.pending chunk.sessionId then some false
      else chunk.durationSeconds.map (fun _ => true) := by
  unfold enqueue
  split
  · rfl
  · cases hbucket : bucketOf chunk with
    | none =>
      rw [bucketOf_eq_none.mp hbucket]
      rfl
    | some bucket =>
      obtain ⟨seconds,hseconds,-⟩ := Option.map_eq_some_iff.mp hbucket
      rw [hseconds]
      rfl

theorem enqueue_free {chunk : AudioChunk K} {nowMs : ℤ} {b : SpeakerMicroBatcher K}
    (h : (b.enqueue chunk nowMs).1 = some true) : b.pending chunk.sessionId < b.perSessionPending := by
  rw [enqueue_answer] at h
  split at h
  · cases h
  · next hfree => exact not_le.mp hfree

theorem enqueue_pending (chunk : AudioChunk K) (nowMs : ℤ) (b : SpeakerMicroBatcher K)
    (s : SessionId) : (b.enqueue chunk nowMs).2.pending s =
      b.pending s + if (b.enqueue chunk nowMs).1 = some true ∧ chunk.sessionId = s then 1 else 0 := by
  have hdefault : ∀ d : Dict SessionId ℤ, ((d.setDefault chunk.sessionId 0).get? s).getD 0 =
      (d.get? s).getD 0 := by
    intro d
    by_cases hs : s = chunk.sessionId
    · simp [Dict.get?_setDefault,hs]
    · simp [Dict.get?_setDefault,hs]
  unfold enqueue
  split
  · simp [pending,hdefault]
  · split
    · simp [pending,hdefault]
    · by_cases hs : s = chunk.sessionId
      · simp [pending,hs]
      · simp [pending,Dict.get?_set,hs,Ne.symm hs]

/-- Every item waits in the queue of its own length. -/
def Bucketed (b : SpeakerMicroBatcher K) : Prop :=
  ∀ bucket, ∀ item ∈ b.queue bucket, bucketOf item.chunk = some bucket

theorem Bucketed.enqueue {b : SpeakerMicroBatcher K} (h : b.Bucketed) (chunk : AudioChunk K)
    (nowMs : ℤ) : (b.enqueue chunk nowMs).2.Bucketed := by
  unfold SpeakerMicroBatcher.enqueue
  split
  · exact h
  · split
    · exact h
    · next own hown =>
      intro bucket item hitem
      rw [queue,Dict.get?_set] at hitem
      by_cases hbucket : bucket = own
      · rw [if_pos hbucket,Option.getD_some] at hitem
        rcases List.mem_append.mp hitem with hold | hnew
        · exact hbucket ▸ h _ item hold
        · rw [List.mem_singleton.mp hnew,hbucket]
          exact hown
      · rw [if_neg hbucket] at hitem
        exact h bucket item hitem

end Enqueue
end SpeakerMicroBatcher

inductive BatcherCall (K : Type)
  | enqueue (chunk : AudioChunk K) (nowMs : ℤ)
  | popReady (nowMs : ℤ) (force : Bool)

/-- A batcher, the chunks it has taken and the batches it has returned. -/
structure BatcherHistory (K : Type) where
  batcher : SpeakerMicroBatcher K
  accepted : List (AudioChunk K)
  returned : List (List (QueuedChunk K))

namespace BatcherHistory
open SpeakerMicroBatcher
variable {K : Type} [FloatOps K]

def start (b : SpeakerMicroBatcher K) : BatcherHistory K := ⟨b,[],[]⟩

def step (h : BatcherHistory K) : BatcherCall K → BatcherHistory K
  | .enqueue chunk nowMs =>
    let (taken,b) := h.batcher.enqueue chunk nowMs
    { h with
      batcher := b
      accepted := if taken = some true then h.accepted ++ [chunk] else h.accepted }
  | .popReady nowMs force =>
    let (batches,b) := h.batcher.popReady nowMs force
    { h with batcher := b, returned := h.returned ++ batches }

def run (calls : List (BatcherCall K)) (h : BatcherHistory K) : BatcherHistory K :=
  calls.foldl step h

/-- The accepted chunks, numbered in order, are the items of the returned batches and the
items still queued, each exactly once. -/
def Conserved (h : BatcherHistory K) : Prop :=
  ∃ items : List (QueuedChunk K), items.map QueuedChunk.chunk = h.accepted ∧
    items.map QueuedChunk.serial = List.range h.accepted.length ∧
    (h.returned.flatten ++ h.batcher.queued).Perm items

/-- Not empty, not too long, and of one length bucket. -/
structure GoodBatch (limit : ℕ) (batch : List (QueuedChunk K)) : Prop where
  ne_nil : batch ≠ []
  length_le : batch.length ≤ limit
  oneBucket : ∃ bucket, ∀ item ∈ batch, bucketOf item.chunk = some bucket

/-- The counters are the numbers of queued items and within the limit. -/
structure Counted (b : SpeakerMicroBatcher K) : Prop where
  pending : ∀ s, b.pending s = countOf s b.queued
  bounded : ∀ s, countOf s b.queued ≤ b.perSessionPending

structure Regular (b : SpeakerMicroBatcher K) (h : BatcherHistory K) : Prop where
  limits : SameLimits b h.batcher
  conserved : h.Conserved
  numbered : h.batcher.nextSerial = h.accepted.length
  bucketed : h.batcher.Bucketed
  counted : Counted h.batcher
  batches : ∀ batch ∈ h.returned, GoodBatch b.maxBatchSize batch

variable {b : SpeakerMicroBatcher K} {h : BatcherHistory K}

omit [FloatOps K] in
/-- No two of the queued items are the same object. -/
theorem Conserved.serials (hc : h.Conserved) : (h.batcher.queued.map QueuedChunk.serial).Nodup := by
  obtain ⟨items,-,hserials,hperm⟩ := hc
  have hnodup : (items.map QueuedChunk.serial).Nodup := hserials ▸ List.nodup_range
  have hall := (hperm.map QueuedChunk.serial).nodup_iff.mpr hnodup
  rw [List.map_append] at hall
  exact (List.nodup_append.mp hall).2.1

theorem Counted.enqueue {batcher : SpeakerMicroBatcher K} (hc : Counted batcher)
    (chunk : AudioChunk K) (nowMs : ℤ) : Counted (batcher.enqueue chunk nowMs).2 := by
  have hpending := enqueue_pending chunk nowMs batcher
  have hlimit := (enqueue_limits chunk nowMs batcher).perSessionPending
  rcases enqueue_perm chunk nowMs batcher with ⟨htaken,-,item,-,hchunk,hqueued⟩ | ⟨hnot,-,hqueued⟩
  · have hcount : ∀ s, countOf s (batcher.enqueue chunk nowMs).2.queued =
        countOf s batcher.queued + if chunk.sessionId = s then 1 else 0 := by
      intro s
      rw [countOf_perm s hqueued,countOf_cons,hchunk]
    have hfree := enqueue_free htaken
    rw [hc.pending] at hfree
    constructor
    · intro s
      rw [hpending,hcount,hc.pending,htaken]
      split <;> simp_all
    · intro s
      have hold := hc.bounded s
      rw [hcount,hlimit]
      by_cases hs : chunk.sessionId = s
      · rw [if_pos hs,← hs]
        omega
      · rw [if_neg hs]
        exact hold
  · constructor
    · intro s
      rw [hpending,hqueued,hc.pending]
      simp [hnot]
    · intro s
      rw [hqueued,hlimit]
      exact hc.bounded s

/-- An accepted chunk gets the next number. -/
theorem Conserved.enqueue (hc : h.Conserved) (hnumber : h.batcher.nextSerial = h.accepted.length)
    (chunk : AudioChunk K) (nowMs : ℤ) :
    (h.step (.enqueue chunk nowMs)).Conserved ∧ (h.batcher.enqueue chunk nowMs).2.nextSerial =
      (h.step (.enqueue chunk nowMs)).accepted.length := by
  obtain ⟨items,hchunks,hserials,hperm⟩ := hc
  rcases enqueue_perm chunk nowMs h.batcher with ⟨htaken,hserial,item,hitem,hchunk,hqueued⟩ |
    ⟨hnot,hserial,hqueued⟩
  · have haccepted : (h.step (.enqueue chunk nowMs)).accepted = h.accepted ++ [chunk] := by
      simp only [step,htaken,if_pos]
    refine ⟨⟨items ++ [item],?_,?_,?_⟩,?_⟩
    · rw [haccepted,List.map_append,hchunks,List.map_singleton,hchunk]
    · rw [haccepted,List.map_append,hserials,List.length_append,List.length_singleton,
        List.range_succ,List.map_singleton,hitem,hnumber]
    · refine (hqueued.append_left _).trans (List.perm_middle.trans ?_)
      exact (hperm.cons item).trans (List.perm_append_singleton item items).symm
    · rw [haccepted,List.length_append,List.length_singleton,← hnumber]
      exact hserial
  · have haccepted : (h.step (.enqueue chunk nowMs)).accepted = h.accepted := by
      simp only [step,if_neg hnot]
    refine ⟨⟨items,?_,?_,?_⟩,?_⟩
    · rw [haccepted,hchunks]
    · rw [haccepted,hserials]
    · show (h.returned.flatten ++ (h.batcher.enqueue chunk nowMs).2.queued).Perm items
      rw [hqueued]
      exact hperm
    · rw [haccepted,← hnumber]
      exact hserial

theorem Regular.enqueue (hr : Regular b h) (chunk : AudioChunk K) (nowMs : ℤ) :
    Regular b (h.step (.enqueue chunk nowMs)) where
  limits := hr.limits.trans (enqueue_limits chunk nowMs h.batcher)
  conserved := (hr.conserved.enqueue hr.numbered chunk nowMs).1
  numbered := (hr.conserved.enqueue hr.numbered chunk nowMs).2
  bucketed := hr.bucketed.enqueue chunk nowMs
  counted := hr.counted.enqueue chunk nowMs
  batches := hr.batches

theorem Regular.popReady (hr : Regular b h) (nowMs : ℤ) (force : Bool) :
    Regular b (h.step (.popReady nowMs force)) := by
  have hserials := hr.conserved.serials
  obtain ⟨hperm,hne,hserial⟩ := popReady_perm nowMs force hserials
  have hpop := popReady_within nowMs force hserials
  have hcount : ∀ s, countOf s h.batcher.queued = countOf s (h.batcher.popReady nowMs force).1.flatten +
      countOf s (h.batcher.popReady nowMs force).2.queued := by
    intro s
    rw [← countOf_append]
    exact (countOf_perm s hperm).symm
  obtain ⟨items,hchunks,hnumbers,hall⟩ := hr.conserved
  refine ⟨hr.limits.trans hpop.limits,⟨items,hchunks,hnumbers,?_⟩,hserial.trans hr.numbered,?_,
    ⟨?_,?_⟩,?_⟩
  · show ((h.returned ++ (h.batcher.popReady nowMs force).1).flatten ++
      (h.batcher.popReady nowMs force).2.queued).Perm items
    rw [List.flatten_append,List.append_assoc]
    exact (hperm.append_left _).trans hall
  · intro bucket item hitem
    exact hr.bucketed bucket item (hpop.kept bucket item hitem)
  · intro s
    show (h.batcher.popReady nowMs force).2.pending s =
      (countOf s (h.batcher.popReady nowMs force).2.queued : ℤ)
    rw [hpop.pending,hr.counted.pending,hcount]
    omega
  · intro s
    show countOf s (h.batcher.popReady nowMs force).2.queued ≤
      (h.batcher.popReady nowMs force).2.perSessionPending
    have hold := hr.counted.bounded s
    rw [hcount] at hold
    rw [hpop.limits.perSessionPending]
    omega
  · intro batch hbatch
    rcases List.mem_append.mp hbatch with hbatch | hbatch
    · exact hr.batches batch hbatch
    · obtain ⟨bucket,-,hitems⟩ := hpop.oneBucket batch hbatch
      exact ⟨hne batch hbatch,hr.limits.maxBatchSize ▸ hpop.sizes batch hbatch,bucket,
        fun item hitem => hr.bucketed bucket item (hitems item hitem)⟩

theorem Regular.run (hr : Regular b h) (calls : List (BatcherCall K)) : Regular b (h.run calls) := by
  induction calls generalizing h with
  | nil => exact hr
  | cons call calls ih =>
    cases call with
    | enqueue chunk nowMs => exact ih (hr.enqueue chunk nowMs)
    | popReady nowMs force => exact ih (hr.popReady nowMs force)

theorem regular_start (b : SpeakerMicroBatcher K) (hbuckets : b.buckets = Dict.empty)
    (hpending : b.pendingBySession = Dict.empty) (hserial : b.nextSerial = 0) :
    Regular b (start b) := by
  have hqueue : ∀ bucket, b.queue bucket = [] := by
    intro bucket
    rw [queue,hbuckets]
    rfl
  have hqueued : b.queued = [] := List.flatMap_eq_nil_iff.mpr (fun bucket _ => hqueue bucket)
  refine ⟨.refl b,⟨[],rfl,rfl,List.Perm.of_eq hqueued⟩,hserial,?_,⟨?_,?_⟩,by simp [start]⟩
  · intro bucket item hitem
    rw [show (start b).batcher.queue bucket = [] from hqueue bucket] at hitem
    cases hitem
  · intro s
    show b.pending s = (countOf s b.queued : ℤ)
    rw [hqueued,pending,hpending]
    rfl
  · intro s
    show countOf s b.queued ≤ b.perSessionPending
    rw [hqueued]
    exact Nat.zero_le _

/-- `enqueue` answers, and refuses the chunk exactly when the items of its session fill the
share of the queues that a session has. -/
def AnswersByShare (b : SpeakerMicroBatcher K) (chunk : AudioChunk K) (nowMs : ℤ) : Prop :=
  ∃ taken, (b.enqueue chunk nowMs).1 = some taken ∧
    (taken = false ↔ countOf chunk.sessionId b.queued = b.perSessionPending)

theorem Counted.answers_iff {b : SpeakerMicroBatcher K} (hc : Counted b) (chunk : AudioChunk K)
    (nowMs : ℤ) : AnswersByShare b chunk nowMs ↔
      countOf chunk.sessionId b.queued = b.perSessionPending ∨ chunk.durationSeconds ≠ none := by
  have hbounded := hc.bounded chunk.sessionId
  unfold AnswersByShare
  rw [enqueue_answer,hc.pending]
  by_cases hfull : countOf chunk.sessionId b.queued = b.perSessionPending
  · have hle : (b.perSessionPending : ℤ) ≤ countOf chunk.sessionId b.queued := by omega
    exact iff_of_true ⟨false,if_pos hle,iff_of_true rfl hfull⟩ (.inl hfull)
  · have hlt : ¬(b.perSessionPending : ℤ) ≤ countOf chunk.sessionId b.queued := by omega
    rw [if_neg hlt]
    cases chunk.durationSeconds with
    | none => simp [hfull]
    | some seconds => simp [hfull]

omit [FloatOps K] in
theorem queued_popReady_forced (nowMs : ℤ) {b : SpeakerMicroBatcher K}
    (hserials : (b.queued.map QueuedChunk.serial).Nodup) : (b.popReady nowMs true).2.queued = [] :=
  List.flatMap_eq_nil_iff.mpr ((popReady_within nowMs true hserials).emptied rfl)

/-- Conservation and limits of the batcher in every run; only a chunk whose duration is too large
for a float gets no answer. -/
theorem batcher_conserves_within_limits (maxBatchSize : ℕ) (maxWaitMs dispatchSlackMs : ℤ)
    (perSessionPending : ℕ) (hbatch : 0 < maxBatchSize) (hwait : 0 < maxWaitMs)
    (hpending : 0 < perSessionPending) (calls : List (BatcherCall K)) :
    let h := (start (SpeakerMicroBatcher.init maxBatchSize maxWaitMs dispatchSlackMs
      perSessionPending hbatch hwait hpending)).run calls
    h.Conserved ∧ (∀ batch ∈ h.returned, GoodBatch maxBatchSize batch) ∧
    (∀ s, h.batcher.pending s = countOf s h.batcher.queued ∧
      countOf s h.batcher.queued ≤ perSessionPending) ∧
    (∀ force (queue : List (QueuedChunk K)), Rounds h.batcher.maxBatchSize force queue
      (dispatch h.batcher.maxBatchSize force queue.length queue).1
      (dispatch h.batcher.maxBatchSize force queue.length queue).2) ∧
    (∀ nowMs, (h.batcher.popReady nowMs true).2.queued = []) ∧
    ∀ chunk nowMs, AnswersByShare h.batcher chunk nowMs ↔
      countOf chunk.sessionId h.batcher.queued = perSessionPending ∨ chunk.durationSeconds ≠ none := by
  intro h
  have hr : Regular (SpeakerMicroBatcher.init maxBatchSize maxWaitMs dispatchSlackMs
      perSessionPending hbatch hwait hpending) h := (regular_start _ rfl rfl rfl).run calls
  have hshare : h.batcher.perSessionPending = perSessionPending := hr.limits.perSessionPending
  refine ⟨hr.conserved,hr.batches,fun s => ⟨hr.counted.pending s,?_⟩,fun force queue => ?_,
    fun nowMs => queued_popReady_forced nowMs hr.conserved.serials,fun chunk nowMs => ?_⟩
  · exact hshare ▸ hr.counted.bounded s
  · exact rounds_dispatch h.batcher.batchSize_pos force le_rfl
  · exact hshare ▸ hr.counted.answers_iff chunk nowMs

def clip (session chunk : String) (deadlineMs : Option ℤ) (hsession : lit session ≠ [])
    (hchunk : lit chunk ≠ []) : AudioChunk PyFloat :=
  .halfSecond session chunk deadlineMs (.fin 1) hsession hchunk

/-- A chunk whose length in milliseconds is no float: the empty batcher raises. -/
theorem endless_chunk_not_answered :
    ¬AnswersByShare (SpeakerMicroBatcher.init 4 20 5 1 (by decide) (by decide) (by decide))
      { clip "a" "a1" none (by decide) (by decide) with
        endMs := 10 ^ 400
        timed := by decide +kernel } 0 := by
  rintro ⟨taken,htaken,-⟩
  have hraises : (SpeakerMicroBatcher.enqueue { clip "a" "a1" none (by decide) (by decide) with
        endMs := 10 ^ 400
        timed := by decide +kernel } 0
      (SpeakerMicroBatcher.init 4 20 5 1 (by decide) (by decide) (by decide))).1 = none := by
    decide +kernel
  rw [hraises] at htaken
  cases htaken

/-- One item for each session: the second clip is refused until the first is returned. -/
theorem batcher_conserves_within_limits_one_each :
    let first := clip "a" "a1" none (by decide) (by decide)
    let second := clip "a" "a2" none (by decide) (by decide)
    let h := (start (SpeakerMicroBatcher.init 4 20 5 1 (by decide) (by decide) (by decide))).run
      [.enqueue first 0,.enqueue second 1]
    h.accepted = [first] ∧ h.Conserved ∧ AnswersByShare h.batcher second 2 ∧
      (h.batcher.popReady 3 true).2.queued = [] := by
  intro first second h
  obtain ⟨hconserved,-,-,-,hforced,hanswers⟩ := batcher_conserves_within_limits 4 20 5 1
    (by decide) (by decide) (by decide) [.enqueue first 0,.enqueue second 1]
  exact ⟨by decide +kernel,hconserved,(hanswers second 2).mpr (.inl (by decide +kernel)),hforced 3⟩

end BatcherHistory
end CueBee.Speaker
