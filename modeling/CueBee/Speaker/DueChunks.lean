import CueBee.Speaker.BatchLimits
import CueBee.Speaker.TurnOrder

/-! # Due chunks that stay behind

`pop_ready` dispatches a queue because of a due chunk and then takes batches by turns. A due
chunk stays behind if it is overtaken in every one of the rounds, and only then.
-/
namespace CueBee.Speaker
open Cache PyStr

namespace SpeakerMicroBatcher
variable {K : Type}

/-- The item has waited long enough, or its deadline is near. -/
def Due (b : SpeakerMicroBatcher K) (nowMs : ℤ) (item : QueuedChunk K) : Prop :=
  b.maxWaitMs ≤ nowMs - item.enqueuedMs ∨ item.deadlineMs ≤ nowMs + b.dispatchSlackMs

instance (b : SpeakerMicroBatcher K) (nowMs : ℤ) (item : QueuedChunk K) :
    Decidable (b.Due nowMs item) := instDecidableOr

/-- After `pop_ready` no queue is ready, and every due item has been returned. -/
structure LeavesNoneDue (b : SpeakerMicroBatcher K) (nowMs : ℤ) : Prop where
  settled : ∀ bucket, (b.popReady nowMs false).2.queue bucket ≠ [] →
    ((b.popReady nowMs false).2.queue bucket).length < b.maxBatchSize ∧
    ∀ item ∈ (b.popReady nowMs false).2.queue bucket, ¬b.Due nowMs item
  dispatched : ∀ bucket, ∀ item ∈ b.queue bucket, b.Due nowMs item →
    ∃ batch ∈ (b.popReady nowMs false).1, item ∈ batch

/-- The item does not have its turn in any of the given number of rounds. -/
def Overtaken (limit : ℕ) : ℕ → List (QueuedChunk K) → QueuedChunk K → Prop
  | 0, _, _ => True
  | rounds + 1, queue, x => limit ≤ turn queue x ∧
    Overtaken limit rounds (queue.filter (fun y => limit ≤ turn queue y)) x

instance decidableOvertaken (limit : ℕ) : ∀ (rounds : ℕ) (queue : List (QueuedChunk K))
    (x : QueuedChunk K), Decidable (Overtaken limit rounds queue x)
  | 0, _, _ => .isTrue trivial
  | rounds + 1, _, x => @instDecidableAnd _ _ inferInstance (decidableOvertaken limit rounds _ x)

section Rounds
variable {limit : ℕ} {queue left : List (QueuedChunk K)} {batches : List (List (QueuedChunk K))}

theorem unselected_eq (h : InOrder queue) (limit : ℕ) :
    unselected limit queue = queue.filter (fun y => limit ≤ turn queue y) := by
  refine List.filter_congr (fun y hy => ?_)
  have hserial : y.serial ∈ (fairSelect (candidates queue) limit).map QueuedChunk.serial ↔
      y ∈ fairSelect (candidates queue) limit := by
    refine ⟨fun hmem => ?_,fun hmem => List.mem_map_of_mem hmem⟩
    obtain ⟨z,hz,hzy⟩ := List.mem_map.mp hmem
    obtain ⟨rest,hperm⟩ := fairSelect_perm queue limit
    have hzq : z ∈ queue := hperm.mem_iff.mp (List.mem_append_left _ hz)
    have hinj := List.inj_on_of_nodup_map
      (show (queue.map QueuedChunk.serial).Nodup from
        List.pairwise_map.mpr (h.imp (fun hlt => hlt.ne)))
    exact hinj hzq hy hzy ▸ hz
  have hiff := hserial.trans (mem_fairSelect_iff h hy)
  simp only [hiff,not_lt]

theorem mem_unselected (h : InOrder queue) {limit : ℕ} {x : QueuedChunk K} :
    x ∈ unselected limit queue ↔ x ∈ queue ∧ limit ≤ turn queue x := by
  rw [unselected_eq h limit]
  simp

theorem inOrder_unselected (h : InOrder queue) (limit : ℕ) : InOrder (unselected limit queue) :=
  h.sublist List.filter_sublist

theorem length_unselected (h : InOrder queue) (limit : ℕ) :
    (unselected limit queue).length = queue.length - limit := by
  obtain ⟨rest,hperm⟩ := fairSelect_perm queue limit
  have hserials : (queue.map QueuedChunk.serial).Nodup :=
    List.pairwise_map.mpr (h.imp (fun hlt => hlt.ne))
  have hrest := (filter_unselected hserials hperm).length_eq
  have hall := hperm.length_eq
  have hbatch : (fairSelect (candidates queue) limit).length = min limit queue.length := by
    rw [fairSelect,length_takeTurns]
    exact congrArg (min limit) ((bySession_perm _).trans (candidates_perm queue)).length_eq
  rw [List.length_append,hbatch] at hall
  rw [unselected,hrest]
  omega

theorem Rounds.length_left_lt (h : Rounds limit false queue batches left) (hlimit : 0 < limit) :
    left.length < limit := by
  generalize hforce : false = force at h
  induction h with
  | empty => exact hlimit
  | last hne hstop => exact not_le.mp (fun hle => hstop (.inr hle))
  | again hne hready hrest ih => exact ih

/-- The items left are those that were overtaken in every round; there is at least one. -/
theorem Rounds.mem_left_iff (h : Rounds limit false queue batches left) (hlimit : 0 < limit)
    (horder : InOrder queue) (x : QueuedChunk K) :
    x ∈ left ↔ x ∈ queue ∧ Overtaken limit (max 1 (queue.length / limit)) queue x := by
  generalize hforce : false = force at h
  induction h with
  | empty => simp
  | @last queue hne hstop =>
    have hlength := length_unselected horder limit
    have hone : max 1 (queue.length / limit) = 1 := by
      have hshort : (unselected limit queue).length < limit :=
        not_le.mp (fun hle => hstop (.inr hle))
      have hquotient : queue.length / limit < 2 := Nat.div_lt_of_lt_mul (by omega)
      omega
    rw [hone,unselected_eq horder limit]
    simp [Overtaken]
  | @again queue left batches hne hready hrest ih =>
    have hlong : limit ≤ (unselected limit queue).length :=
      hready.resolve_left (by simp [← hforce])
    have hlength := length_unselected horder limit
    have hrounds : max 1 (queue.length / limit) =
        max 1 ((unselected limit queue).length / limit) + 1 := by
      have hquotient : queue.length / limit = (unselected limit queue).length / limit + 1 := by
        rw [hlength,← Nat.div_eq_sub_div hlimit (by omega)]
      have hpos : 1 ≤ (unselected limit queue).length / limit := Nat.div_pos hlong hlimit
      omega
    rw [ih (inOrder_unselected horder limit),hrounds,Overtaken,← unselected_eq horder limit]
    rw [mem_unselected horder,and_assoc]

/-- An item that is not left is in one of the batches. -/
theorem Rounds.mem_batch {force : Bool} (h : Rounds limit force queue batches left)
    (horder : InOrder queue) {x : QueuedChunk K} (hx : x ∈ queue) (hleft : x ∉ left) :
    ∃ batch ∈ batches, x ∈ batch := by
  induction h with
  | empty => cases hx
  | @last queue hne hstop =>
    rw [mem_unselected horder,not_and,not_le] at hleft
    exact ⟨_,List.mem_singleton_self _,(mem_fairSelect_iff horder hx).mpr (hleft hx)⟩
  | @again queue left batches hne hready hrest ih =>
    by_cases hturn : limit ≤ turn queue x
    · obtain ⟨batch,hbatch,hmem⟩ := ih (inOrder_unselected horder limit)
        ((mem_unselected horder).mpr ⟨hx,hturn⟩) hleft
      exact ⟨batch,List.mem_cons_of_mem _ hbatch,hmem⟩
    · exact ⟨_,List.mem_cons_self,(mem_fairSelect_iff horder hx).mpr (not_le.mp hturn)⟩

theorem Rounds.sublist {force : Bool} (h : Rounds limit force queue batches left) :
    left.Sublist queue := by
  induction h with
  | empty => exact .refl _
  | last hne hstop => exact List.filter_sublist
  | again hne hready hrest ih => exact ih.trans List.filter_sublist

end Rounds

section Pops
variable {b b' : SpeakerMicroBatcher K} {nowMs : ℤ} {force : Bool} {bucket other : Bucket}

theorem foldl_min_le_iff (values : List ℤ) (first k : ℤ) :
    values.foldl min first ≤ k ↔ first ≤ k ∨ ∃ value ∈ values, value ≤ k := by
  induction values generalizing first with
  | nil => simp
  | cons value values ih =>
    have hmin : min first value ≤ k ↔ first ≤ k ∨ value ≤ k := by omega
    rw [List.foldl_cons,ih,hmin,or_assoc]
    simp

theorem ready_iff (b : SpeakerMicroBatcher K) (nowMs : ℤ) (first : QueuedChunk K)
    (rest : List (QueuedChunk K)) : ready nowMs false b first rest = true ↔
      b.maxBatchSize ≤ (first :: rest).length ∨ ∃ item ∈ first :: rest, b.Due nowMs item := by
  have hwait := foldl_min_le_iff (rest.map QueuedChunk.enqueuedMs) first.enqueuedMs
    (nowMs - b.maxWaitMs)
  have hdeadline := foldl_min_le_iff (rest.map QueuedChunk.deadlineMs) first.deadlineMs
    (nowMs + b.dispatchSlackMs)
  have hdue : (∃ item ∈ first :: rest, b.Due nowMs item) ↔
      (first.enqueuedMs ≤ nowMs - b.maxWaitMs ∨
        ∃ value ∈ rest.map QueuedChunk.enqueuedMs, value ≤ nowMs - b.maxWaitMs) ∨
      (first.deadlineMs ≤ nowMs + b.dispatchSlackMs ∨
        ∃ value ∈ rest.map QueuedChunk.deadlineMs, value ≤ nowMs + b.dispatchSlackMs) := by
    simp only [Due,List.mem_cons,List.mem_map]
    constructor
    · rintro ⟨item,rfl | hitem,hw | hd⟩
      · exact .inl (.inl (by omega))
      · exact .inr (.inl hd)
      · exact .inl (.inr ⟨_,⟨item,hitem,rfl⟩,by omega⟩)
      · exact .inr (.inr ⟨_,⟨item,hitem,rfl⟩,hd⟩)
    · rintro ((hw | ⟨-,⟨item,hitem,rfl⟩,hw⟩) | (hd | ⟨-,⟨item,hitem,rfl⟩,hd⟩))
      · exact ⟨first,.inl rfl,.inl (by omega)⟩
      · exact ⟨item,.inr hitem,.inl (by omega)⟩
      · exact ⟨first,.inl rfl,.inr hd⟩
      · exact ⟨item,.inr hitem,.inr hd⟩
  rw [hdue,← hwait,← hdeadline]
  simp only [ready,Bool.false_or,Bool.or_eq_true,decide_eq_true_eq]
  constructor
  · rintro ((hsize | hw) | hd)
    · exact .inl hsize
    · exact .inr (.inl (by omega))
    · exact .inr (.inr hd)
  · rintro (hsize | hw | hd)
    · exact .inl (.inl hsize)
    · exact .inl (.inr (by omega))
    · exact .inr hd

/-- What becomes of one queue: it stays, or it goes through the rounds. -/
inductive Popped (b : SpeakerMicroBatcher K) (nowMs : ℤ) (force : Bool) (bucket : Bucket) :
    List (List (QueuedChunk K)) → List (QueuedChunk K) → Prop
  | empty (hqueue : b.queue bucket = []) : Popped b nowMs force bucket [] []
  | stays {first : QueuedChunk K} {rest : List (QueuedChunk K)}
      (hqueue : b.queue bucket = first :: rest) (hready : ¬ready nowMs force b first rest = true) :
      Popped b nowMs force bucket [] (b.queue bucket)
  | rounds {first : QueuedChunk K} {rest left : List (QueuedChunk K)}
      {batches : List (List (QueuedChunk K))} (hqueue : b.queue bucket = first :: rest)
      (hready : ready nowMs force b first rest = true)
      (hrounds : Rounds b.maxBatchSize force (b.queue bucket) batches left) :
      Popped b nowMs force bucket batches left

theorem popBucket_popped (b : SpeakerMicroBatcher K) (nowMs : ℤ) (force : Bool) (bucket : Bucket) :
    Popped b nowMs force bucket (popBucket nowMs force bucket b).1
      ((popBucket nowMs force bucket b).2.queue bucket) := by
  unfold popBucket
  split
  · next hqueue =>
    rw [hqueue]
    exact .empty hqueue
  · next first rest hqueue =>
    split
    · next hready =>
      have hrounds := rounds_dispatch b.batchSize_pos force (le_refl (first :: rest).length)
      refine .rounds hqueue hready ?_
      rw [hqueue]
      simp only [queue,Dict.get?_set_self,Option.getD_some]
      exact hrounds
    · next hready => exact .stays hqueue hready

theorem popBucket_queue_ne (hother : other ≠ bucket) :
    (popBucket nowMs force bucket b).2.queue other = b.queue other := by
  unfold popBucket
  split
  · rfl
  · split
    · simp [queue,Dict.get?_set,hother]
    · rfl

theorem Popped.congr {batches : List (List (QueuedChunk K))} {left : List (QueuedChunk K)}
    (h : Popped b' nowMs force bucket batches left) (hlimits : SameLimits b b')
    (hqueue : b'.queue bucket = b.queue bucket) : Popped b nowMs force bucket batches left := by
  have hready : ∀ first rest, ready nowMs force b' first rest = ready nowMs force b first rest := by
    intro first rest
    simp only [ready,hlimits.maxBatchSize,hlimits.maxWaitMs,hlimits.dispatchSlackMs]
  cases h with
  | empty hempty => exact .empty (hqueue ▸ hempty)
  | stays hfull hnot =>
    rw [hqueue] at hfull ⊢
    exact .stays hfull (hready _ _ ▸ hnot)
  | rounds hfull hyes hrounds =>
    rw [hqueue] at hfull hrounds
    exact .rounds hfull (hready _ _ ▸ hyes) (hlimits.maxBatchSize ▸ hrounds)

/-- Every queue of `pop_ready` fares as if it were the only one. -/
theorem popBuckets_popped (nowMs : ℤ) (force : Bool) {buckets : List Bucket}
    (hbuckets : buckets.Nodup) (b : SpeakerMicroBatcher K)
    (hserials : ∀ bucket ∈ buckets, ((b.queue bucket).map QueuedChunk.serial).Nodup) :
    ∀ bucket ∈ buckets, ∃ batches, Popped b nowMs force bucket batches
        ((popBuckets nowMs force buckets b).2.queue bucket) ∧
      batches.Sublist (popBuckets nowMs force buckets b).1 := by
  induction buckets generalizing b with
  | nil =>
    intro bucket hbucket
    cases hbucket
  | cons first buckets ih =>
    obtain ⟨hfirst,hbuckets⟩ := List.nodup_cons.mp hbuckets
    have hne : ∀ other ∈ buckets, other ≠ first := fun other hother heq => hfirst (heq ▸ hother)
    have hqueues : ∀ other ∈ buckets, (popBucket nowMs force first b).2.queue other = b.queue other :=
      fun other hother => popBucket_queue_ne (hne other hother)
    have hnext : ∀ other ∈ buckets,
        (((popBucket nowMs force first b).2.queue other).map QueuedChunk.serial).Nodup := by
      intro other hother
      rw [hqueues other hother]
      exact hserials other (List.mem_cons_of_mem _ hother)
    have hlimits := (popBucket_within nowMs force first b (hserials first List.mem_cons_self)).limits
    obtain ⟨-,-,hothers,-⟩ := popBuckets_perm nowMs force hbuckets _ hnext
    intro bucket hbucket
    simp only [popBuckets]
    rcases List.mem_cons.mp hbucket with rfl | hbucket
    · rw [hothers bucket hfirst]
      exact ⟨_,popBucket_popped b nowMs force bucket,List.sublist_append_left _ _⟩
    · obtain ⟨batches,hpopped,hsublist⟩ := ih hbuckets _ hnext bucket hbucket
      exact ⟨batches,hpopped.congr hlimits (hqueues bucket hbucket),
        hsublist.trans (List.sublist_append_right _ _)⟩

theorem Popped.sublist {batches : List (List (QueuedChunk K))} {left : List (QueuedChunk K)}
    (h : Popped b nowMs force bucket batches left) : left.Sublist (b.queue bucket) := by
  cases h with
  | empty hqueue => exact List.nil_sublist _
  | stays hqueue hready => exact .refl _
  | rounds hqueue hready hrounds => exact hrounds.sublist

end Pops

/-- Every queue holds its items in the order of their arrival. -/
def Arrivals (b : SpeakerMicroBatcher K) : Prop :=
  ∀ bucket, InOrder (b.queue bucket) ∧ ∀ item ∈ b.queue bucket, item.serial < b.nextSerial

theorem Arrivals.serials {b : SpeakerMicroBatcher K} (h : b.Arrivals) (bucket : Bucket) :
    ((b.queue bucket).map QueuedChunk.serial).Nodup :=
  List.pairwise_map.mpr ((h bucket).1.imp (fun hlt => hlt.ne))

theorem mem_sorted (bucket : Bucket) : bucket ∈ Bucket.sorted := by
  cases bucket <;> decide

theorem Arrivals.popped {b : SpeakerMicroBatcher K} (h : b.Arrivals) (nowMs : ℤ) (force : Bool)
    (bucket : Bucket) : ∃ batches, Popped b nowMs force bucket batches
        ((b.popReady nowMs force).2.queue bucket) ∧
      batches.Sublist (b.popReady nowMs force).1 :=
  popBuckets_popped nowMs force (by decide) b (fun other _ => h.serials other) bucket
    (mem_sorted bucket)

theorem Arrivals.popReady {b : SpeakerMicroBatcher K} (h : b.Arrivals) (nowMs : ℤ)
    (force : Bool) : (b.popReady nowMs force).2.Arrivals := by
  obtain ⟨-,-,-,hserial⟩ := popBuckets_perm nowMs force (show Bucket.sorted.Nodup by decide) b
    (fun bucket _ => h.serials bucket)
  intro bucket
  obtain ⟨batches,hpopped,-⟩ := h.popped nowMs force bucket
  have hsublist := hpopped.sublist
  refine ⟨(h bucket).1.sublist hsublist,fun item hitem => ?_⟩
  exact lt_of_lt_of_eq ((h bucket).2 item (hsublist.subset hitem)) hserial.symm

theorem Arrivals.enqueue [FloatOps K] {b : SpeakerMicroBatcher K} (h : b.Arrivals) (chunk : AudioChunk K)
    (nowMs : ℤ) : (b.enqueue chunk nowMs).2.Arrivals := by
  unfold SpeakerMicroBatcher.enqueue
  split
  · exact h
  · split
    · exact h
    · next own _ =>
      intro bucket
      obtain ⟨horder,hbelow⟩ := h bucket
      by_cases hbucket : bucket = own
      · subst hbucket
        simp only [queue,Dict.get?_set_self,Option.getD_some]
        refine ⟨List.pairwise_append.mpr ⟨horder,List.pairwise_singleton _ _,?_⟩,?_⟩
        · intro item hitem new hnew
          rw [List.mem_singleton.mp hnew]
          exact hbelow item hitem
        · intro item hitem
          rcases List.mem_append.mp hitem with hold | hnew
          · exact Nat.lt_succ_of_lt (hbelow item hold)
          · rw [List.mem_singleton.mp hnew]
            exact Nat.lt_succ_self _
      · simp only [queue,Dict.get?_set_ne _ _ hbucket]
        exact ⟨horder,fun item hitem => Nat.lt_succ_of_lt (hbelow item hitem)⟩

/-- No due item of a queue that fills a batch is overtaken in all rounds of the queue. -/
def NoneOvertaken (b : SpeakerMicroBatcher K) (nowMs : ℤ) : Prop :=
  ∀ bucket, b.maxBatchSize ≤ (b.queue bucket).length →
    ∀ item ∈ b.queue bucket, b.Due nowMs item →
      ¬Overtaken b.maxBatchSize ((b.queue bucket).length / b.maxBatchSize) (b.queue bucket) item

/-- The items of a queue that is not full are all taken. -/
theorem not_overtaken_of_lt {limit : ℕ} {queue : List (QueuedChunk K)} {item : QueuedChunk K}
    (hlimit : queue.length < limit) : ¬Overtaken limit (max 1 (queue.length / limit)) queue item := by
  rw [Nat.div_eq_of_lt hlimit]
  rintro ⟨hturn,-⟩
  have hle : turn queue item ≤ queue.length := List.countP_le_length
  omega

section Leaves
variable {b : SpeakerMicroBatcher K} {nowMs : ℤ} {bucket : Bucket}
  {batches : List (List (QueuedChunk K))} {left : List (QueuedChunk K)} {item : QueuedChunk K}

/-- The items that stay behind are those overtaken, where the queue was full. -/
theorem Popped.due_left_iff (h : Popped b nowMs false bucket batches left)
    (horder : InOrder (b.queue bucket)) (hdue : b.Due nowMs item) :
    item ∈ left ↔ item ∈ b.queue bucket ∧ b.maxBatchSize ≤ (b.queue bucket).length ∧
      Overtaken b.maxBatchSize ((b.queue bucket).length / b.maxBatchSize) (b.queue bucket) item := by
  cases h with
  | empty hqueue => simp [hqueue]
  | @stays first rest hqueue hready =>
    rw [ready_iff,not_or,not_le,← hqueue] at hready
    refine ⟨fun hitem => ?_,fun hfull => absurd hfull.2.1 (not_le.mpr hready.1)⟩
    exact absurd ⟨item,hitem,hdue⟩ hready.2
  | rounds hqueue hready hrounds =>
    rw [hrounds.mem_left_iff b.batchSize_pos horder]
    refine and_congr_right (fun _ => ?_)
    by_cases hfull : b.maxBatchSize ≤ (b.queue bucket).length
    · have hpos : 1 ≤ (b.queue bucket).length / b.maxBatchSize :=
        Nat.div_pos hfull b.batchSize_pos
      rw [max_eq_right hpos]
      exact (and_iff_right hfull).symm
    · exact iff_of_false (not_overtaken_of_lt (not_le.mp hfull)) (fun hover => hfull hover.1)

theorem Popped.length_left_lt (h : Popped b nowMs false bucket batches left) :
    left.length < b.maxBatchSize := by
  cases h with
  | empty hqueue => exact b.batchSize_pos
  | @stays first rest hqueue hready =>
    rw [ready_iff,not_or,not_le,← hqueue] at hready
    exact hready.1
  | rounds hqueue hready hrounds => exact hrounds.length_left_lt b.batchSize_pos

theorem Popped.returned {force : Bool} (h : Popped b nowMs force bucket batches left)
    (horder : InOrder (b.queue bucket)) (hitem : item ∈ b.queue bucket)
    (hleft : item ∉ left) : ∃ batch ∈ batches, item ∈ batch := by
  cases h with
  | empty hqueue =>
    rw [hqueue] at hitem
    cases hitem
  | stays hqueue hready => exact absurd hitem hleft
  | rounds hqueue hready hrounds => exact hrounds.mem_batch horder hitem hleft

end Leaves

theorem Arrivals.leavesNoneDue_iff {b : SpeakerMicroBatcher K} (h : b.Arrivals) (nowMs : ℤ) :
    b.LeavesNoneDue nowMs ↔ b.NoneOvertaken nowMs := by
  constructor
  · intro hnone bucket hfull item hitem hdue hover
    obtain ⟨batches,hpopped,-⟩ := h.popped nowMs false bucket
    have hleft := (hpopped.due_left_iff (h bucket).1 hdue).mpr ⟨hitem,hfull,hover⟩
    exact (hnone.settled bucket (List.ne_nil_of_mem hleft)).2 item hleft hdue
  · intro hcond
    have hgone : ∀ bucket, ∀ item ∈ (b.popReady nowMs false).2.queue bucket,
        ¬b.Due nowMs item := by
      intro bucket item hleft hdue
      obtain ⟨batches,hpopped,-⟩ := h.popped nowMs false bucket
      obtain ⟨hitem,hfull,hover⟩ := (hpopped.due_left_iff (h bucket).1 hdue).mp hleft
      exact hcond bucket hfull item hitem hdue hover
    refine ⟨fun bucket _ => ⟨?_,hgone bucket⟩,fun bucket item hitem hdue => ?_⟩
    · obtain ⟨batches,hpopped,-⟩ := h.popped nowMs false bucket
      exact hpopped.length_left_lt
    · obtain ⟨batches,hpopped,hsublist⟩ := h.popped nowMs false bucket
      obtain ⟨batch,hbatch,hreturned⟩ := hpopped.returned (h bucket).1 hitem
        (fun hleft => hgone bucket item hleft hdue)
      exact ⟨batch,hsublist.subset hbatch,hreturned⟩

end SpeakerMicroBatcher

namespace BatcherHistory
open SpeakerMicroBatcher
variable {K : Type} [FloatOps K]

theorem arrivals_run (calls : List (BatcherCall K)) {h : BatcherHistory K}
    (harrivals : h.batcher.Arrivals) : (h.run calls).batcher.Arrivals := by
  induction calls generalizing h with
  | nil => exact harrivals
  | cons call calls ih =>
    cases call with
    | enqueue chunk nowMs => exact ih (harrivals.enqueue chunk nowMs)
    | popReady nowMs force => exact ih (harrivals.popReady nowMs force)

/-- The batcher of a run from the start. -/
def reached (maxBatchSize : ℕ) (maxWaitMs dispatchSlackMs : ℤ) (perSessionPending : ℕ)
    (hbatch : 0 < maxBatchSize) (hwait : 0 < maxWaitMs) (hpending : 0 < perSessionPending)
    (calls : List (BatcherCall K)) : SpeakerMicroBatcher K :=
  ((start (SpeakerMicroBatcher.init maxBatchSize maxWaitMs dispatchSlackMs perSessionPending
    hbatch hwait hpending)).run calls).batcher

/-- `pop_ready` leaves no due chunk behind exactly if none is overtaken in all rounds. -/
theorem none_left_due_iff (maxBatchSize : ℕ) (maxWaitMs dispatchSlackMs : ℤ)
    (perSessionPending : ℕ) (hbatch : 0 < maxBatchSize) (hwait : 0 < maxWaitMs)
    (hpending : 0 < perSessionPending) (calls : List (BatcherCall K)) (nowMs : ℤ) :
    (reached maxBatchSize maxWaitMs dispatchSlackMs perSessionPending hbatch hwait hpending
      calls).LeavesNoneDue nowMs ↔
    (reached maxBatchSize maxWaitMs dispatchSlackMs perSessionPending hbatch hwait hpending
      calls).NoneOvertaken nowMs := by
  refine Arrivals.leavesNoneDue_iff (arrivals_run calls (fun bucket => ?_)) nowMs
  exact ⟨.nil,fun item hitem => by cases hitem⟩

/-- The urgent clip of session "c" has its turn in the second of two full batches. -/
theorem none_left_due_second_batch : (reached 2 20 5 8 (by decide) (by decide) (by decide)
    [.enqueue (clip "a" "a1" (some 1000) (by decide) (by decide)) 0,
      .enqueue (clip "b" "b1" (some 1000) (by decide) (by decide)) 0,
      .enqueue (clip "c" "c1" (some 3) (by decide) (by decide)) 0,
      .enqueue (clip "d" "d1" (some 1000) (by decide) (by decide)) 0]).LeavesNoneDue 0 := by
  refine (none_left_due_iff 2 20 5 8 (by decide) (by decide) (by decide) _ 0).mpr ?_
  intro bucket
  cases bucket with
  | short =>
    refine fun _ => ?_
    decide +kernel
  | medium | long => exact fun hfull => absurd hfull (by decide +kernel)

/-- The clip of session "c" makes its queue ready, the batch takes those of "a" and "b", and
the clip of "c" stays behind. -/
theorem urgent_chunk_left_behind : ¬(reached 2 20 5 8 (by decide) (by decide) (by decide)
    [.enqueue (clip "a" "a1" (some 1000) (by decide) (by decide)) 0,
      .enqueue (clip "b" "b1" (some 1000) (by decide) (by decide)) 0,
      .enqueue (clip "c" "c1" (some 3) (by decide) (by decide)) 0]).LeavesNoneDue 0 := by
  intro h
  have hleft := (h.settled .short (by decide +kernel)).2
  revert hleft
  decide +kernel

end BatcherHistory
end CueBee.Speaker
