import CueBee.Speaker.MicroBatcher

/-! # No chunk is lost in the batcher

What `pop_ready` takes out of the queues and what it leaves there is what was in them.
-/
namespace CueBee.Speaker

/-- Grouping by a key that covers all items keeps the items. -/
theorem flatMap_filter_perm {α κ : Type} [DecidableEq κ] (key : α → κ) {keys : List κ}
    (hkeys : keys.Nodup) {items : List α} (hcover : ∀ x ∈ items, key x ∈ keys) :
    (keys.flatMap (fun k => items.filter (fun x => key x = k))).Perm items := by
  induction keys generalizing items with
  | nil =>
    have hnil : items = [] := List.eq_nil_iff_forall_not_mem.mpr (fun x hx => by cases hcover x hx)
    rw [hnil]
    exact .refl _
  | cons k keys ih =>
    obtain ⟨hk,hkeys⟩ := List.nodup_cons.mp hkeys
    have hothers : keys.flatMap (fun j => items.filter (fun x => key x = j)) =
        keys.flatMap (fun j => (items.filter (fun x => key x ≠ k)).filter (fun x => key x = j)) := by
      refine List.flatMap_congr (fun j hj => ?_)
      rw [List.filter_filter]
      refine List.filter_congr (fun x _ => ?_)
      by_cases hx : key x = j
      · have hjk : j ≠ k := fun h => hk (h ▸ hj)
        simp [hx,hjk]
      · simp [hx]
    rw [List.flatMap_cons,hothers]
    have hcovered : ∀ x ∈ items.filter (fun x => key x ≠ k), key x ∈ keys := by
      intro x hx
      obtain ⟨hx,hne⟩ := List.mem_filter.mp hx
      exact (List.mem_cons.mp (hcover x hx)).resolve_left (by simpa using hne)
    have hrest := ih hkeys hcovered
    refine (hrest.append_left _).trans ?_
    have hsplit := List.filter_append_perm (fun x => decide (key x = k)) items
    simpa using hsplit

theorem append_append_perm {α : Type} (a b c d : List α) :
    (a ++ b ++ (c ++ d)).Perm (a ++ c ++ (b ++ d)) := by
  rw [List.append_assoc,List.append_assoc]
  refine List.Perm.append_left a ?_
  rw [← List.append_assoc,← List.append_assoc]
  exact List.perm_append_comm.append_right d

namespace SpeakerMicroBatcher
variable {K : Type}

theorem takeTurns_perm (room : ℕ) (sessions : List (QueuedChunk K × List (QueuedChunk K))) :
    ∃ left, (takeTurns room sessions ++ left).Perm (sessions.flatMap (fun g => g.1 :: g.2)) := by
  induction room, sessions using takeTurns.induct with
  | case1 sessions => exact ⟨_,.refl _⟩
  | case2 room => cases room <;> exact ⟨[],.refl _⟩
  | case3 room item sessions ih =>
    obtain ⟨left,hperm⟩ := ih
    exact ⟨left,hperm.cons item⟩
  | case4 room item next rest sessions ih =>
    obtain ⟨left,hperm⟩ := ih
    refine ⟨left,(hperm.cons item).trans (List.Perm.cons item ?_)⟩
    rw [List.flatMap_append,List.flatMap_singleton]
    exact List.perm_append_comm

/-- The groups hold the items of their sessions. -/
theorem flatMap_groups (items : List (QueuedChunk K)) (sessions : List Cache.SessionId) :
    (sessions.filterMap (fun sessionId =>
      match items.filter (fun item => item.chunk.sessionId = sessionId) with
      | [] => none
      | item :: rest => some (item,rest))).flatMap (fun g => g.1 :: g.2) =
    sessions.flatMap (fun sessionId =>
      items.filter (fun item => item.chunk.sessionId = sessionId)) := by
  induction sessions with
  | nil => rfl
  | cons sessionId sessions ih =>
    rw [List.flatMap_cons,← ih]
    cases hfilter : items.filter (fun item => item.chunk.sessionId = sessionId) with
    | nil => simp [hfilter]
    | cons item rest => simp [hfilter]

theorem bySession_perm (items : List (QueuedChunk K)) :
    ((bySession items).flatMap (fun g => g.1 :: g.2)).Perm items := by
  have hsorted := List.perm_insertionSort (· ≤ ·) (items.map (fun item => item.chunk.sessionId)).dedup
  refine (List.Perm.of_eq (flatMap_groups items _)).trans ?_
  refine flatMap_filter_perm (fun item : QueuedChunk K => item.chunk.sessionId)
    (hsorted.nodup_iff.mpr (List.nodup_dedup _)) (fun item hitem => ?_)
  exact hsorted.mem_iff.mpr (List.mem_dedup.mpr (List.mem_map.mpr ⟨item,hitem,rfl⟩))

theorem fairSelect_perm (queue : List (QueuedChunk K)) (limit : ℕ) :
    ∃ left, (fairSelect (candidates queue) limit ++ left).Perm queue := by
  obtain ⟨left,hperm⟩ := takeTurns_perm limit (bySession (candidates queue))
  exact ⟨left,(hperm.trans (bySession_perm _)).trans (candidates_perm queue)⟩

/-- Objects are taken out of the queue by their identity. -/
theorem filter_unselected {queue batch left : List (QueuedChunk K)}
    (hserials : (queue.map QueuedChunk.serial).Nodup) (hperm : (batch ++ left).Perm queue) :
    (queue.filter (fun item => item.serial ∉ batch.map QueuedChunk.serial)).Perm left := by
  have hdistinct := (hperm.map QueuedChunk.serial).nodup_iff.mpr hserials
  rw [List.map_append] at hdistinct
  have hdisjoint := (List.nodup_append.mp hdistinct).2.2
  refine (hperm.filter _).symm.trans ?_
  rw [List.filter_append]
  have hbatch : batch.filter (fun item => item.serial ∉ batch.map QueuedChunk.serial) = [] := by
    refine List.filter_eq_nil_iff.mpr (fun item hitem => ?_)
    simpa using ⟨item,hitem,rfl⟩
  have hleft : left.filter (fun item => item.serial ∉ batch.map QueuedChunk.serial) = left := by
    refine List.filter_eq_self.mpr (fun item hitem => ?_)
    have hnot : item.serial ∉ batch.map QueuedChunk.serial := fun hmem =>
      hdisjoint _ hmem _ (List.mem_map_of_mem hitem) rfl
    simpa using hnot
  rw [hbatch,hleft]
  exact .refl _

theorem dispatch_perm (limit : ℕ) (force : Bool) (fuel : ℕ) {queue : List (QueuedChunk K)}
    (hserials : (queue.map QueuedChunk.serial).Nodup) :
    ((dispatch limit force fuel queue).1.flatten ++ (dispatch limit force fuel queue).2).Perm
      queue := by
  induction fuel generalizing queue with
  | zero => exact .refl _
  | succ fuel ih =>
    by_cases hne : queue = []
    · subst hne
      exact .refl _
    · obtain ⟨left,hperm⟩ := fairSelect_perm queue limit
      have hrest := filter_unselected hserials hperm
      have hsublist := (List.filter_sublist (p := fun item => item.serial ∉
        (fairSelect (candidates queue) limit).map QueuedChunk.serial) (l := queue)).map
          QueuedChunk.serial
      have hmore := ih (hsublist.nodup hserials)
      simp only [dispatch,if_neg hne]
      split
      · rw [List.flatten_cons,List.append_assoc]
        exact ((hmore.trans hrest).append_left _).trans hperm
      · rw [List.flatten_singleton]
        exact (hrest.append_left _).trans hperm

/-- Every batch holds something. -/
theorem dispatch_ne_nil {limit : ℕ} (hlimit : 0 < limit) (force : Bool) (fuel : ℕ)
    (queue : List (QueuedChunk K)) : ∀ batch ∈ (dispatch limit force fuel queue).1, batch ≠ [] := by
  induction fuel generalizing queue with
  | zero =>
    intro batch hbatch
    cases hbatch
  | succ fuel ih =>
    by_cases hne : queue = []
    · subst hne
      intro batch hbatch
      cases hbatch
    · have hfirst : fairSelect (candidates queue) limit ≠ [] := by
        have hcandidates : candidates queue ≠ [] := fun hnil =>
          hne (hnil ▸ candidates_perm queue).symm.eq_nil
        obtain ⟨item,-,hmem⟩ := exists_mem_fairSelect hcandidates hlimit
        exact List.ne_nil_of_mem hmem
      simp only [dispatch,if_neg hne]
      split
      · intro batch hbatch
        rcases List.mem_cons.mp hbatch with rfl | hbatch
        · exact hfirst
        · exact ih _ batch hbatch
      · intro batch hbatch
        rw [List.mem_singleton.mp hbatch]
        exact hfirst

/-- Everything that waits in one of the queues. -/
def queued (b : SpeakerMicroBatcher K) : List (QueuedChunk K) := Bucket.sorted.flatMap b.queue

/-- One queue is emptied by what its batches take; the others stay. -/
theorem popBucket_perm (nowMs : ℤ) (force : Bool) (bucket : Bucket) (b : SpeakerMicroBatcher K)
    (hserials : ((b.queue bucket).map QueuedChunk.serial).Nodup) :
    ((popBucket nowMs force bucket b).1.flatten ++ (popBucket nowMs force bucket b).2.queue bucket).Perm
      (b.queue bucket) ∧
    (∀ batch ∈ (popBucket nowMs force bucket b).1, batch ≠ []) ∧
    (∀ other ≠ bucket, (popBucket nowMs force bucket b).2.queue other = b.queue other) ∧
    (popBucket nowMs force bucket b).2.nextSerial = b.nextSerial := by
  unfold popBucket
  split
  · exact ⟨.refl _,by simp,fun _ _ => rfl,rfl⟩
  · next first rest hqueue =>
    split
    · refine ⟨?_,dispatch_ne_nil b.batchSize_pos force _ _,?_,rfl⟩
      · rw [hqueue] at hserials ⊢
        have hpop := dispatch_perm b.maxBatchSize force (first :: rest).length hserials
        simpa [queue] using hpop
      · intro other hother
        simp [queue,Dict.get?_set,hother]
    · exact ⟨.refl _,by simp,fun _ _ => rfl,rfl⟩

theorem popBuckets_perm (nowMs : ℤ) (force : Bool) {buckets : List Bucket} (hbuckets : buckets.Nodup)
    (b : SpeakerMicroBatcher K)
    (hserials : ∀ bucket ∈ buckets, ((b.queue bucket).map QueuedChunk.serial).Nodup) :
    ((popBuckets nowMs force buckets b).1.flatten ++
      buckets.flatMap (popBuckets nowMs force buckets b).2.queue).Perm (buckets.flatMap b.queue) ∧
    (∀ batch ∈ (popBuckets nowMs force buckets b).1, batch ≠ []) ∧
    (∀ other ∉ buckets, (popBuckets nowMs force buckets b).2.queue other = b.queue other) ∧
    (popBuckets nowMs force buckets b).2.nextSerial = b.nextSerial := by
  induction buckets generalizing b with
  | nil => exact ⟨.refl _,by simp [popBuckets],fun _ _ => rfl,rfl⟩
  | cons bucket buckets ih =>
    obtain ⟨hbucket,hbuckets⟩ := List.nodup_cons.mp hbuckets
    obtain ⟨hpop,hne,hothers,hserial⟩ := popBucket_perm nowMs force bucket b
      (hserials bucket List.mem_cons_self)
    have hqueues : ∀ other ∈ buckets, (popBucket nowMs force bucket b).2.queue other = b.queue other :=
      fun other hother => hothers other (fun heq => hbucket (heq ▸ hother))
    obtain ⟨hmore,hmoreNe,hmoreOthers,hmoreSerial⟩ := ih hbuckets (popBucket nowMs force bucket b).2
      (fun other hother => by
        rw [hqueues other hother]
        exact hserials other (List.mem_cons_of_mem _ hother))
    rw [List.flatMap_congr hqueues] at hmore
    simp only [popBuckets]
    refine ⟨?_,?_,?_,hmoreSerial.trans hserial⟩
    · rw [List.flatten_append,List.flatMap_cons,List.flatMap_cons,hmoreOthers bucket hbucket]
      exact (append_append_perm _ _ _ _).trans (hpop.append hmore)
    · intro batch hbatch
      rcases List.mem_append.mp hbatch with hbatch | hbatch
      · exact hne batch hbatch
      · exact hmoreNe batch hbatch
    · intro other hother
      rw [hmoreOthers other (fun hmem => hother (List.mem_cons_of_mem _ hmem)),
        hothers other (fun heq => hother (heq ▸ List.mem_cons_self))]

theorem popReady_perm (nowMs : ℤ) (force : Bool) {b : SpeakerMicroBatcher K}
    (hserials : (b.queued.map QueuedChunk.serial).Nodup) :
    ((b.popReady nowMs force).1.flatten ++ (b.popReady nowMs force).2.queued).Perm b.queued ∧
    (∀ batch ∈ (b.popReady nowMs force).1, batch ≠ []) ∧
    (b.popReady nowMs force).2.nextSerial = b.nextSerial := by
  have hbuckets : Bucket.sorted.Nodup := by decide
  obtain ⟨hperm,hne,-,hserial⟩ := popBuckets_perm nowMs force hbuckets b (fun bucket hbucket =>
    ((List.sublist_flatten_of_mem (List.mem_map_of_mem hbucket)).map QueuedChunk.serial).nodup
      hserials)
  exact ⟨hperm,hne,hserial⟩

theorem queued_append {b b' : SpeakerMicroBatcher K} {bucket : Bucket} {item : QueuedChunk K}
    (h : b'.buckets = b.buckets.set bucket (b.queue bucket ++ [item])) :
    b'.queued.Perm (item :: b.queued) := by
  have hself : b'.queue bucket = b.queue bucket ++ [item] := by simp [queue,h]
  have hothers : ∀ other ≠ bucket, b'.queue other = b.queue other := by
    intro other hother
    simp [queue,h,Dict.get?_set,hother]
  obtain ⟨pre,post,hsorted⟩ := List.append_of_mem (show bucket ∈ Bucket.sorted by cases bucket <;> decide)
  have hdistinct : (pre ++ bucket :: post).Nodup := hsorted ▸ (by decide : Bucket.sorted.Nodup)
  obtain ⟨-,hpost,hpre⟩ := List.nodup_append.mp hdistinct
  rw [queued,queued,hsorted,List.flatMap_append,List.flatMap_append,List.flatMap_cons,
    List.flatMap_cons,hself,
    List.flatMap_congr (fun other hother => hothers other (hpre other hother _ List.mem_cons_self)),
    List.flatMap_congr (fun other hother => hothers other
      (fun heq => (List.nodup_cons.mp hpost).1 (heq ▸ hother))),List.append_assoc]
  exact (List.perm_middle.append_left _).trans List.perm_middle

/-- An accepted chunk is queued under the next serial; any other changes no queue. -/
theorem enqueue_perm [FloatOps K] (chunk : AudioChunk K) (nowMs : ℤ) (b : SpeakerMicroBatcher K) :
    ((b.enqueue chunk nowMs).1 = some true ∧
      (b.enqueue chunk nowMs).2.nextSerial = b.nextSerial + 1 ∧
      ∃ item : QueuedChunk K, item.serial = b.nextSerial ∧ item.chunk = chunk ∧
        (b.enqueue chunk nowMs).2.queued.Perm (item :: b.queued)) ∨
    ((b.enqueue chunk nowMs).1 ≠ some true ∧
      (b.enqueue chunk nowMs).2.nextSerial = b.nextSerial ∧
      (b.enqueue chunk nowMs).2.queued = b.queued) := by
  unfold enqueue
  split
  · exact .inr ⟨by simp,rfl,rfl⟩
  · split
    · exact .inr ⟨by simp,rfl,rfl⟩
    · refine .inl ⟨rfl,rfl,⟨b.nextSerial,chunk,nowMs,chunk.deadlineMs.getD (nowMs + 100)⟩,rfl,rfl,?_⟩
      exact queued_append rfl

end SpeakerMicroBatcher
end CueBee.Speaker
