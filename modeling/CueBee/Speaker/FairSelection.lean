import Mathlib.Data.List.Flatten
import CueBee.Speaker.DueChunks

/-! # Sessions share a batch fairly

`_fair_select` goes round the sessions. Of each session it takes the items that are due first,
and as long as a session has items left no other session is more than one item ahead of it.
-/
namespace CueBee.Speaker
open Cache PyStr

namespace SpeakerMicroBatcher
variable {K : Type}

section Groups
variable {groups : List (QueuedChunk K × List (QueuedChunk K))}
  {g : QueuedChunk K × List (QueuedChunk K)} {item next : QueuedChunk K}
  {rest : List (QueuedChunk K)} {s t : SessionId}

/-- The sessions of the groups, in turn. -/
def names (groups : List (QueuedChunk K × List (QueuedChunk K))) : List SessionId :=
  groups.map (fun g => g.1.chunk.sessionId)

/-- Each group has a session of its own. -/
structure Separate (groups : List (QueuedChunk K × List (QueuedChunk K))) : Prop where
  own : ∀ g ∈ groups, ∀ y ∈ g.2, y.chunk.sessionId = g.1.chunk.sessionId
  distinct : (names groups).Nodup

theorem Separate.tail (h : Separate (g :: groups)) : Separate groups where
  own g' hg' := h.own g' (List.mem_cons_of_mem g hg')
  distinct := (List.nodup_cons.mp h.distinct).2

theorem Separate.rotate (h : Separate ((item,next :: rest) :: groups)) :
    Separate (groups ++ [(next,rest)]) := by
  have hnext : next.chunk.sessionId = item.chunk.sessionId :=
    h.own _ List.mem_cons_self next List.mem_cons_self
  constructor
  · intro g' hg' y hy
    rcases List.mem_append.mp hg' with hg' | hg'
    · exact h.own g' (List.mem_cons_of_mem _ hg') y hy
    · rw [List.mem_singleton.mp hg'] at hy ⊢
      rw [hnext]
      exact h.own _ List.mem_cons_self y (List.mem_cons_of_mem next hy)
  · rw [names,List.map_append,List.map_singleton,hnext]
    exact List.perm_append_comm.nodup_iff.mp h.distinct

theorem ofSession_cons (s : SessionId) (item : QueuedChunk K) (items : List (QueuedChunk K)) :
    ofSession s (item :: items) =
      if item.chunk.sessionId = s then item :: ofSession s items else ofSession s items := by
  rw [ofSession,List.filter_cons]
  simp only [decide_eq_true_eq]
  rfl

theorem ofSession_append (s : SessionId) (items more : List (QueuedChunk K)) :
    ofSession s (items ++ more) = ofSession s items ++ ofSession s more := List.filter_append _ _

/-- A session without a group has no item. -/
theorem Separate.ofSession_nil (h : Separate groups) (hs : s ∉ names groups) :
    ofSession s (flat groups) = [] := by
  refine List.filter_eq_nil_iff.mpr fun y hy hys => hs ?_
  obtain ⟨g,hg,hyg⟩ := List.mem_flatMap.mp hy
  refine List.mem_map.mpr ⟨g,hg,?_⟩
  rcases List.mem_cons.mp hyg with rfl | hyg
  · exact of_decide_eq_true hys
  · rw [← h.own g hg y hyg]
    exact of_decide_eq_true hys

/-- After its turn a group has its other items left, wherever it stands now. -/
theorem Separate.ofSession_rotate (h : Separate ((item,next :: rest) :: groups)) (s : SessionId) :
    ofSession s (flat ((item,next :: rest) :: groups)) =
      if item.chunk.sessionId = s then item :: ofSession s (flat (groups ++ [(next,rest)]))
      else ofSession s (flat (groups ++ [(next,rest)])) := by
  have hflat : flat (groups ++ [(next,rest)]) = flat groups ++ (next :: rest) := by
    rw [flat_append,flat_cons]
    simp [flat]
  rw [flat_cons,ofSession_cons,ofSession_append,hflat,ofSession_append]
  by_cases hs : item.chunk.sessionId = s
  · have hnil : ofSession s (flat groups) = [] :=
      h.tail.ofSession_nil (hs ▸ (List.nodup_cons.mp h.distinct).1)
    rw [hnil,List.append_nil,List.nil_append]
  · have hnil : ofSession s (next :: rest) = [] := by
      refine List.filter_eq_nil_iff.mpr fun y hy hys => hs ?_
      rw [← of_decide_eq_true hys]
      exact (h.own _ List.mem_cons_self y hy).symm
    rw [hnil,List.append_nil,List.nil_append]

/-- Of each session the first items are taken. -/
theorem takeTurns_firsts (room : ℕ) (h : Separate groups) (s : SessionId) :
    ofSession s (takeTurns room groups) <+: ofSession s (flat groups) := by
  induction room, groups using takeTurns.induct with
  | case1 groups => simp [takeTurns,ofSession]
  | case2 room => cases room <;> exact List.nil_prefix
  | case3 room item groups ih =>
    rw [takeTurns,flat_cons,ofSession_cons,ofSession_cons]
    split
    · exact (List.prefix_cons_inj item).mpr (ih h.tail)
    · exact ih h.tail
  | case4 room item next rest groups ih =>
    rw [takeTurns,h.ofSession_rotate,ofSession_cons]
    split
    · exact (List.prefix_cons_inj item).mpr (ih h.rotate)
    · exact ih h.rotate

/-- As long as `s` has an item left, `t` is at most one item ahead of it, and not even that
if `s` has its turn first. -/
def Level (s t : SessionId) (groups : List (QueuedChunk K × List (QueuedChunk K)))
    (taken : List (QueuedChunk K)) : Prop :=
  (ofSession s taken).length < (ofSession s (flat groups)).length →
    (ofSession t taken).length ≤ (ofSession s taken).length + 1 ∧
      (List.Sublist [s,t] (names groups) →
        (ofSession t taken).length ≤ (ofSession s taken).length)

variable {taken : List (QueuedChunk K)}

/-- A session leaves with its last item. -/
theorem Level.leave (h : Separate ((item,[]) :: groups)) (hlevel : Level s t groups taken)
    (hfirsts : ∀ u, ofSession u taken <+: ofSession u (flat groups)) :
    Level s t ((item,[]) :: groups) (item :: taken) := by
  intro hleft
  obtain ⟨hown,-⟩ := List.nodup_cons.mp h.distinct
  -- the session of the item has no other one
  have hgone : ofSession item.chunk.sessionId (flat groups) = [] := h.tail.ofSession_nil hown
  have hnone : ofSession item.chunk.sessionId taken = [] :=
    List.prefix_nil.mp (hgone ▸ hfirsts item.chunk.sessionId)
  rw [flat_cons,List.nil_append,ofSession_cons,ofSession_cons] at hleft
  rw [ofSession_cons,ofSession_cons]
  by_cases hs : item.chunk.sessionId = s
  · subst hs
    simp [hgone,hnone] at hleft
  · rw [if_neg hs,if_neg hs] at hleft
    obtain ⟨hahead,hbefore⟩ := hlevel hleft
    rw [if_neg hs]
    have hfirst : List.Sublist [s,t] (names ((item,[]) :: groups)) →
        List.Sublist [s,t] (names groups) := List.Sublist.of_cons_of_ne (Ne.symm hs)
    by_cases ht : item.chunk.sessionId = t
    · subst ht
      rw [if_pos rfl,hnone]
      refine ⟨by simp,fun hturn => ?_⟩
      exact absurd ((hfirst hturn).subset (by simp)) hown
    · rw [if_neg ht]
      exact ⟨hahead,fun hturn => hbefore (hfirst hturn)⟩

/-- A session goes to the end of the turns with the rest of its items. -/
theorem Level.rotate (h : Separate ((item,next :: rest) :: groups))
    (hlevel : Level s t (groups ++ [(next,rest)]) taken) :
    Level s t ((item,next :: rest) :: groups) (item :: taken) := by
  intro hleft
  obtain ⟨hown,-⟩ := List.nodup_cons.mp h.distinct
  have hnext : next.chunk.sessionId = item.chunk.sessionId :=
    h.own _ List.mem_cons_self next List.mem_cons_self
  have hnames : names (groups ++ [(next,rest)]) = names groups ++ [item.chunk.sessionId] := by
    rw [names,List.map_append,List.map_singleton,hnext]
    rfl
  rw [h.ofSession_rotate,ofSession_cons] at hleft
  rw [ofSession_cons,ofSession_cons]
  by_cases hs : item.chunk.sessionId = s
  · rw [if_pos hs,if_pos hs] at hleft
    obtain ⟨hahead,-⟩ := hlevel (Nat.lt_of_succ_lt_succ hleft)
    rw [if_pos hs]
    by_cases ht : item.chunk.sessionId = t
    · rw [if_pos ht,← hs,ht]
      exact ⟨Nat.le_succ _,fun _ => le_refl _⟩
    · rw [if_neg ht]
      exact ⟨hahead.trans (Nat.le_succ _),fun _ => hahead⟩
  · rw [if_neg hs,if_neg hs] at hleft
    obtain ⟨hahead,hbefore⟩ := hlevel hleft
    rw [hnames] at hbefore
    rw [if_neg hs]
    have hfirst : List.Sublist [s,t] (names ((item,next :: rest) :: groups)) →
        List.Sublist [s,t] (names groups) := List.Sublist.of_cons_of_ne (Ne.symm hs)
    by_cases ht : item.chunk.sessionId = t
    · subst ht
      -- `s` stands before the group that goes to the end
      have hmem : s ∈ names groups := by
        by_contra hnot
        have hnone : s ∉ names (groups ++ [(next,rest)]) := by
          rw [hnames,List.mem_append,List.mem_singleton,not_or]
          exact ⟨hnot,Ne.symm hs⟩
        rw [h.rotate.ofSession_nil hnone] at hleft
        exact Nat.not_lt_zero _ hleft
      have hturn := hbefore ((List.singleton_sublist.mpr hmem).append (.refl _))
      rw [if_pos rfl]
      exact ⟨Nat.succ_le_succ hturn,fun hturn => absurd ((hfirst hturn).subset (by simp)) hown⟩
    · rw [if_neg ht]
      exact ⟨hahead,fun hturn => hbefore ((hfirst hturn).trans (List.sublist_append_left _ _))⟩

theorem takeTurns_level (room : ℕ) (h : Separate groups) (s t : SessionId) :
    Level s t groups (takeTurns room groups) := by
  induction room, groups using takeTurns.induct with
  | case1 groups => simp [Level,takeTurns,ofSession]
  | case2 room => simp [Level,flat,ofSession]
  | case3 room item groups ih =>
    rw [takeTurns]
    exact (ih h.tail).leave h (takeTurns_firsts room h.tail)
  | case4 room item next rest groups ih =>
    rw [takeTurns]
    exact (ih h.rotate).rotate h

end Groups

section Selection
variable {items queue : List (QueuedChunk K)} {limit : ℕ} {s t : SessionId}

theorem group_session {g : QueuedChunk K × List (QueuedChunk K)} (h : group items s = some g) :
    ∀ y ∈ g.1 :: g.2, y.chunk.sessionId = s := by
  intro y hy
  rw [group_eq h] at hy
  exact of_decide_eq_true (List.mem_filter.mp hy).2

theorem names_sublist (items : List (QueuedChunk K)) (sessions : List SessionId) :
    (names (sessions.filterMap (group items))).Sublist sessions := by
  induction sessions with
  | nil => exact .slnil
  | cons s sessions ih =>
    cases hgroup : group items s with
    | none =>
      rw [List.filterMap_cons_none hgroup]
      exact ih.cons s
    | some g =>
      rw [List.filterMap_cons_some hgroup,names,List.map_cons]
      rw [group_session hgroup g.1 List.mem_cons_self]
      exact ih.cons_cons s

theorem separate_bySession (items : List (QueuedChunk K)) : Separate (bySession items) := by
  obtain ⟨sessions,heq,hsorted,-⟩ := bySession_eq items
  rw [heq]
  constructor
  · intro g hg y hy
    obtain ⟨s,-,hgroup⟩ := List.mem_filterMap.mp hg
    rw [group_session hgroup y (List.mem_cons_of_mem g.1 hy)]
    rw [group_session hgroup g.1 List.mem_cons_self]
  · exact (names_sublist items sessions).nodup (hsorted.imp ne_of_lt)

theorem ofSession_ofSession (s t : SessionId) (items : List (QueuedChunk K)) :
    ofSession s (ofSession t items) = if t = s then ofSession s items else [] := by
  split
  · next heq => simp only [heq,ofSession,List.filter_filter,Bool.and_self]
  · next hne =>
    refine List.filter_eq_nil_iff.mpr fun y hy hys => hne ?_
    rw [← of_decide_eq_true hys]
    exact (of_decide_eq_true (List.mem_filter.mp hy).2).symm

/-- The groups keep the items of each session and their order. -/
theorem ofSession_bySession (items : List (QueuedChunk K)) (s : SessionId) :
    ofSession s (flat (bySession items)) = ofSession s items := by
  obtain ⟨sessions,heq,hsorted,hall⟩ := bySession_eq items
  have hcut : ∀ sessions : List SessionId, sessions.Nodup →
      ofSession s (sessions.flatMap (fun t => ofSession t items)) =
        if s ∈ sessions then ofSession s items else [] := by
    intro sessions hnodup
    induction sessions with
    | nil => rfl
    | cons t sessions ih =>
      obtain ⟨hfresh,hnodup⟩ := List.nodup_cons.mp hnodup
      rw [List.flatMap_cons,ofSession_append,ofSession_ofSession,ih hnodup]
      by_cases ht : t = s
      · subst ht
        simp [hfresh]
      · simp [ht,Ne.symm ht]
  have hflat : flat (sessions.filterMap (group items)) =
      sessions.flatMap (fun t => ofSession t items) := flatMap_groups items sessions
  rw [heq,hflat,hcut sessions (hsorted.imp ne_of_lt)]
  split
  · rfl
  · next hnone =>
    refine (List.filter_eq_nil_iff.mpr fun y hy hys => hnone ?_).symm
    rw [← of_decide_eq_true hys]
    exact hall y hy

/-- The sort key of `pop_ready`. -/
def dueOrder (item : QueuedChunk K) : ℤ ×ₗ ℤ := toLex (item.deadlineMs,item.enqueuedMs)

theorem dueBefore_iff_le (x y : QueuedChunk K) :
    dueBefore x y = true ↔ dueOrder x ≤ dueOrder y := by
  simp [dueBefore,dueOrder,Prod.Lex.toLex_le_toLex]

theorem candidates_dueOrder (queue : List (QueuedChunk K)) :
    (candidates queue).Pairwise (fun x y => dueOrder x ≤ dueOrder y) := by
  apply pairwise_insertionSort
  · intro x y z
    exact le_trans
  · refine List.pairwise_of_forall fun x y => ⟨(dueBefore_iff_le x y).mp,fun hnot => ?_⟩
    exact (le_total _ _).resolve_left (fun hle => hnot ((dueBefore_iff_le x y).mpr hle))

theorem length_ofSession (s : SessionId) (items : List (QueuedChunk K)) :
    (ofSession s items).length = countOf s items := List.countP_eq_length_filter.symm

/-- What a selection owes to the sessions of the queue. -/
structure FairlySelected (queue : List (QueuedChunk K)) (limit : ℕ)
    (selected : List (QueuedChunk K)) : Prop where
  /-- As many as the limit and the queue allow. -/
  full : selected.length = min limit queue.length
  /-- Every item of the queue at most once. -/
  once : ∃ left, (selected ++ left).Perm queue
  /-- As long as `s` has an item left, no `t` is more than one item ahead. -/
  balanced : ∀ s t, countOf s selected < countOf s queue → countOf t selected ≤ countOf s selected + 1
  /-- The items of a session in the order of the sort key, the selected ones first. -/
  firsts : ∀ s, ∃ later, (ofSession s selected ++ later).Perm (ofSession s queue) ∧
    (ofSession s selected ++ later).Pairwise (fun x y => dueOrder x ≤ dueOrder y)

theorem fairSelect_firsts (queue : List (QueuedChunk K)) (limit : ℕ) (s : SessionId) :
    ofSession s (fairSelect (candidates queue) limit) <+: ofSession s (candidates queue) := by
  rw [← ofSession_bySession (candidates queue)]
  exact takeTurns_firsts limit (separate_bySession _) s

theorem fairlySelected (queue : List (QueuedChunk K)) (limit : ℕ) :
    FairlySelected queue limit (fairSelect (candidates queue) limit) where
  full := by
    rw [fairSelect,length_takeTurns]
    exact congrArg (min limit) ((bySession_perm _).trans (candidates_perm queue)).length_eq
  once := fairSelect_perm queue limit
  balanced s t hleft := by
    have hcount : (ofSession s (flat (bySession (candidates queue)))).length = countOf s queue := by
      rw [ofSession_bySession,length_ofSession]
      exact countOf_perm s (candidates_perm queue)
    rw [← hcount,← length_ofSession] at hleft
    rw [← length_ofSession,← length_ofSession]
    exact (takeTurns_level limit (separate_bySession _) s t hleft).1
  firsts s := by
    obtain ⟨later,hlater⟩ := fairSelect_firsts queue limit s
    refine ⟨later,?_,?_⟩
    · rw [hlater]
      exact (candidates_perm queue).filter _
    · rw [hlater]
      exact (candidates_dueOrder queue).sublist List.filter_sublist

/-- Before an item of a prefix stand all that are strictly smaller. -/
theorem sublist_of_firsts {α κ : Type} [LinearOrder κ] {key : α → κ} {taken all : List α} {x y : α}
    (hfirsts : taken <+: all) (hsorted : all.Pairwise (fun a b => key a ≤ key b)) (hx : x ∈ all)
    (hy : y ∈ taken) (hlt : key x < key y) : List.Sublist [x,y] taken := by
  obtain ⟨later,rfl⟩ := hfirsts
  obtain ⟨front,back,rfl⟩ := List.append_of_mem hy
  have hfront : x ∈ front := by
    rw [List.append_assoc,List.cons_append] at hx hsorted
    rcases List.mem_append.mp hx with hx | hx
    · exact hx
    · rcases List.mem_cons.mp hx with rfl | hx
      · exact absurd hlt (lt_irrefl _)
      · have hle := (List.pairwise_cons.mp (List.pairwise_append.mp hsorted).2.1).1 x hx
        exact absurd hlt (not_lt.mpr hle)
  exact (List.singleton_sublist.mpr hfront).append (List.singleton_sublist.mpr List.mem_cons_self)

/-- An item is selected after those of its session that are due before it. -/
theorem fairSelect_inOrder {x y : QueuedChunk K} (hx : x ∈ queue)
    (hy : y ∈ fairSelect (candidates queue) limit)
    (hsession : x.chunk.sessionId = y.chunk.sessionId) (hdue : dueOrder x < dueOrder y) :
    List.Sublist [x,y] (fairSelect (candidates queue) limit) := by
  have hxs : x ∈ ofSession y.chunk.sessionId (candidates queue) :=
    List.mem_filter.mpr ⟨(candidates_perm queue).mem_iff.mpr hx,decide_eq_true hsession⟩
  have hys : y ∈ ofSession y.chunk.sessionId (fairSelect (candidates queue) limit) :=
    List.mem_filter.mpr ⟨hy,decide_eq_true rfl⟩
  have hsorted := (candidates_dueOrder queue).sublist (List.filter_sublist (p := fun item =>
    decide (item.chunk.sessionId = y.chunk.sessionId)))
  exact (sublist_of_firsts (fairSelect_firsts queue limit _) hsorted hxs hys hdue).trans
    List.filter_sublist

theorem Rounds.inOrder {force : Bool} {left : List (QueuedChunk K)}
    {batches : List (List (QueuedChunk K))} (h : Rounds limit force queue batches left)
    (horder : InOrder queue) {x y : QueuedChunk K} (hx : x ∈ queue) (hy : y ∈ queue)
    (hreturned : y ∈ batches.flatten) (hsession : x.chunk.sessionId = y.chunk.sessionId)
    (hdue : dueOrder x < dueOrder y) : List.Sublist [x,y] batches.flatten := by
  induction h with
  | empty => cases hx
  | @last queue hne hstop =>
    rw [List.flatten_singleton] at hreturned ⊢
    exact fairSelect_inOrder hx hreturned hsession hdue
  | @again queue left batches hne hready hrest ih =>
    rw [List.flatten_cons] at hreturned ⊢
    by_cases hnow : y ∈ fairSelect (candidates queue) limit
    · exact (fairSelect_inOrder hx hnow hsession hdue).trans (List.sublist_append_left _ _)
    · have hlater := (List.mem_append.mp hreturned).resolve_left hnow
      by_cases hfirst : x ∈ fairSelect (candidates queue) limit
      · exact (List.singleton_sublist.mpr hfirst).append (List.singleton_sublist.mpr hlater)
      · rw [mem_fairSelect_iff horder hx,not_lt] at hfirst
        rw [mem_fairSelect_iff horder hy,not_lt] at hnow
        exact (ih (inOrder_unselected horder limit) ((mem_unselected horder).mpr ⟨hx,hfirst⟩)
          ((mem_unselected horder).mpr ⟨hy,hnow⟩) hlater).trans (List.sublist_append_right _ _)

theorem Popped.inOrder {b : SpeakerMicroBatcher K} {nowMs : ℤ} {force : Bool} {bucket : Bucket}
    {left : List (QueuedChunk K)} {batches : List (List (QueuedChunk K))}
    (h : Popped b nowMs force bucket batches left) (horder : InOrder (b.queue bucket))
    {x y : QueuedChunk K} (hx : x ∈ b.queue bucket) (hy : y ∈ b.queue bucket)
    (hreturned : y ∈ batches.flatten) (hsession : x.chunk.sessionId = y.chunk.sessionId)
    (hdue : dueOrder x < dueOrder y) : List.Sublist [x,y] batches.flatten := by
  cases h with
  | empty hqueue => cases hreturned
  | stays hqueue hready => cases hreturned
  | rounds hqueue hready hrounds => exact hrounds.inOrder horder hx hy hreturned hsession hdue

end Selection

/-- Of two queued items of one session and one bucket, the one that is due later is not
returned unless the other one is returned before it. -/
def ReturnsInOrder (b : SpeakerMicroBatcher K) (nowMs : ℤ) (force : Bool) : Prop :=
  ∀ bucket, ∀ x ∈ b.queue bucket, ∀ y ∈ b.queue bucket,
    x.chunk.sessionId = y.chunk.sessionId → dueOrder x < dueOrder y →
    y ∈ (b.popReady nowMs force).1.flatten → List.Sublist [x,y] (b.popReady nowMs force).1.flatten

theorem Arrivals.returnsInOrder {b : SpeakerMicroBatcher K} (h : b.Arrivals)
    (hserials : (b.queued.map QueuedChunk.serial).Nodup) (nowMs : ℤ) (force : Bool) :
    b.ReturnsInOrder nowMs force := by
  intro bucket x hx y hy hsession hdue hreturned
  obtain ⟨batches,hpopped,hsublist⟩ := h.popped nowMs force bucket
  refine List.Sublist.trans ?_ hsublist.flatten
  -- what is returned no longer waits, so the queue of the item has returned it
  have hgone : y ∉ (b.popReady nowMs force).2.queue bucket := by
    intro hleft
    have hqueued : y ∈ (b.popReady nowMs force).2.queued :=
      List.mem_flatMap.mpr ⟨bucket,mem_sorted bucket,hleft⟩
    have hall := (popReady_perm nowMs force hserials).1.nodup_iff.mpr hserials.of_map
    exact (List.nodup_append.mp hall).2.2 y hreturned y hqueued rfl
  obtain ⟨batch,hbatch,hmem⟩ := hpopped.returned (h bucket).1 hy hgone
  exact hpopped.inOrder (h bucket).1 hx hy (List.mem_flatten.mpr ⟨batch,hbatch,hmem⟩) hsession hdue

end SpeakerMicroBatcher

namespace BatcherHistory
open SpeakerMicroBatcher
variable {K : Type} [FloatOps K]

/-- Sessions share every batch fairly, and no chunk overtakes an earlier one of its session. -/
theorem sessions_served_fairly (maxBatchSize : ℕ) (maxWaitMs dispatchSlackMs : ℤ)
    (perSessionPending : ℕ) (hbatch : 0 < maxBatchSize) (hwait : 0 < maxWaitMs)
    (hpending : 0 < perSessionPending) (calls : List (BatcherCall K)) :
    (∀ (queue : List (QueuedChunk K)) (limit : ℕ),
      FairlySelected queue limit (fairSelect (candidates queue) limit)) ∧
    ∀ nowMs force, (reached maxBatchSize maxWaitMs dispatchSlackMs perSessionPending hbatch hwait
      hpending calls).ReturnsInOrder nowMs force := by
  refine ⟨fairlySelected,fun nowMs force => Arrivals.returnsInOrder ?_ ?_ nowMs force⟩
  · exact arrivals_run calls (fun bucket => ⟨.nil,fun item hitem => by cases hitem⟩)
  · exact ((regular_start _ rfl rfl rfl).run calls).conserved.serials

/-- Of three clips the second is due first in its session, and its batch is shared with the
other session. -/
theorem sessions_served_fairly_three :
    let b := reached 2 20 5 8 (by decide) (by decide) (by decide)
      [.enqueue (clip "a" "a1" (some 900) (by decide) (by decide)) 0,
        .enqueue (clip "a" "a2" (some 100) (by decide) (by decide)) 0,
        .enqueue (clip "b" "b1" (some 900) (by decide) (by decide)) 0]
    (b.popReady 0 true).1.map (fun batch => batch.map QueuedChunk.serial) = [[1,2],[0]] ∧
      FairlySelected (b.queue .short) 2 (fairSelect (candidates (b.queue .short)) 2) ∧
      b.ReturnsInOrder 0 true := by
  intro b
  obtain ⟨hfair,horder⟩ := sessions_served_fairly 2 20 5 8 (by decide) (by decide)
    (by decide) [.enqueue (clip "a" "a1" (some 900) (by decide) (by decide)) 0,
      .enqueue (clip "a" "a2" (some 100) (by decide) (by decide)) 0,
      .enqueue (clip "b" "b1" (some 900) (by decide) (by decide)) 0]
  exact ⟨by decide +kernel,hfair (b.queue .short) 2,horder 0 true⟩

end BatcherHistory
end CueBee.Speaker
