import Mathlib.Algebra.GroupWithZero.Nat
import Mathlib.Data.Prod.Lex
import CueBee.Support.StableSort
import CueBee.Speaker.BatchConservation

/-! # Whose turn it is

`fairSelect` takes the sessions in turns, so that an item waits for those of its own session
that go first and for as many turns of the other sessions. `turn` counts them on the queue.
-/
namespace CueBee.Speaker
open Cache

/-- In a list in strictly increasing order, the smaller elements are those in front. -/
theorem countP_lt_getElem {α κ : Type} [LinearOrder κ] (key : α → κ) {l : List α}
    (hl : l.Pairwise (fun a b => key a < key b)) {i : ℕ} {x : α} (hx : l[i]? = some x) :
    l.countP (fun y => key y < key x) = i := by
  induction l generalizing i with
  | nil => cases hx
  | cons a l ih =>
    obtain ⟨hhead,htail⟩ := List.pairwise_cons.mp hl
    cases i with
    | zero =>
      rw [List.getElem?_cons_zero,Option.some.injEq] at hx
      subst hx
      refine List.countP_eq_zero.mpr (fun y hy => ?_)
      rcases List.mem_cons.mp hy with rfl | hy
      · simp
      · simpa using (hhead y hy).le
    | succ i =>
      rw [List.getElem?_cons_succ] at hx
      have hlt : key a < key x := hhead x (List.mem_of_getElem? hx)
      rw [List.countP_cons,ih htail hx]
      simp [hlt]

/-- Of a list whose elements are ranked by their places, `min` many have a rank below `k`. -/
theorem countP_rank {α : Type} (rank : α → ℕ) {l : List α}
    (hl : ∀ i x, l[i]? = some x → rank x = i) (k : ℕ) :
    l.countP (fun y => rank y < k) = min l.length k := by
  induction l generalizing rank k with
  | nil => simp
  | cons a l ih =>
    have ha : rank a = 0 := hl 0 a rfl
    have hshift : ∀ i x, l[i]? = some x → rank x - 1 = i := by
      intro i x hx
      rw [hl (i + 1) x hx,Nat.add_sub_cancel]
    cases k with
    | zero => simp
    | succ k =>
      have htail : l.countP (fun y => rank y < k + 1) = l.countP (fun y => rank y - 1 < k) := by
        refine List.countP_congr (fun y hy => ?_)
        obtain ⟨i,hi⟩ := List.mem_iff_getElem?.mp hy
        have hy1 := hl (i + 1) y hi
        simp only [decide_eq_true_eq]
        omega
      rw [List.countP_cons,htail,ih (fun y => rank y - 1) hshift k]
      simp [ha]

namespace SpeakerMicroBatcher
variable {K : Type}

def flat (groups : List (QueuedChunk K × List (QueuedChunk K))) : List (QueuedChunk K) :=
  groups.flatMap (fun g => g.1 :: g.2)

/-- The turns before the item at depth `i` of a group: one more of each group before it. -/
def ahead (pre post : List (QueuedChunk K × List (QueuedChunk K))) (i : ℕ) : ℕ :=
  (pre.map (fun g => min (g.2.length + 1) (i + 1))).sum +
    (post.map (fun g => min (g.2.length + 1) i)).sum + i

theorem flat_cons (g : QueuedChunk K × List (QueuedChunk K))
    (groups : List (QueuedChunk K × List (QueuedChunk K))) :
    flat (g :: groups) = g.1 :: (g.2 ++ flat groups) := rfl

theorem flat_append (groups more : List (QueuedChunk K × List (QueuedChunk K))) :
    flat (groups ++ more) = flat groups ++ flat more := List.flatMap_append

/-- The groups after the first item has been taken. -/
theorem nodup_flat_rotate {item next : QueuedChunk K} {rest : List (QueuedChunk K)}
    {groups : List (QueuedChunk K × List (QueuedChunk K))}
    (h : (flat ((item,next :: rest) :: groups)).Nodup) :
    (flat (groups ++ [(next,rest)])).Nodup := by
  have hshape : flat (groups ++ [(next,rest)]) = flat groups ++ next :: rest := by
    rw [flat_append,flat_cons]
    simp [flat]
  rw [hshape]
  exact List.perm_append_comm.nodup_iff.mp (List.nodup_cons.mp h).2

/-- An item is selected exactly if there is room for the turns before it. -/
theorem mem_takeTurns {room i : ℕ} {g : QueuedChunk K × List (QueuedChunk K)}
    {pre post : List (QueuedChunk K × List (QueuedChunk K))} {x : QueuedChunk K}
    (hx : (g.1 :: g.2)[i]? = some x) (hnodup : (flat (pre ++ g :: post)).Nodup) :
    x ∈ takeTurns room (pre ++ g :: post) ↔ ahead pre post i < room := by
  induction room generalizing pre g post i with
  | zero => simp [takeTurns]
  | succ room ih =>
    cases pre with
    | nil =>
      obtain ⟨item,rest⟩ := g
      cases i with
      | zero =>
        obtain rfl : item = x := by simpa using hx
        have hroom : ahead [] post 0 < room + 1 := by simp [ahead]
        cases rest <;> exact iff_of_true List.mem_cons_self hroom
      | succ i =>
        cases rest with
        | nil => simp at hx
        | cons next rest =>
          have hxi : (next :: rest)[i]? = some x := by simpa using hx
          have hne : x ≠ item := by
            rintro rfl
            exact (List.nodup_cons.mp hnodup).1
              (List.mem_append_left _ (List.mem_of_getElem? hxi))
          have hrest : x ∈ takeTurns room (post ++ [(next,rest)]) ↔ ahead post [] i < room :=
            ih hxi (nodup_flat_rotate hnodup)
          show x ∈ item :: takeTurns room (post ++ [(next,rest)]) ↔ _
          rw [List.mem_cons,or_iff_right hne,hrest]
          simp only [ahead,List.map_nil,List.sum_nil]
          omega
    | cons first pre =>
      obtain ⟨item,rest⟩ := first
      have hmem : x ∈ flat (pre ++ g :: post) := by
        rw [flat_append,flat_cons]
        refine List.mem_append_right _ (?_ : x ∈ (g.1 :: g.2) ++ flat post)
        exact List.mem_append_left _ (List.mem_of_getElem? hx)
      have hne : x ≠ item := by
        rintro rfl
        exact (List.nodup_cons.mp hnodup).1 (List.mem_append_right _ hmem)
      cases rest with
      | nil =>
        have hrest := ih hx (List.nodup_cons.mp hnodup).2
        show x ∈ item :: takeTurns room (pre ++ g :: post) ↔ _
        rw [List.mem_cons,or_iff_right hne,hrest]
        simp only [ahead,List.map_cons,List.sum_cons,List.length_nil]
        omega
      | cons next rest =>
        have hrotated : (flat ((pre ++ g :: post) ++ [(next,rest)])).Nodup :=
          nodup_flat_rotate hnodup
        have hshape : (pre ++ g :: post) ++ [(next,rest)] = pre ++ g :: (post ++ [(next,rest)]) := by
          simp
        rw [hshape] at hrotated
        have hrest := ih hx hrotated
        show x ∈ item :: takeTurns room ((pre ++ g :: post) ++ [(next,rest)]) ↔ _
        rw [List.mem_cons,or_iff_right hne,hshape,hrest]
        simp only [ahead,List.map_cons,List.sum_cons,List.length_cons,List.map_append,
          List.sum_append,List.map_nil,List.sum_nil]
        omega

theorem length_takeTurns (room : ℕ) (groups : List (QueuedChunk K × List (QueuedChunk K))) :
    (takeTurns room groups).length = min room (flat groups).length := by
  induction room, groups using takeTurns.induct with
  | case1 groups => simp [takeTurns]
  | case2 room => cases room <;> simp [takeTurns,flat]
  | case3 room item groups ih =>
    rw [takeTurns,List.length_cons,ih,flat_cons]
    simp
  | case4 room item next rest groups ih =>
    rw [takeTurns,List.length_cons,ih,flat_cons,flat_append,flat_cons]
    simp [flat]
    omega

/-- Items of one session are taken by deadline, then by arrival. -/
def dueKey (item : QueuedChunk K) : ℤ ×ₗ ℤ ×ₗ ℕ :=
  toLex (item.deadlineMs,toLex (item.enqueuedMs,item.serial))

/-- The number of items of the same session that are taken first. -/
def rank (queue : List (QueuedChunk K)) (x : QueuedChunk K) : ℕ :=
  queue.countP (fun y => y.chunk.sessionId = x.chunk.sessionId ∧ dueKey y < dueKey x)

/-- The number of items whose turn comes before that of `x`: those of lower rank, and those of
the same rank whose session has the smaller name. -/
def turn (queue : List (QueuedChunk K)) (x : QueuedChunk K) : ℕ :=
  queue.countP (fun y => rank queue y < rank queue x ∨
    rank queue y = rank queue x ∧ y.chunk.sessionId < x.chunk.sessionId)

/-- The queue holds its items in the order of their arrival. -/
def InOrder (queue : List (QueuedChunk K)) : Prop :=
  queue.Pairwise (fun x y => x.serial < y.serial)

theorem dueBefore_iff {x y : QueuedChunk K} (h : x.serial < y.serial) :
    dueBefore x y = true ↔ dueKey x < dueKey y := by
  simp only [dueBefore,dueKey,Prod.Lex.toLex_lt_toLex,Bool.or_eq_true,Bool.and_eq_true,
    decide_eq_true_eq]
  omega

theorem dueKey_total {x y : QueuedChunk K} (h : x.serial < y.serial)
    (hnot : ¬dueKey x < dueKey y) : dueKey y < dueKey x := by
  rcases lt_trichotomy (dueKey x) (dueKey y) with hlt | heq | hgt
  · exact absurd hlt hnot
  · have hserial : x.serial = y.serial := congrArg (fun k => (ofLex (ofLex k).2).2) heq
    omega
  · exact hgt

/-- The sort is stable, so that ties keep the order of arrival. -/
theorem candidates_sorted {queue : List (QueuedChunk K)} (h : InOrder queue) :
    (candidates queue).Pairwise (fun x y => dueKey x < dueKey y) := by
  apply pairwise_insertionSort
  · intro x y z
    exact lt_trans
  · refine List.Pairwise.imp (fun hserial => ⟨(dueBefore_iff hserial).mp,fun hnot => ?_⟩) h
    exact dueKey_total hserial (fun hlt => hnot ((dueBefore_iff hserial).mpr hlt))

def ofSession (sessionId : SessionId) (items : List (QueuedChunk K)) : List (QueuedChunk K) :=
  items.filter (fun item => item.chunk.sessionId = sessionId)

theorem rank_ofSession {queue : List (QueuedChunk K)} (h : InOrder queue) (s : SessionId) :
    ∀ i x, (ofSession s (candidates queue))[i]? = some x → rank queue x = i := by
  intro i x hx
  have hsession : x.chunk.sessionId = s := by
    simpa using (List.mem_filter.mp (List.mem_of_getElem? hx)).2
  have hsorted := (candidates_sorted h).sublist (List.filter_sublist (p := fun item =>
    decide (item.chunk.sessionId = s)))
  rw [← countP_lt_getElem dueKey hsorted hx,List.countP_filter,rank,hsession]
  rw [(candidates_perm queue).countP_eq]
  refine List.countP_congr (fun y _ => ?_)
  simp only [Bool.and_eq_true,decide_eq_true_eq]
  exact and_comm

/-- The group that `bySession` makes of a session, if it has items. -/
def group (items : List (QueuedChunk K)) (sessionId : SessionId) :
    Option (QueuedChunk K × List (QueuedChunk K)) :=
  match ofSession sessionId items with
  | [] => none
  | item :: rest => some (item,rest)

theorem group_eq {items : List (QueuedChunk K)} {s : SessionId}
    {g : QueuedChunk K × List (QueuedChunk K)} (h : group items s = some g) :
    g.1 :: g.2 = ofSession s items := by
  unfold group at h
  cases hitems : ofSession s items with
  | nil =>
    rw [hitems] at h
    cases h
  | cons item rest =>
    rw [hitems] at h
    cases h
    rfl

/-- The groups stand in the order of the session names. -/
theorem bySession_eq (items : List (QueuedChunk K)) : ∃ sessions : List SessionId,
    bySession items = sessions.filterMap (group items) ∧ sessions.Pairwise (· < ·) ∧
    ∀ x ∈ items, x.chunk.sessionId ∈ sessions := by
  refine ⟨_,rfl,?_,fun x hx => ?_⟩
  · have hdistinct := (List.perm_insertionSort (fun s t : SessionId => s ≤ t)
      (items.map (fun item => item.chunk.sessionId)).dedup).nodup_iff.mpr (List.nodup_dedup _)
    have hsorted := List.pairwise_insertionSort (fun s t : SessionId => s ≤ t)
      (items.map (fun item => item.chunk.sessionId)).dedup
    exact (hsorted.and hdistinct).imp (fun h => lt_of_le_of_ne h.1 h.2)
  · exact (List.mem_insertionSort _).mpr (List.mem_dedup.mpr (List.mem_map.mpr ⟨x,hx,rfl⟩))

/-- The turns that a group takes before the item `x` of another session. -/
theorem countP_group {queue : List (QueuedChunk K)} (h : InOrder queue) {s : SessionId}
    {g : QueuedChunk K × List (QueuedChunk K)} (hg : group (candidates queue) s = some g)
    (x : QueuedChunk K) :
    (g.1 :: g.2).countP (fun y => rank queue y < rank queue x ∨
      rank queue y = rank queue x ∧ y.chunk.sessionId < x.chunk.sessionId) =
    min (g.2.length + 1) (rank queue x + if s < x.chunk.sessionId then 1 else 0) := by
  rw [group_eq hg]
  have hcount := countP_rank (rank queue) (rank_ofSession h s)
    (rank queue x + if s < x.chunk.sessionId then 1 else 0)
  rw [← group_eq hg,List.length_cons,group_eq hg] at hcount
  rw [← hcount]
  refine List.countP_congr (fun y hy => ?_)
  have hsession : y.chunk.sessionId = s := by simpa using (List.mem_filter.mp hy).2
  simp only [decide_eq_true_eq,hsession]
  split
  · next hlt =>
    simp only [hlt,and_true]
    omega
  · next hlt => simp [hlt]

theorem countP_groups {queue : List (QueuedChunk K)} (h : InOrder queue) (x : QueuedChunk K)
    (k : ℕ) {sessions : List SessionId}
    (hk : ∀ s ∈ sessions, rank queue x + (if s < x.chunk.sessionId then 1 else 0) = k) :
    (flat (sessions.filterMap (group (candidates queue)))).countP (fun y =>
      rank queue y < rank queue x ∨
        rank queue y = rank queue x ∧ y.chunk.sessionId < x.chunk.sessionId) =
    ((sessions.filterMap (group (candidates queue))).map (fun g =>
      min (g.2.length + 1) k)).sum := by
  rw [flat,List.countP_flatMap]
  congr 1
  refine List.map_congr_left (fun g hg => ?_)
  obtain ⟨s,hs,hgroup⟩ := List.mem_filterMap.mp hg
  rw [← hk s hs,← countP_group h hgroup x]
  rfl

/-- A batch takes the items whose turn comes within the limit. -/
theorem mem_fairSelect_iff {queue : List (QueuedChunk K)} (h : InOrder queue) {limit : ℕ}
    {x : QueuedChunk K} (hx : x ∈ queue) :
    x ∈ fairSelect (candidates queue) limit ↔ turn queue x < limit := by
  have hcandidate := (candidates_perm queue).mem_iff.mpr hx
  obtain ⟨sessions,hbySession,hsorted,hall⟩ := bySession_eq (candidates queue)
  obtain ⟨pre,post,rfl⟩ := List.append_of_mem (hall x hcandidate)
  have hxc : x ∈ ofSession x.chunk.sessionId (candidates queue) :=
    List.mem_filter.mpr ⟨hcandidate,by simp⟩
  obtain ⟨g,hg⟩ : ∃ g, group (candidates queue) x.chunk.sessionId = some g := by
    cases hitems : ofSession x.chunk.sessionId (candidates queue) with
    | nil =>
      rw [hitems] at hxc
      cases hxc
    | cons item rest => exact ⟨(item,rest),by rw [group,hitems]⟩
  have hgroups : bySession (candidates queue) = pre.filterMap (group (candidates queue)) ++
      g :: post.filterMap (group (candidates queue)) := by
    rw [hbySession,List.filterMap_append,List.filterMap_cons,hg]
  obtain ⟨i,hi⟩ := List.mem_iff_getElem?.mp hxc
  have hrank := rank_ofSession h _ i x hi
  have hflat : (flat (bySession (candidates queue))).Perm queue :=
    (bySession_perm _).trans (candidates_perm queue)
  have hnodup : queue.Nodup := h.imp (fun hlt heq => by rw [heq] at hlt; exact lt_irrefl _ hlt)
  have hturn : turn queue x = ahead (pre.filterMap (group (candidates queue)))
      (post.filterMap (group (candidates queue))) i := by
    obtain ⟨-,hpost,hpre⟩ := List.pairwise_append.mp hsorted
    have hbefore : ∀ s ∈ pre, s < x.chunk.sessionId := fun s hs => hpre s hs _ List.mem_cons_self
    have hafter : ∀ s ∈ post, ¬s < x.chunk.sessionId := fun s hs =>
      not_lt.mpr ((List.pairwise_cons.mp hpost).1 s hs).le
    rw [turn,← hflat.countP_eq,hgroups,flat_append,List.countP_append]
    rw [countP_groups h x (i + 1) (fun s hs => by rw [if_pos (hbefore s hs),hrank])]
    rw [show flat (g :: post.filterMap (group (candidates queue))) =
      (g.1 :: g.2) ++ flat (post.filterMap (group (candidates queue))) from rfl,List.countP_append]
    rw [countP_groups h x i (fun s hs => by rw [if_neg (hafter s hs),hrank,Nat.add_zero])]
    rw [countP_group h hg x,if_neg (lt_irrefl _),hrank,ahead]
    have hlength : i < g.2.length + 1 := by
      rw [← List.length_cons,group_eq hg]
      exact (List.getElem?_eq_some_iff.mp hi).1
    omega
  rw [fairSelect,hgroups,mem_takeTurns (by rw [group_eq hg]; exact hi),hturn]
  rw [← hgroups]
  exact hflat.nodup_iff.mpr hnodup

end SpeakerMicroBatcher
end CueBee.Speaker
