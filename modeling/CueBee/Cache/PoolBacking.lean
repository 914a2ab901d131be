import CueBee.Cache.BlockPool

/-! # References that a pool backs

`Backed pool refs` says that the references outside the pool and the counts inside it
agree. Each pool operation is given by one lemma: under `Backed` it does not raise, it
restores `Backed` for the changed list of references, and it changes the tokens of no
block that a remaining reference names.
-/
namespace CueBee.Cache
open Raising

/-- What a reference says about its block: the block's id and the number of tokens. -/
abbrev Footprint := ℕ × ℕ

/-- The pool holds exactly the blocks of the references `refs`, with exact counts. -/
structure Backed (pool : BlockPool) (refs : List Footprint) : Prop where
  counted : ∀ b, pool.refCount b = (refs.map Prod.fst).count b
  live : ∀ b block, pool.blocks.get? b = some block → 0 < block.refCount
  sized : ∀ b block, pool.blocks.get? b = some block →
    0 < block.tokenIds.length ∧ block.tokenIds.length ≤ pool.blockSize
  spans : ∀ r ∈ refs, r.2 = (pool.tokens r.1).length
  fresh : ∀ b block, pool.blocks.get? b = some block → b < pool.nextBlockId
  ledger : pool.blocksAllocated = pool.blocksFreed + pool.blocks.size

theorem backed_init (blockSize : ℕ) (h : 0 < blockSize) : Backed (BlockPool.init blockSize h) [] where
  counted b := by simp [BlockPool.refCount,BlockPool.init]
  live b block hb := by simp [BlockPool.init] at hb
  sized b block hb := by simp [BlockPool.init] at hb
  spans r hr := by simp at hr
  fresh b block hb := by simp [BlockPool.init] at hb
  ledger := by simp [BlockPool.init,Dict.size,Dict.empty]

namespace Backed
variable {pool : BlockPool} {refs : List Footprint} {r : Footprint}

theorem perm (h : Backed pool refs) {refs' : List Footprint} (hp : refs.Perm refs') :
    Backed pool refs' where
  counted b := (h.counted b).trans ((hp.map Prod.fst).count_eq b)
  live := h.live
  sized := h.sized
  spans r hr := h.spans r (hp.mem_iff.mpr hr)
  fresh := h.fresh
  ledger := h.ledger

theorem lookup (h : Backed pool refs) (hr : r ∈ refs) :
    ∃ block, pool.blocks.get? r.1 = some block ∧ r.2 = block.tokenIds.length ∧
      block.refCount = (refs.map Prod.fst).count r.1 := by
  have hpos : 0 < (refs.map Prod.fst).count r.1 :=
    List.count_pos_iff.mpr (List.mem_map.mpr ⟨r,hr,rfl⟩)
  have hc := h.counted r.1
  cases hb : pool.blocks.get? r.1 with
  | none =>
    simp only [BlockPool.refCount,hb] at hc
    omega
  | some block =>
    refine ⟨block,rfl,?_,?_⟩
    · rw [h.spans r hr,BlockPool.tokens_of_some hb]
    · rw [← hc,BlockPool.refCount_of_some hb]

theorem notMem_fresh (h : Backed pool refs) : pool.nextBlockId ∉ refs.map Prod.fst := by
  intro hm
  obtain ⟨r,hr,hrn⟩ := List.mem_map.mp hm
  obtain ⟨block,hb,-,-⟩ := h.lookup hr
  have hlt := h.fresh r.1 block hb
  omega

theorem lookup_fresh (h : Backed pool refs) : pool.blocks.get? pool.nextBlockId = none := by
  cases hb : pool.blocks.get? pool.nextBlockId with
  | none => rfl
  | some block => exact absurd (h.fresh _ _ hb) (Nat.lt_irrefl _)

theorem length_pos (h : Backed pool refs) (hr : r ∈ refs) : 0 < r.2 := by
  obtain ⟨block,hb,hlen,-⟩ := h.lookup hr
  rw [hlen]
  exact (h.sized _ _ hb).1

theorem length_le (h : Backed pool refs) (hr : r ∈ refs) : r.2 ≤ pool.blockSize := by
  obtain ⟨block,hb,hlen,-⟩ := h.lookup hr
  rw [hlen]
  exact (h.sized _ _ hb).2

theorem get_ok (h : Backed pool refs) (hr : r ∈ refs) :
    ∃ block, BlockPool.get r.1 pool = .ok block pool ∧ block.tokenIds = pool.tokens r.1 ∧
      block.refCount = (refs.map Prod.fst).count r.1 := by
  obtain ⟨block,hb,-,hcount⟩ := h.lookup hr
  exact ⟨block,BlockPool.get_ok hb,(BlockPool.tokens_of_some hb).symm,hcount⟩

theorem ne_of_notMem {b : ℕ} (hb : b ∉ refs.map Prod.fst) {s : Footprint} (hs : s ∈ refs) :
    s.1 ≠ b := fun he => hb (he ▸ List.mem_map.mpr ⟨s,hs,rfl⟩)

/-- Overwriting a block that the pool holds, for a list of references that agrees with
the block's new count and length and is otherwise as before. -/
theorem store (h : Backed pool refs) {b : ℕ} {block : PhysicalBlock}
    (hb : pool.blocks.get? b = some block) (block' : PhysicalBlock) (hlive : 0 < block'.refCount)
    (hsize : 0 < block'.tokenIds.length ∧ block'.tokenIds.length ≤ pool.blockSize)
    {refs' : List Footprint}
    (hcount : ∀ c, (refs'.map Prod.fst).count c =
      if c = b then block'.refCount else (refs.map Prod.fst).count c)
    (hspan : ∀ s ∈ refs', s.2 =
      if s.1 = b then block'.tokenIds.length else (pool.tokens s.1).length) :
    Backed (pool.store b block') refs' where
  counted c := by
    rw [hcount,BlockPool.refCount_store,h.counted]
  live c blk hc := by
    rw [BlockPool.store,Dict.get?_set] at hc
    by_cases hcb : c = b
    · rw [if_pos hcb,Option.some.injEq] at hc
      exact hc ▸ hlive
    · rw [if_neg hcb] at hc
      exact h.live c blk hc
  sized c blk hc := by
    rw [BlockPool.store,Dict.get?_set] at hc
    by_cases hcb : c = b
    · rw [if_pos hcb,Option.some.injEq] at hc
      exact hc ▸ hsize
    · rw [if_neg hcb] at hc
      exact h.sized c blk hc
  spans s hs := by
    rw [hspan s hs,BlockPool.tokens_store]
    split <;> rfl
  fresh c blk hc := by
    rw [BlockPool.store,Dict.get?_set] at hc
    by_cases hcb : c = b
    · exact hcb ▸ h.fresh b block hb
    · rw [if_neg hcb] at hc
      exact h.fresh c blk hc
  ledger := by
    simp only [BlockPool.store,Dict.size_set_of_some hb]
    exact h.ledger

/-- A new count for a block whose tokens stay. -/
theorem recount (h : Backed pool refs) {block : PhysicalBlock}
    (hb : pool.blocks.get? r.1 = some block) (count : ℕ) (hlive : 0 < count)
    (refs' : List Footprint)
    (hcount : ∀ c, (refs'.map Prod.fst).count c =
      if c = r.1 then count else (refs.map Prod.fst).count c)
    (hspan : ∀ s ∈ refs', s ∈ refs) :
    Backed (pool.store r.1 { block with refCount := count }) refs' ∧
      ∀ c, (pool.store r.1 { block with refCount := count }).tokens c = pool.tokens c := by
  have hsize := h.sized _ _ hb
  refine ⟨h.store hb { block with refCount := count } hlive hsize hcount ?_,?_⟩
  · intro s hs
    rw [h.spans s (hspan s hs)]
    split
    · rename_i hsr
      rw [hsr,BlockPool.tokens_of_some hb]
    · rfl
  · intro c
    rw [BlockPool.tokens_store]
    split
    · rename_i hcr
      rw [hcr,BlockPool.tokens_of_some hb]
    · rfl

theorem count_alone (h : Backed pool (r :: refs)) (hr : r.1 ∉ refs.map Prod.fst) :
    ∃ block, pool.blocks.get? r.1 = some block ∧ block.refCount = 1 ∧
      block.tokenIds = pool.tokens r.1 ∧ r.2 = block.tokenIds.length := by
  obtain ⟨block,hb,hlen,hcount⟩ := h.lookup List.mem_cons_self
  rw [List.map_cons,List.count_cons_self,List.count_eq_zero.mpr hr] at hcount
  exact ⟨block,hb,hcount,(BlockPool.tokens_of_some hb).symm,hlen⟩

/-- New tokens for a block that only the reference `r` names. -/
theorem rewrite (h : Backed pool (r :: refs)) (hr : r.1 ∉ refs.map Prod.fst)
    {block : PhysicalBlock} (hb : pool.blocks.get? r.1 = some block)
    (hone : block.refCount = 1) (tokenIds : List Token)
    (hsize : 0 < tokenIds.length ∧ tokenIds.length ≤ pool.blockSize) :
    Backed (pool.store r.1 { block with tokenIds := tokenIds }) ((r.1,tokenIds.length) :: refs) := by
  apply h.store hb { block with tokenIds := tokenIds } (by simp [hone]) hsize
  · intro c
    by_cases hc : c = r.1
    · subst hc
      simp [List.count_eq_zero.mpr hr,hone]
    · simp [hc]
  · intro s hs
    rcases List.mem_cons.mp hs with rfl | hs
    · rw [if_pos rfl]
    · rw [if_neg (ne_of_notMem hr hs)]
      exact h.spans s (List.mem_cons_of_mem _ hs)

theorem allocate (h : Backed pool refs) {tokenIds : List Token} (hpos : 0 < tokenIds.length)
    (hle : tokenIds.length ≤ pool.blockSize) :
    BlockPool.allocate tokenIds pool = .ok pool.nextBlockId (pool.install tokenIds) ∧
      Backed (pool.install tokenIds) ((pool.nextBlockId,tokenIds.length) :: refs) ∧
      ∀ s ∈ refs, (pool.install tokenIds).tokens s.1 = pool.tokens s.1 := by
  have hne : ¬(tokenIds = [] ∨ pool.blockSize < tokenIds.length) := by
    rintro (rfl | hlt)
    · simp at hpos
    · omega
  have hframe : ∀ s ∈ refs, (pool.install tokenIds).tokens s.1 = pool.tokens s.1 := by
    intro s hs
    rw [BlockPool.tokens_install,if_neg (ne_of_notMem h.notMem_fresh hs)]
  refine ⟨by simp only [BlockPool.allocate,if_neg hne],?_,hframe⟩
  refine ⟨?_,?_,?_,?_,?_,?_⟩
  · intro b
    rw [BlockPool.refCount_install,h.counted]
    by_cases hb : b = pool.nextBlockId
    · subst hb
      simp [List.count_eq_zero.mpr h.notMem_fresh]
    · simp [hb,List.count_cons_of_ne (Ne.symm hb)]
  · intro b block hb
    rw [BlockPool.install,Dict.get?_set] at hb
    split at hb
    · cases hb
      exact Nat.one_pos
    · exact h.live b block hb
  · intro b block hb
    rw [BlockPool.install,Dict.get?_set] at hb
    split at hb
    · cases hb
      exact ⟨hpos,hle⟩
    · exact h.sized b block hb
  · intro s hs
    rcases List.mem_cons.mp hs with rfl | hs
    · simp [BlockPool.tokens_install]
    · rw [hframe s hs]
      exact h.spans s hs
  · intro b block hb
    rw [BlockPool.install,Dict.get?_set] at hb
    show b < pool.nextBlockId + 1
    split at hb
    · omega
    · exact Nat.lt_succ_of_lt (h.fresh b block hb)
  · have hl := h.ledger
    simp only [BlockPool.install,Dict.size_set_of_none h.lookup_fresh]
    omega

theorem incref (h : Backed pool refs) (hr : r ∈ refs) :
    ∃ next, BlockPool.incref r.1 pool = .ok () next ∧ Backed next (r :: refs) ∧
      (∀ b, next.tokens b = pool.tokens b) ∧ next.blockSize = pool.blockSize := by
  obtain ⟨block,hb,-,hcount⟩ := h.lookup hr
  obtain ⟨hback,htok⟩ := h.recount hb (block.refCount + 1) (Nat.succ_pos _) (r :: refs)
    (by
      intro c
      by_cases hc : c = r.1
      · subst hc
        simp [hcount]
      · simp [hc,List.count_cons_of_ne (Ne.symm hc)])
    (by
      intro s hs
      rcases List.mem_cons.mp hs with rfl | hs
      · exact hr
      · exact hs)
  refine ⟨_,?_,hback,htok,rfl⟩
  simp only [BlockPool.incref,bind_ok (BlockPool.get_ok hb),modify_apply]

/-- Dropping one reference frees the block exactly when no other reference names it. -/
theorem decref (h : Backed pool (r :: refs)) :
    ∃ freed next, BlockPool.decref r.1 pool = .ok freed next ∧ Backed next refs ∧
      (freed = true ↔ r.1 ∉ refs.map Prod.fst) ∧
      (∀ s ∈ refs, next.tokens s.1 = pool.tokens s.1) ∧ next.blockSize = pool.blockSize := by
  obtain ⟨block,hb,-,hcount⟩ := h.lookup List.mem_cons_self
  rw [List.map_cons,List.count_cons_self] at hcount
  have hne : ¬block.refCount = 0 := by omega
  by_cases hmore : block.refCount - 1 ≠ 0
  · have hin : r.1 ∈ refs.map Prod.fst := List.count_pos_iff.mp (by omega)
    obtain ⟨hback,htok⟩ := h.recount hb _ (Nat.pos_of_ne_zero hmore) refs
      (by
        intro c
        by_cases hc : c = r.1
        · subst hc
          rw [if_pos rfl]
          omega
        · simp [hc,Ne.symm hc])
      (fun s hs => List.mem_cons_of_mem _ hs)
    refine ⟨false,_,?_,hback,by simpa using hin,fun s _ => htok s.1,rfl⟩
    simp only [BlockPool.decref,bind_ok (BlockPool.get_ok hb),if_neg hne,if_pos hmore]
    rfl
  · have hout : r.1 ∉ refs.map Prod.fst := List.count_eq_zero.mp (by omega)
    have hkeep : ∀ b blk, (pool.discard r.1).blocks.get? b = some blk →
        pool.blocks.get? b = some blk := by
      intro b blk hblk
      rw [BlockPool.discard,Dict.get?_erase] at hblk
      split at hblk
      · cases hblk
      · exact hblk
    have hframe : ∀ s ∈ refs, (pool.discard r.1).tokens s.1 = pool.tokens s.1 := by
      intro s hs
      rw [BlockPool.tokens_discard,if_neg (ne_of_notMem hout hs)]
    refine ⟨true,pool.discard r.1,?_,?_,by simpa using hout,hframe,rfl⟩
    · simp only [BlockPool.decref,bind_ok (BlockPool.get_ok hb),if_neg hne,if_neg hmore]
      rfl
    · refine ⟨?_,fun b blk hblk => h.live b blk (hkeep b blk hblk),
        fun b blk hblk => h.sized b blk (hkeep b blk hblk),?_,
        fun b blk hblk => h.fresh b blk (hkeep b blk hblk),?_⟩
      · intro b
        rw [BlockPool.refCount_discard,h.counted]
        by_cases hbr : b = r.1
        · subst hbr
          rw [if_pos rfl,List.count_eq_zero.mpr hout]
        · simp [hbr,Ne.symm hbr]
      · intro s hs
        rw [hframe s hs]
        exact h.spans s (List.mem_cons_of_mem _ hs)
      · have hl := h.ledger
        have hs := Dict.size_erase_of_some hb
        show pool.blocksAllocated = pool.blocksFreed + 1 + (pool.blocks.erase r.1).size
        omega

theorem extend (h : Backed pool (r :: refs)) (hr : r.1 ∉ refs.map Prod.fst)
    {tokenIds : List Token} (hle : r.2 + tokenIds.length ≤ pool.blockSize) :
    ∃ next, BlockPool.extend r.1 tokenIds pool = .ok () next ∧
      Backed next ((r.1,r.2 + tokenIds.length) :: refs) ∧
      next.tokens r.1 = pool.tokens r.1 ++ tokenIds ∧
      (∀ s ∈ refs, next.tokens s.1 = pool.tokens s.1) ∧ next.blockSize = pool.blockSize := by
  obtain ⟨block,hb,hone,htok,hlen⟩ := h.count_alone hr
  have hsize := (h.sized _ _ hb).1
  refine ⟨pool.store r.1 { block with tokenIds := block.tokenIds ++ tokenIds },?_,?_,?_,?_,rfl⟩
  · have hcap : ¬pool.blockSize < block.tokenIds.length + tokenIds.length := by omega
    simp only [BlockPool.extend,bind_ok (BlockPool.get_ok hb),bind_ok (get_apply pool),hone,
      ne_eq,not_true_eq_false,if_false,if_neg hcap,modify_apply]
  · have hw := h.rewrite hr hb hone (block.tokenIds ++ tokenIds)
      (by rw [List.length_append]; omega)
    rwa [List.length_append,← hlen] at hw
  · rw [BlockPool.tokens_store,if_pos rfl,htok]
  · intro s hs
    rw [BlockPool.tokens_store,if_neg (ne_of_notMem hr hs)]

theorem truncate (h : Backed pool (r :: refs)) (hr : r.1 ∉ refs.map Prod.fst) (length : ℕ)
    (hpos : 0 < length) (hle : length ≤ r.2) :
    ∃ next, BlockPool.truncate r.1 length pool = .ok () next ∧
      Backed next ((r.1,length) :: refs) ∧
      next.tokens r.1 = (pool.tokens r.1).take length ∧
      (∀ s ∈ refs, next.tokens s.1 = pool.tokens s.1) ∧ next.blockSize = pool.blockSize := by
  obtain ⟨block,hb,hone,htok,hlen⟩ := h.count_alone hr
  have hsize := (h.sized _ _ hb).2
  have htake : (block.tokenIds.take length).length = length := by
    rw [List.length_take]
    omega
  refine ⟨pool.store r.1 { block with tokenIds := block.tokenIds.take length },?_,?_,?_,?_,rfl⟩
  · have hok : 0 < length ∧ length ≤ block.tokenIds.length := by omega
    simp only [BlockPool.truncate,bind_ok (BlockPool.get_ok hb),hone,ne_eq,not_true_eq_false,
      if_false,if_neg (not_not_intro hok),modify_apply]
  · have hw := h.rewrite hr hb hone (block.tokenIds.take length) (by omega)
    rwa [htake] at hw
  · rw [BlockPool.tokens_store,if_pos rfl,htok]
  · intro s hs
    rw [BlockPool.tokens_store,if_neg (ne_of_notMem hr hs)]

end Backed
end CueBee.Cache
