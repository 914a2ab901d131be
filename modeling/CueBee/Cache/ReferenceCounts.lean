import CueBee.Cache.CopyOnWriteRefinement

/-! # Reference counts are exact

`ExactCounts` spells out, block by block and reference by reference, what `Sound` says
about the counts of the pool. It holds in every state that public operations reach.
-/
namespace CueBee.Cache
open Raising VersionedKVManager PyStr

/-- The pool and the lists of references agree with each other. -/
structure ExactCounts (m : VersionedKVManager) : Prop where
  held : ∀ b, (∃ block, m.pool.blocks.get? b = some block) ↔
    b ∈ m.allRefs.map KVRef.physicalBlockId
  counted : ∀ b block, m.pool.blocks.get? b = some block →
    block.refCount = (m.allRefs.map KVRef.physicalBlockId).count b ∧ 1 ≤ block.refCount
  spanned : ∀ r ∈ m.allRefs, ∃ block, m.pool.blocks.get? r.physicalBlockId = some block ∧
    (r.tokenEnd : ℤ) - r.tokenStart = block.tokenIds.length ∧
    1 ≤ block.tokenIds.length ∧ block.tokenIds.length ≤ m.pool.blockSize
  tiled : ∀ s, Tiled 0 (m.sessionRefs s)
  unshared : (m.sessions.values.flatten.map KVRef.physicalBlockId).Nodup
  private_alone : ∀ r ∈ m.allRefs, r.ownership = .branchPrivate →
    m.pool.refCount r.physicalBlockId = 1
  balanced : (m.pool.blocksAllocated : ℤ) - m.pool.blocksFreed = m.pool.blocks.size
  distinct : (m.allRefs.map KVRef.logicalId).Nodup

variable {m : VersionedKVManager}

namespace VersionedKVManager.Sound

theorem refCount_eq (h : Sound m) (b : ℕ) :
    m.pool.refCount b = (m.allRefs.map KVRef.physicalBlockId).count b := by
  rw [h.ledger.backed.counted b,Ledger.map_fst_footprint]

theorem spine_of_mem (h : Sound m) {r : KVRef} (hr : r ∈ m.sessions.values.flatten) :
    r.ownership = .spine := by
  obtain ⟨refs,hrefs,hr⟩ := List.mem_flatten.mp hr
  obtain ⟨s,hs⟩ := (Dict.mem_values_iff _ _).mp hrefs
  exact (h.sessions s refs hs).owned r hr

theorem session_blocks_nodup (h : Sound m) :
    (m.sessions.values.flatten.map KVRef.physicalBlockId).Nodup := by
  have hap : m.sessions.values.flatten.Pairwise KVRef.Apart :=
    (List.pairwise_append.mp h.ledger.apart).1
  refine List.pairwise_map.mpr (hap.imp_of_mem ?_)
  intro r r' hr hr' hrr' he
  -- of two references to one block, one is shared; neither is, in a session
  rcases (hrr'.2 he).2.2 with ho | ho
  · rw [h.spine_of_mem hr] at ho
    cases ho
  · rw [h.spine_of_mem hr'] at ho
    cases ho

theorem private_count (h : Sound m) {r : KVRef} (hr : r ∈ m.allRefs)
    (ho : r.ownership = .branchPrivate) : m.pool.refCount r.physicalBlockId = 1 := by
  obtain ⟨before,rest,hsplit⟩ := List.append_of_mem hr
  have hperm : m.allRefs.Perm (r :: (before ++ rest)) := hsplit ▸ List.perm_middle
  have hap := (List.pairwise_cons.mp (h.ledger.perm hperm).apart).1
  have halone : r.physicalBlockId ∉ (before ++ rest).map KVRef.physicalBlockId := by
    intro hmem
    obtain ⟨r',hr',he⟩ := List.mem_map.mp hmem
    exact ((hap r' hr').2 he.symm).1 ho
  rw [h.refCount_eq,(hperm.map KVRef.physicalBlockId).count_eq,List.map_cons,List.count_cons_self,
    List.count_eq_zero.mpr halone]

theorem exactCounts (h : Sound m) : ExactCounts m where
  held b := by
    constructor
    · rintro ⟨block,hb⟩
      have hcount := h.refCount_eq b
      rw [BlockPool.refCount_of_some hb] at hcount
      have hlive := h.ledger.backed.live b block hb
      exact List.count_pos_iff.mp (by omega)
    · intro hmem
      have hcount := h.refCount_eq b
      have hpos := List.count_pos_iff.mpr hmem
      cases hb : m.pool.blocks.get? b with
      | some block => exact ⟨block,rfl⟩
      | none =>
        simp only [BlockPool.refCount,hb] at hcount
        omega
  counted b block hb := by
    have hcount := h.refCount_eq b
    rw [BlockPool.refCount_of_some hb] at hcount
    exact ⟨hcount,h.ledger.backed.live b block hb⟩
  spanned r hr := by
    obtain ⟨block,hb,-,-⟩ := h.ledger.backed.lookup (List.mem_map.mpr ⟨r,hr,rfl⟩)
    obtain ⟨hpos,hle,hspan⟩ := h.ledger.span hr
    have htok : m.pool.tokens r.physicalBlockId = block.tokenIds := BlockPool.tokens_of_some hb
    rw [htok] at hpos hle hspan
    exact ⟨block,hb,by omega,hpos,hle⟩
  tiled s := (h.spine s).tiled
  unshared := h.session_blocks_nodup
  private_alone _ := h.private_count
  balanced := by
    have hl := h.ledger.backed.ledger
    omega
  distinct := List.pairwise_map.mpr (h.ledger.apart.imp (fun hap => hap.1))

end VersionedKVManager.Sound

theorem exactCounts_of_run (blockSize : ℕ) (hpos : 0 < blockSize) (ops : List Op) :
    let m := runAll perform ops (init blockSize hpos)
    ExactCounts m ∧ VersionedKVManager.validateRefCounts m = .ok () m ∧
    ∀ op e next, perform op m = .error e next → e ≠ .refCountMismatch ∧ ∀ p, e ≠ .pool p := by
  intro m
  have hsound : Sound m := (run_sound hpos ops).1
  refine ⟨hsound.exactCounts,validateRefCounts_spec hsound.ledger,?_⟩
  intro op e next hx
  obtain ⟨-,-,-,hfault⟩ := (refines op m hsound).error hx
  refine ⟨?_,?_⟩
  · rintro rfl
    exact hfault trivial
  · rintro p rfl
    exact hfault trivial

/-- A fork shares a block, the branch's append and the roll-back both copy it. -/
theorem exactCounts_of_run_fork :
    let m := runAll perform [.appendSession (lit "s") [1,2,3] .tentative 1,
      .forkBranch (lit "b") (lit "s") true,.appendBranch (lit "b") [7] 1,
      .rollbackTentative (lit "s") 2] (init 4 (by decide))
    ExactCounts m ∧ VersionedKVManager.validateRefCounts m = .ok () m ∧
    ∀ op e next, perform op m = .error e next → e ≠ .refCountMismatch ∧ ∀ p, e ≠ .pool p :=
  exactCounts_of_run 4 (by decide) _

end CueBee.Cache
