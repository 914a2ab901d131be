import CueBee.Cache.OperationSpecs

/-! # Which blocks a loop of the manager replaces

The loop specifications speak of tokens. Here the same loops are taken apart for what
they do to physical block ids and to the counter of copies: an append rewrites the last
reference at most, a roll-back the one reference it cuts, and the rest of a roll-back is
a release.
-/
namespace CueBee.Cache
open Raising VersionedKVManager

variable {m next : VersionedKVManager} {refs result others : List KVRef}

theorem onPool_inv {α : Type} {x : EStateM PoolError BlockPool α} {a : α}
    (h : onPool x m = .ok a next) : ∃ pool, x m.pool = .ok a pool ∧ next = { m with pool := pool } := by
  unfold onPool focus at h
  cases hx : x m.pool with
  | ok b pool =>
    simp only [hx] at h
    cases h
    exact ⟨pool,rfl,rfl⟩
  | error e pool =>
    simp only [hx] at h
    cases h

theorem onPool_counter {α : Type} {x : EStateM PoolError BlockPool α} {a : α}
    (h : onPool x m = .ok a next) : next.copyOnWriteBlocks = m.copyOnWriteBlocks := by
  obtain ⟨pool,-,rfl⟩ := onPool_inv h
  rfl

theorem onPool_get_inv {b : ℕ} {block : PhysicalBlock}
    (h : onPool (BlockPool.get b) m = .ok block next) : next = m := by
  obtain ⟨pool,hget,rfl⟩ := onPool_inv h
  unfold BlockPool.get at hget
  cases hb : m.pool.blocks.get? b with
  | none =>
    simp only [hb] at hget
    cases hget
  | some found =>
    simp only [hb] at hget
    cases hget
    rfl

theorem allocate_inv {tokenIds : List Token} {b : ℕ}
    (h : onPool (BlockPool.allocate tokenIds) m = .ok b next) : b = m.pool.nextBlockId := by
  obtain ⟨pool,hall,-⟩ := onPool_inv h
  unfold BlockPool.allocate at hall
  split at hall
  · cases hall
  · cases hall
    rfl

theorem copyOnWrite_inv {ref copy : KVRef} {tokenIds : List Token}
    (h : VersionedKVManager.copyOnWrite ref tokenIds m = .ok copy next) :
    copy = { ref with physicalBlockId := m.pool.nextBlockId } ∧
      next.copyOnWriteBlocks = m.copyOnWriteBlocks + 1 := by
  unfold VersionedKVManager.copyOnWrite at h
  obtain ⟨b,m1,hall,h⟩ := bind_ok_iff.mp h
  obtain ⟨freed,m2,hdec,h⟩ := bind_ok_iff.mp h
  obtain ⟨⟨⟩,m3,hmod,h⟩ := bind_ok_iff.mp h
  have hcount := (onPool_counter hdec).trans (onPool_counter hall)
  cases hmod
  cases h
  refine ⟨by rw [allocate_inv hall],?_⟩
  show m2.copyOnWriteBlocks + 1 = _
  rw [hcount]

/-- What `topUp` does to the list: nothing, or the last reference is filled, on its own
block or on the new block `fresh`. -/
inductive Filled (rule : TopUpRule) (fresh : ℕ) : List KVRef → List KVRef → ℕ → Prop
  | skipped (refs : List KVRef) : Filled rule fresh refs refs 0
  | inPlace (init : List KVRef) (last ref : KVRef) (block : PhysicalBlock)
      (hkeep : rule.mustCopy last block = false) (hid : ref.logicalId = last.logicalId)
      (hown : ref.ownership = last.ownership)
      (hphys : ref.physicalBlockId = last.physicalBlockId) :
      Filled rule fresh (init ++ [last]) (init ++ [ref]) 0
  | copied (init : List KVRef) (last ref : KVRef) (block : PhysicalBlock)
      (hcopy : rule.mustCopy last block = true) (hid : ref.logicalId = last.logicalId)
      (hown : ref.ownership = rule.adopt last.ownership) (hphys : ref.physicalBlockId = fresh) :
      Filled rule fresh (init ++ [last]) (init ++ [ref]) 1

theorem fillLast_inv {rule : TopUpRule} {version : ℤ} (init : List KVRef) {last ref : KVRef}
    {block : PhysicalBlock} {take : List Token}
    (h : fillLast rule version last block take m = .ok ref next) :
    ∃ copies, Filled rule m.pool.nextBlockId (init ++ [last]) (init ++ [ref]) copies ∧
      next.copyOnWriteBlocks = m.copyOnWriteBlocks + copies := by
  unfold fillLast at h
  obtain ⟨filled,mid,hfill,h⟩ := bind_ok_iff.mp h
  cases h
  cases hcopy : rule.mustCopy last block with
  | true =>
    simp only [hcopy,if_true] at hfill
    obtain ⟨copy,mid',hcow,hfill⟩ := bind_ok_iff.mp hfill
    obtain ⟨rfl,hcount⟩ := copyOnWrite_inv hcow
    cases hfill
    exact ⟨1,.copied init last _ block hcopy rfl rfl rfl,hcount⟩
  | false =>
    simp only [hcopy,Bool.false_eq_true,if_false] at hfill
    obtain ⟨⟨⟩,mid',hext,hfill⟩ := bind_ok_iff.mp hfill
    have hcount := onPool_counter hext
    cases hfill
    exact ⟨0,.inPlace init last _ block hcopy rfl rfl rfl,hcount⟩

theorem topUp_inv {rule : TopUpRule} {version : ℤ} {remaining left : List Token}
    {refs' topped : List KVRef}
    (h : topUp rule version refs remaining m = .ok (refs',left,topped) next) :
    ∃ copies, Filled rule m.pool.nextBlockId refs refs' copies ∧
      next.copyOnWriteBlocks = m.copyOnWriteBlocks + copies := by
  unfold topUp at h
  cases hlast : refs.getLast? with
  | none =>
    simp only [hlast] at h
    cases h
    exact ⟨0,.skipped refs,rfl⟩
  | some last =>
    obtain ⟨init,rfl⟩ := List.getLast?_eq_some_iff.mp hlast
    simp only [hlast] at h
    by_cases hne : remaining = []
    · rw [if_pos hne] at h
      cases h
      exact ⟨0,.skipped _,rfl⟩
    · rw [if_neg hne] at h
      obtain ⟨block,m1,hget,hrest⟩ := bind_ok_iff.mp h
      obtain rfl := onPool_get_inv hget
      rw [bind_ok (get_apply m1)] at hrest
      split at hrest
      · obtain ⟨ref,m2,hfill,hrest⟩ := bind_ok_iff.mp hrest
        cases hrest
        rw [List.dropLast_concat]
        exact fillLast_inv init hfill
      · cases hrest
        exact ⟨0,.skipped _,rfl⟩

theorem appendBlocks_inv {validity : Validity} {ownership : Ownership} {version : ℤ} {cursor : ℕ}
    {chunks : List (List Token)} {fresh : List KVRef}
    (h : appendBlocks validity ownership version cursor chunks m = .ok fresh next) :
    next.copyOnWriteBlocks = m.copyOnWriteBlocks ∧ ∀ r ∈ fresh, r.ownership = ownership := by
  induction chunks generalizing m cursor fresh with
  | nil =>
    cases h
    exact ⟨rfl,by simp⟩
  | cons chunk rest ih =>
    unfold appendBlocks at h
    obtain ⟨b,m1,hall,h⟩ := bind_ok_iff.mp h
    obtain ⟨ref,m2,href,h⟩ := bind_ok_iff.mp h
    obtain ⟨more,m3,hmore,h⟩ := bind_ok_iff.mp h
    cases h
    obtain ⟨hcount,hown⟩ := ih hmore
    cases href
    have hsame : m1.copyOnWriteBlocks = m.copyOnWriteBlocks := onPool_counter hall
    constructor
    · exact hcount.trans hsame
    · intro r hr
      rcases List.mem_cons.mp hr with rfl | hr
      · rfl
      · exact hown r hr

theorem appendRefs_inv {rule : TopUpRule} {validity : Validity} {ownership : Ownership}
    {version : ℤ} {tokenIds : List Token} {appended : List KVRef}
    (h : appendRefs rule validity ownership version refs tokenIds m = .ok (result,appended) next) :
    ∃ refs' fresh copies, result = refs' ++ fresh ∧
      Filled rule m.pool.nextBlockId refs refs' copies ∧ (∀ r ∈ fresh, r.ownership = ownership) ∧
      next.copyOnWriteBlocks = m.copyOnWriteBlocks + copies := by
  unfold appendRefs at h
  obtain ⟨⟨refs',left,topped⟩,mid,htop,h⟩ := bind_ok_iff.mp h
  simp only [bind_ok (get_apply mid)] at h
  obtain ⟨fresh,m2,hfresh,h⟩ := bind_ok_iff.mp h
  cases h
  obtain ⟨copies,hfilled,hcount⟩ := topUp_inv htop
  obtain ⟨hcount',hown⟩ := appendBlocks_inv hfresh
  exact ⟨refs',fresh,copies,rfl,hfilled,hown,hcount'.trans hcount⟩

/-- A release frees the blocks that no remaining reference names, each of them once. -/
theorem releaseRefs_exact {freed : List ℕ} (h : Ledger m (refs ++ others))
    (hrun : releaseRefs refs m = .ok freed next) :
    freed.Nodup ∧ (∀ i, i ∈ freed ↔
      i ∈ refs.map KVRef.physicalBlockId ∧ i ∉ others.map KVRef.physicalBlockId) ∧
    next.copyOnWriteBlocks = m.copyOnWriteBlocks := by
  induction refs generalizing m freed with
  | nil =>
    cases hrun
    exact ⟨List.nodup_nil,by simp,rfl⟩
  | cons r rest ih =>
    have hcons : Ledger m (r :: (rest ++ others)) := h
    obtain ⟨gone,mid,hdec,hled,hgone,-⟩ := hcons.decref
    unfold releaseRefs at hrun
    rw [bind_ok hdec] at hrun
    obtain ⟨more,last,hmore,hrun⟩ := bind_ok_iff.mp hrun
    cases hrun
    obtain ⟨hnodup,hmem,hcount⟩ := ih hled hmore
    rw [List.map_append,List.mem_append,not_or] at hgone
    refine ⟨?_,?_,hcount.trans (onPool_counter hdec)⟩
    · cases gone with
      | false => exact hnodup
      | true =>
        have hrest := (hgone.mp rfl).1
        exact List.nodup_cons.mpr ⟨fun hr => hrest ((hmem _).mp hr).1,hnodup⟩
    · intro i
      rw [List.map_cons,List.mem_cons]
      cases gone with
      | false =>
        -- another reference still names the block
        have hstill : r.physicalBlockId ∈ rest.map KVRef.physicalBlockId ∨
            r.physicalBlockId ∈ others.map KVRef.physicalBlockId := by
          by_contra hnone
          exact Bool.false_ne_true (hgone.mpr (not_or.mp hnone))
        simp only [Bool.false_eq_true,if_false,hmem]
        grind
      | true =>
        obtain ⟨-,hothers⟩ := hgone.mp rfl
        simp only [if_true,List.mem_cons,hmem]
        grind

/-- The branch of the roll-back loop that cuts a reference: a copy of a shared block, a
truncation of a block of its own. -/
def cutRef (fromToken : ℕ) (ref : KVRef) : EStateM KVError VersionedKVManager (KVRef × ℕ) := do
  let block ← onPool (BlockPool.get ref.physicalBlockId)
  if 1 < block.refCount then do
    let copy ← VersionedKVManager.copyOnWrite ref (block.tokenIds.take (fromToken - ref.tokenStart))
    return (copy,1)
  else do
    onPool (BlockPool.truncate ref.physicalBlockId (fromToken - ref.tokenStart))
    return (ref,0)

theorem cutRef_inv {fromToken copies : ℕ} {r ref : KVRef} (h : Ledger m (r :: others))
    (hrun : cutRef fromToken r m = .ok (ref,copies) next) :
    ref.logicalId = r.logicalId ∧ next.copyOnWriteBlocks = m.copyOnWriteBlocks + copies ∧
    ((copies = 0 ∧ ref.physicalBlockId = r.physicalBlockId) ∨
      (copies = 1 ∧ ref.physicalBlockId = m.pool.nextBlockId ∧
        r.physicalBlockId ∈ others.map KVRef.physicalBlockId)) := by
  obtain ⟨block,hget,-,hcount⟩ := h.get_ok List.mem_cons_self
  rw [List.map_cons,List.count_cons_self] at hcount
  unfold cutRef at hrun
  rw [bind_ok hget] at hrun
  by_cases hshared : 1 < block.refCount
  · rw [if_pos hshared] at hrun
    obtain ⟨copy,mid,hcow,hrun⟩ := bind_ok_iff.mp hrun
    obtain ⟨rfl,hcopies⟩ := copyOnWrite_inv hcow
    cases hrun
    exact ⟨rfl,hcopies,Or.inr ⟨rfl,rfl,List.count_pos_iff.mp (by omega)⟩⟩
  · rw [if_neg hshared] at hrun
    obtain ⟨⟨⟩,mid,htrunc,hrun⟩ := bind_ok_iff.mp hrun
    cases hrun
    exact ⟨rfl,onPool_counter htrunc,Or.inl ⟨rfl,rfl⟩⟩

/-- From the first reference that starts behind the position on, a roll-back is a release. -/
theorem rollbackRefs_behind {fromToken start copied : ℕ} {kept : List KVRef} {released : List ℕ}
    (ht : Tiled start refs) (hspan : ∀ r ∈ refs, r.tokenStart < r.tokenEnd)
    (hstart : fromToken ≤ start)
    (hrun : rollbackRefs fromToken refs m = .ok (kept,released,copied) next) :
    kept = [] ∧ copied = 0 ∧ releaseRefs refs m = .ok released next := by
  induction refs generalizing m start kept released copied with
  | nil =>
    cases hrun
    exact ⟨rfl,rfl,rfl⟩
  | cons r rest ih =>
    obtain ⟨rfl,htail⟩ := ht
    have hr := hspan r List.mem_cons_self
    have hkeep : ¬r.tokenEnd ≤ fromToken := by omega
    have hin : ¬(r.tokenStart < fromToken ∧ fromToken < r.tokenEnd) := by omega
    unfold rollbackRefs at hrun
    rw [if_neg hkeep,if_neg hin] at hrun
    obtain ⟨freed,mid,hdec,hrun⟩ := bind_ok_iff.mp hrun
    obtain ⟨⟨kept',released',copied'⟩,last,hrest,hrun⟩ := bind_ok_iff.mp hrun
    cases hrun
    obtain ⟨rfl,rfl,hrel⟩ := ih htail (fun s hs => hspan s (List.mem_cons_of_mem _ hs)) (by omega)
      hrest
    refine ⟨rfl,rfl,?_⟩
    simp only [releaseRefs,bind_ok hdec,bind_ok hrel]
    rfl

/-- The part of a roll-back between the references it keeps and those it releases. -/
inductive CutOff (fromToken : ℕ) (m : VersionedKVManager) :
    VersionedKVManager → List KVRef → List KVRef → ℕ → Prop
  | clean : CutOff fromToken m m [] [] 0
  | cut (mid : VersionedKVManager) (r ref : KVRef) (copies : ℕ)
      (hin : r.tokenStart < fromToken ∧ fromToken < r.tokenEnd)
      (hrun : cutRef fromToken r m = .ok (ref,copies) mid) :
      CutOff fromToken m mid [r] [{ ref with tokenEnd := fromToken }] copies

theorem rollbackRefs_inv {fromToken start copied : ℕ} {kept : List KVRef} {released : List ℕ}
    (ht : Tiled start refs) (hspan : ∀ r ∈ refs, r.tokenStart < r.tokenEnd)
    (hrun : rollbackRefs fromToken refs m = .ok (kept,released,copied) next) :
    ∃ before old new dropped mid, refs = before ++ (old ++ dropped) ∧ kept = before ++ new ∧
      CutOff fromToken m mid old new copied ∧ releaseRefs dropped mid = .ok released next := by
  induction refs generalizing start kept released copied with
  | nil =>
    cases hrun
    exact ⟨[],[],[],[],m,rfl,rfl,.clean,rfl⟩
  | cons r rest ih =>
    obtain ⟨rfl,htail⟩ := ht
    have hpos := hspan r List.mem_cons_self
    have hspans : ∀ s ∈ rest, s.tokenStart < s.tokenEnd :=
      fun s hs => hspan s (List.mem_cons_of_mem _ hs)
    by_cases hkeep : r.tokenEnd ≤ fromToken
    · unfold rollbackRefs at hrun
      rw [if_pos hkeep] at hrun
      obtain ⟨⟨kept',released',copied'⟩,last,hrest,hrun⟩ := bind_ok_iff.mp hrun
      cases hrun
      obtain ⟨before,old,new,dropped,mid,rfl,rfl,hcut,hrel⟩ := ih htail hspans hrest
      exact ⟨r :: before,old,new,dropped,mid,rfl,rfl,hcut,hrel⟩
    · by_cases hin : r.tokenStart < fromToken ∧ fromToken < r.tokenEnd
      · -- the reference is cut, all later ones are released
        unfold rollbackRefs at hrun
        rw [if_neg hkeep,if_pos hin] at hrun
        obtain ⟨block,m1,hget,hrun⟩ := bind_ok_iff.mp hrun
        obtain ⟨⟨ref,copies⟩,m2,hcut,hrun⟩ := bind_ok_iff.mp hrun
        obtain ⟨⟨kept',released',copied'⟩,last,hrest,hrun⟩ := bind_ok_iff.mp hrun
        cases hrun
        obtain ⟨rfl,rfl,hrel⟩ := rollbackRefs_behind htail hspans (by omega) hrest
        refine ⟨[],[r],_,rest,m2,rfl,rfl,.cut m2 r ref copies hin ?_,hrel⟩
        unfold cutRef
        rw [bind_ok hget]
        exact hcut
      · have hstart : fromToken ≤ r.tokenStart := by omega
        have hall : Tiled r.tokenStart (r :: rest) := ⟨rfl,htail⟩
        obtain ⟨rfl,rfl,hrel⟩ := rollbackRefs_behind hall hspan hstart hrun
        exact ⟨[],[],[],r :: rest,m,rfl,rfl,.clean,hrel⟩

/-- No block was allocated, freed or copied: the pool holds the same ids. -/
structure SameBlocks (m next : VersionedKVManager) : Prop where
  nextBlockId : next.pool.nextBlockId = m.pool.nextBlockId
  allocated : next.pool.blocksAllocated = m.pool.blocksAllocated
  freed : next.pool.blocksFreed = m.pool.blocksFreed
  ids : next.pool.blocks.keys = m.pool.blocks.keys
  copies : next.copyOnWriteBlocks = m.copyOnWriteBlocks

theorem SameBlocks.refl (m : VersionedKVManager) : SameBlocks m m := ⟨rfl,rfl,rfl,rfl,rfl⟩

theorem SameBlocks.trans {mid : VersionedKVManager} (h : SameBlocks m mid)
    (h' : SameBlocks mid next) : SameBlocks m next where
  nextBlockId := h'.nextBlockId.trans h.nextBlockId
  allocated := h'.allocated.trans h.allocated
  freed := h'.freed.trans h.freed
  ids := h'.ids.trans h.ids
  copies := h'.copies.trans h.copies

theorem incref_inv {b : ℕ} (h : onPool (BlockPool.incref b) m = .ok () next) :
    SameBlocks m next := by
  obtain ⟨pool,hinc,rfl⟩ := onPool_inv h
  unfold BlockPool.incref at hinc
  obtain ⟨block,pool',hget,hinc⟩ := bind_ok_iff.mp hinc
  cases hb : m.pool.blocks.get? b with
  | none =>
    simp only [BlockPool.get,hb] at hget
    cases hget
  | some found =>
    rw [BlockPool.get_ok hb] at hget
    cases hget
    cases hinc
    exact ⟨rfl,rfl,rfl,Dict.keys_set_of_some hb _,rfl⟩

theorem forkRefs_inv {includeTentative : Bool} {sources fresh : List KVRef}
    (h : forkRefs includeTentative sources m = .ok fresh next) :
    SameBlocks m next ∧ (∀ r ∈ fresh, r.ownership = .shared) ∧
    fresh.map KVRef.physicalBlockId =
      (sources.filter (KVRef.forked includeTentative)).map KVRef.physicalBlockId := by
  induction sources generalizing m fresh with
  | nil =>
    cases h
    exact ⟨.refl _,by simp,rfl⟩
  | cons source rest ih =>
    unfold forkRefs at h
    by_cases hskip : includeTentative = false ∧ source.validity ≠ .committed
    · rw [if_pos hskip] at h
      rw [List.filter_cons_of_neg (by simp [KVRef.forked,hskip.1,hskip.2])]
      exact ih h
    · have hkeep : source.forked includeTentative = true := by
        cases includeTentative <;> simp_all [KVRef.forked]
      rw [if_neg hskip] at h
      obtain ⟨⟨⟩,m1,hinc,h⟩ := bind_ok_iff.mp h
      obtain ⟨ref,m2,href,h⟩ := bind_ok_iff.mp h
      obtain ⟨more,m3,hmore,h⟩ := bind_ok_iff.mp h
      cases h
      obtain ⟨hsame,hown,hids⟩ := ih hmore
      cases href
      have hstep : SameBlocks m { m1 with nextLogicalId := m1.nextLogicalId + 1 } :=
        (incref_inv hinc).trans ⟨rfl,rfl,rfl,rfl,rfl⟩
      refine ⟨hstep.trans hsame,?_,?_⟩
      · intro r hr
        rcases List.mem_cons.mp hr with rfl | hr
        · rfl
        · exact hown r hr
      · rw [List.filter_cons_of_pos hkeep,List.map_cons,List.map_cons,hids]

end CueBee.Cache
