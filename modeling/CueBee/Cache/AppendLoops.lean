import CueBee.Cache.ReferenceLedger

/-! # Specifications of the append loops

An append fills the last block and puts the rest into new blocks. The references
that the append does not own are the list `others` of its ledger.
-/
namespace CueBee.Cache
open Raising VersionedKVManager

section Chunks
variable {α : Type*} {size : ℕ} (hsize : 0 < size)

theorem flatten_chunksOf (xs : List α) : (chunksOf size hsize xs).flatten = xs := by
  induction xs using chunksOf.induct size hsize with
  | case1 => simp [chunksOf]
  | case2 x rest ih =>
    rw [chunksOf,List.flatten_cons,ih]
    exact List.take_append_drop size (x :: rest)

theorem length_of_mem_chunksOf (xs : List α) {chunk : List α} (h : chunk ∈ chunksOf size hsize xs) :
    0 < chunk.length ∧ chunk.length ≤ size := by
  induction xs using chunksOf.induct size hsize with
  | case1 => simp [chunksOf] at h
  | case2 x rest ih =>
    rw [chunksOf] at h
    rcases List.mem_cons.mp h with rfl | h
    · simp only [List.length_take,List.length_cons]
      omega
    · exact ih h

end Chunks

variable {m : VersionedKVManager} {refs others : List KVRef}

theorem appendBlocks_spec (validity : Validity) (ownership : Ownership) (version : ℤ)
    {chunks : List (List Token)} (h : Ledger m others)
    (hchunks : ∀ c ∈ chunks, 0 < c.length ∧ c.length ≤ m.pool.blockSize) (cursor : ℕ) :
    ∃ fresh next, appendBlocks validity ownership version cursor chunks m = .ok fresh next ∧
      Ledger next (fresh ++ others) ∧ TablesKept m next ∧ FrameOn m next others ∧
      Tiled cursor fresh ∧ (∀ r ∈ fresh, r.validity = validity ∧ r.ownership = ownership) ∧
      tokensOf next.pool fresh = chunks.flatten := by
  induction chunks generalizing m others cursor with
  | nil => exact ⟨[],m,rfl,h,TablesKept.refl m,fun _ _ => rfl,trivial,by simp,rfl⟩
  | cons chunk rest ih =>
    obtain ⟨hpos,hle⟩ := hchunks chunk List.mem_cons_self
    obtain ⟨hall,hback,hframe⟩ := h.backed.allocate hpos hle
    let ref : KVRef := ⟨m.nextLogicalId,cursor,cursor + chunk.length,validity,ownership,.gpu,
      m.pool.nextBlockId,version⟩
    have hfoot : ref.footprint = (m.pool.nextBlockId,chunk.length) := by
      simp [ref,KVRef.footprint]
    have hpush : Ledger { m with
        pool := m.pool.install chunk, nextLogicalId := m.nextLogicalId + 1 } (ref :: others) := by
      refine h.push ref (hfoot ▸ hback) rfl ?_
      intro s hs he
      have hn := h.backed.notMem_fresh
      rw [Ledger.map_fst_footprint] at hn
      exact absurd (List.mem_map.mpr ⟨s,hs,he.symm⟩) hn
    have hrest : ∀ c ∈ rest, 0 < c.length ∧ c.length ≤ m.pool.blockSize :=
      fun c hc => hchunks c (List.mem_cons_of_mem _ hc)
    obtain ⟨fresh,next,hrun,hled,htab,hfr,htile,hval,htok⟩ :=
      ih hpush hrest (cursor + chunk.length)
    refine ⟨ref :: fresh,next,?_,?_,?_,?_,⟨rfl,htile⟩,?_,?_⟩
    · have h1 : onPool (BlockPool.allocate chunk) m =
          .ok m.pool.nextBlockId { m with pool := m.pool.install chunk } := focus_ok hall
      have h2 : newRef cursor (cursor + chunk.length) validity ownership m.pool.nextBlockId version
          { m with pool := m.pool.install chunk } = .ok ref { m with
          pool := m.pool.install chunk, nextLogicalId := m.nextLogicalId + 1 } := rfl
      simp only [appendBlocks,bind_ok h1,bind_ok h2,bind_ok hrun]
      rfl
    · exact hled.perm List.perm_middle
    · exact TablesKept.trans (n := { m with
        pool := m.pool.install chunk, nextLogicalId := m.nextLogicalId + 1 }) ⟨rfl,rfl,rfl,rfl⟩ htab
    · intro s hs
      rw [hfr s (List.mem_cons_of_mem _ hs)]
      exact hframe s.footprint (List.mem_map.mpr ⟨s,hs,rfl⟩)
    · intro r hr
      rcases List.mem_cons.mp hr with rfl | hr
      · exact ⟨rfl,rfl⟩
      · exact hval r hr
    · have hhead : next.pool.tokens m.pool.nextBlockId = chunk := by
        rw [hfr ref List.mem_cons_self]
        exact (BlockPool.tokens_install _ _ _).trans (if_pos rfl)
      rw [tokensOf_cons,htok,List.flatten_cons]
      exact congrArg (· ++ rest.flatten) hhead

/-- A rule may fill a block in place only if no other reference names the block. -/
def TopUpRule.Safe (rule : TopUpRule) (refs others : List KVRef) : Prop :=
  ∀ init last, refs = init ++ [last] → ∀ block : PhysicalBlock,
    block.refCount = ((refs ++ others).map KVRef.physicalBlockId).count last.physicalBlockId →
    rule.mustCopy last block = false →
    last.physicalBlockId ∉ (init ++ others).map KVRef.physicalBlockId

/-- How `topUp` changes the last reference: it takes over the first `taken` tokens. -/
structure ToppedUp (rule : TopUpRule) (m next : VersionedKVManager) (last ref : KVRef)
    (taken : List Token) : Prop where
  admitted : rule.admits last = true
  start : ref.tokenStart = last.tokenStart
  stop : ref.tokenEnd = last.tokenEnd + taken.length
  validity : ref.validity = last.validity
  ownership : ref.ownership = last.ownership ∨ ref.ownership = rule.adopt last.ownership
  tokens : next.pool.tokens ref.physicalBlockId = m.pool.tokens last.physicalBlockId ++ taken

theorem perm_last (init : List KVRef) (last : KVRef) (others : List KVRef) :
    (init ++ [last] ++ others).Perm (last :: (init ++ others)) := by
  rw [List.append_assoc]
  exact List.perm_middle

theorem fillLast_spec {rule : TopUpRule} (version : ℤ) {init : List KVRef} {last : KVRef}
    {block : PhysicalBlock} (taken : List Token) (h : Ledger m (init ++ [last] ++ others))
    (hsafe : rule.Safe (init ++ [last]) others)
    (htok : block.tokenIds = m.pool.tokens last.physicalBlockId)
    (hcount : block.refCount =
      ((init ++ [last] ++ others).map KVRef.physicalBlockId).count last.physicalBlockId)
    (hroom : block.tokenIds.length + taken.length ≤ m.pool.blockSize)
    (hallow : rule.admits last = true) :
    ∃ ref next, fillLast rule version last block taken m = .ok ref next ∧
      Ledger next (init ++ [ref] ++ others) ∧ TablesKept m next ∧
      FrameOn m next (init ++ others) ∧ ToppedUp rule m next last ref taken := by
  have hled := h.perm (perm_last init last others)
  obtain ⟨hpos,hle,hspan⟩ := h.span (r := last) (by simp)
  cases hcopy : rule.mustCopy last block with
  | true =>
    have hnew : 0 < (block.tokenIds ++ taken).length ∧
        (block.tokenIds ++ taken).length ≤ m.pool.blockSize := by
      rw [← htok] at hpos
      rw [List.length_append]
      omega
    obtain ⟨next,hcow,hcowtok,hframe,htab,hledger⟩ := hled.copyOnWrite _ hnew.1 hnew.2
    let ref : KVRef := { last with
      physicalBlockId := m.pool.nextBlockId, ownership := rule.adopt last.ownership
      tokenEnd := last.tokenEnd + taken.length, version := version }
    have hfoot : ref.footprint = (m.pool.nextBlockId,(block.tokenIds ++ taken).length) := by
      simp only [ref,KVRef.footprint,List.length_append,htok]
      congr 1
      omega
    refine ⟨ref,next,?_,?_,htab,hframe,hallow,rfl,rfl,rfl,Or.inr rfl,?_⟩
    · simp only [fillLast,hcopy,if_true,bind_assoc,bind_ok hcow]
      rfl
    · exact (hledger ref rfl hfoot).perm (perm_last init ref others).symm
    · exact hcowtok.trans (by rw [htok])
  | false =>
    have halone := hsafe init last rfl block hcount hcopy
    have hback : Backed m.pool (last.footprint :: (init ++ others).map KVRef.footprint) :=
      hled.backed
    have hfit : last.footprint.2 + taken.length ≤ m.pool.blockSize := by
      simp only [KVRef.footprint]
      rw [htok] at hroom
      omega
    obtain ⟨pool,hext,hback',hexttok,hframe,hsize⟩ := Backed.extend (r := last.footprint) hback
      (by rwa [Ledger.map_fst_footprint]) hfit
    let ref : KVRef := { last with
      tokenEnd := last.tokenEnd + taken.length, version := version }
    have hfoot : ref.footprint = (last.physicalBlockId,last.footprint.2 + taken.length) := by
      simp only [ref,KVRef.footprint]
      congr 1
      omega
    refine ⟨ref,{ m with pool := pool },?_,?_,⟨rfl,rfl,rfl,hsize⟩,?_,
      hallow,rfl,rfl,rfl,Or.inl rfl,hexttok⟩
    · have h1 : onPool (BlockPool.extend last.physicalBlockId taken) m =
          .ok () { m with pool := pool } := focus_ok hext
      simp only [fillLast,hcopy,Bool.false_eq_true,if_false,bind_assoc,bind_ok h1]
      rfl
    · have hrep : Ledger { m with pool := pool } (ref :: (init ++ others)) :=
        hled.replace ref (hfoot ▸ hback') rfl rfl halone
      exact hrep.perm (perm_last init ref others).symm
    · exact fun s hs => hframe s.footprint (List.mem_map.mpr ⟨s,hs,rfl⟩)

theorem topUp_fill {rule : TopUpRule} (version : ℤ) {init : List KVRef} {last : KVRef}
    {remaining : List Token} (h : Ledger m (init ++ [last] ++ others))
    (hsafe : rule.Safe (init ++ [last]) others) (hne : remaining ≠ [])
    (hspace : m.pool.blockSize - (m.pool.tokens last.physicalBlockId).length ≠ 0)
    (hallow : rule.admits last = true) :
    ∃ ref taken next, topUp rule version (init ++ [last]) remaining m =
        .ok (init ++ [ref],remaining.drop taken.length,[ref]) next ∧
      taken = remaining.take (m.pool.blockSize - (m.pool.tokens last.physicalBlockId).length) ∧
      Ledger next (init ++ [ref] ++ others) ∧ TablesKept m next ∧
      FrameOn m next (init ++ others) ∧ ToppedUp rule m next last ref taken := by
  obtain ⟨block,hget,htok,hcount⟩ := h.get_ok (r := last) (by simp)
  have hlast : (init ++ [last]).getLast? = some last := by simp
  let taken := remaining.take (m.pool.blockSize - (m.pool.tokens last.physicalBlockId).length)
  have htaken : taken.length ≤ m.pool.blockSize - (m.pool.tokens last.physicalBlockId).length :=
    List.length_take_le _ _
  obtain ⟨ref,next,hfill,hled,htab,hframe,hup⟩ := fillLast_spec version taken
    h hsafe htok hcount (by rw [htok]; omega) hallow
  refine ⟨ref,taken,next,?_,rfl,hled,htab,hframe,hup⟩
  rw [← htok] at hspace
  simp only [taken,← htok] at hfill
  simp only [topUp,hlast,if_neg hne,bind_ok hget,bind_ok (get_apply m),
    if_pos (And.intro hspace hallow),bind_ok hfill,List.dropLast_concat,taken,← htok]
  rfl

theorem topUp_skip {rule : TopUpRule} (version : ℤ) {remaining : List Token}
    (h : Ledger m (refs ++ others))
    (hskip : ∀ init last, refs = init ++ [last] → remaining ≠ [] →
      m.pool.blockSize - (m.pool.tokens last.physicalBlockId).length ≠ 0 →
      rule.admits last = false) :
    topUp rule version refs remaining m = .ok (refs,remaining,[]) m := by
  cases hlast : refs.getLast? with
  | none =>
    simp only [topUp,hlast]
    rfl
  | some last =>
    obtain ⟨init,hinit⟩ := List.getLast?_eq_some_iff.mp hlast
    by_cases hne : remaining = []
    · simp only [topUp,hlast,if_pos hne]
      rfl
    · obtain ⟨block,hget,htok,-⟩ := h.get_ok (r := last) (by simp [hinit])
      have hcond : ¬(m.pool.blockSize - block.tokenIds.length ≠ 0 ∧ rule.admits last = true) := by
        rintro ⟨hspace,hallow⟩
        rw [htok] at hspace
        rw [hskip init last hinit hne hspace] at hallow
        cases hallow
      simp only [topUp,hlast,if_neg hne,bind_ok hget,bind_ok (get_apply m),if_neg hcond]
      rfl

/-- The effect of an append on the references of one owner. -/
structure Appended (rule : TopUpRule) (validity : Validity) (ownership : Ownership)
    (m next : VersionedKVManager) (refs result : List KVRef) (tokenIds : List Token) : Prop where
  tokens : tokensOf next.pool result = tokensOf m.pool refs ++ tokenIds
  pairs : (∀ r, rule.admits r = true → r.validity = validity) →
    pairsOf next.pool result = pairsOf m.pool refs ++ tokenIds.map (fun t => (t,validity))
  tiled : Tiled 0 refs → Tiled 0 result
  ownerships : ∀ P : Ownership → Prop, P ownership → (∀ o, P o → P (rule.adopt o)) →
    (∀ r ∈ refs, P r.ownership) → ∀ r ∈ result, P r.ownership
  validities : ∀ P : Validity → Prop, P validity → (∀ r ∈ refs, P r.validity) →
    ∀ r ∈ result, P r.validity

theorem appendRefs_finish {rule : TopUpRule} (validity : Validity) (ownership : Ownership)
    {version : ℤ} {tokenIds left : List Token} {refs' topped : List KVRef}
    {mid : VersionedKVManager}
    (hrun : topUp rule version refs tokenIds m = .ok (refs',left,topped) mid)
    (hled : Ledger mid (refs' ++ others)) :
    ∃ fresh next, appendRefs rule validity ownership version refs tokenIds m =
        .ok (refs' ++ fresh,topped ++ fresh) next ∧
      Ledger next (refs' ++ fresh ++ others) ∧ TablesKept mid next ∧
      FrameOn mid next (refs' ++ others) ∧ Tiled (endOf refs') fresh ∧
      (∀ r ∈ fresh, r.validity = validity ∧ r.ownership = ownership) ∧
      tokensOf next.pool fresh = left := by
  obtain ⟨fresh,next,happ,hled',htab,hframe,htile,hval,htok⟩ := appendBlocks_spec validity
    ownership version hled (fun _ => length_of_mem_chunksOf mid.pool.blockSize_pos left)
    (endOf refs')
  refine ⟨fresh,next,?_,?_,htab,hframe,htile,hval,?_⟩
  · simp only [appendRefs,bind_ok hrun,bind_ok (get_apply mid),bind_ok happ]
    rfl
  · refine hled'.perm ?_
    rw [← List.append_assoc]
    exact List.perm_append_comm.append_right others
  · rw [htok,flatten_chunksOf]

theorem pairsOf_eq_map {pool : BlockPool} {validity : Validity} {fresh : List KVRef}
    (h : ∀ r ∈ fresh, r.validity = validity) :
    pairsOf pool fresh = (tokensOf pool fresh).map (fun t => (t,validity)) := by
  induction fresh with
  | nil => rfl
  | cons r rest ih =>
    rw [pairsOf_cons,tokensOf_cons,List.map_append,h r List.mem_cons_self,
      ih (fun s hs => h s (List.mem_cons_of_mem _ hs))]

theorem Appended.filled {rule : TopUpRule} {validity : Validity} {ownership : Ownership}
    {mid next : VersionedKVManager} {init fresh : List KVRef} {last ref : KVRef}
    {taken left : List Token} (hup : ToppedUp rule m mid last ref taken)
    (hinit : ∀ r ∈ init, next.pool.tokens r.physicalBlockId = m.pool.tokens r.physicalBlockId)
    (href : next.pool.tokens ref.physicalBlockId = mid.pool.tokens ref.physicalBlockId)
    (htile : Tiled (endOf (init ++ [ref])) fresh)
    (hval : ∀ r ∈ fresh, r.validity = validity ∧ r.ownership = ownership)
    (htok : tokensOf next.pool fresh = left) :
    Appended rule validity ownership m next (init ++ [last]) (init ++ [ref] ++ fresh)
      (taken ++ left) := by
  have hmerged := href.trans hup.tokens
  refine ⟨?_,?_,?_,?_,?_⟩
  · simp only [tokensOf_append,tokensOf_congr hinit,htok,tokensOf_cons,tokensOf_nil,hmerged,
      List.append_nil,List.append_assoc]
  · intro hadm
    rw [pairsOf_append,pairsOf_append,pairsOf_append,pairsOf_congr hinit,
      pairsOf_eq_map (fun r hr => (hval r hr).1),htok]
    simp only [pairsOf_cons,pairsOf_nil,hmerged,hup.validity,hadm last hup.admitted,
      List.append_nil,List.append_assoc,List.map_append]
  · intro ht
    obtain ⟨ht1,ht2⟩ := tiled_append.mp ht
    refine tiled_append.mpr ⟨tiled_append.mpr ⟨ht1,hup.start.trans ht2.1,trivial⟩,?_⟩
    rw [← endOf_eq_elim]
    exact htile
  · intro P hP hadopt hall r hr
    rcases List.mem_append.mp hr with hr | hr
    · rcases List.mem_append.mp hr with hr | hr
      · exact hall r (by simp [hr])
      · obtain rfl := List.mem_singleton.mp hr
        have hlast := hall last (by simp)
        rcases hup.ownership with ho | ho
        · exact ho ▸ hlast
        · exact ho ▸ hadopt _ hlast
    · exact (hval r hr).2 ▸ hP
  · intro P hP hall r hr
    rcases List.mem_append.mp hr with hr | hr
    · rcases List.mem_append.mp hr with hr | hr
      · exact hall r (by simp [hr])
      · obtain rfl := List.mem_singleton.mp hr
        exact hup.validity ▸ hall last (by simp)
    · exact (hval r hr).1 ▸ hP

theorem Appended.skipped {rule : TopUpRule} {validity : Validity} {ownership : Ownership}
    {next : VersionedKVManager} {fresh : List KVRef} {tokenIds : List Token}
    (hold : ∀ r ∈ refs, next.pool.tokens r.physicalBlockId = m.pool.tokens r.physicalBlockId)
    (htile : Tiled (endOf refs) fresh)
    (hval : ∀ r ∈ fresh, r.validity = validity ∧ r.ownership = ownership)
    (htok : tokensOf next.pool fresh = tokenIds) :
    Appended rule validity ownership m next refs (refs ++ fresh) tokenIds := by
  refine ⟨?_,?_,?_,?_,?_⟩
  · rw [tokensOf_append,tokensOf_congr hold,htok]
  · intro _
    rw [pairsOf_append,pairsOf_congr hold,pairsOf_eq_map (fun r hr => (hval r hr).1),htok]
  · intro ht
    refine tiled_append.mpr ⟨ht,?_⟩
    rw [← endOf_eq_elim]
    exact htile
  · intro P hP _ hall r hr
    rcases List.mem_append.mp hr with hr | hr
    · exact hall r hr
    · exact (hval r hr).2 ▸ hP
  · intro P hP hall r hr
    rcases List.mem_append.mp hr with hr | hr
    · exact hall r hr
    · exact (hval r hr).1 ▸ hP

theorem appendRefs_spec {rule : TopUpRule} (validity : Validity) (ownership : Ownership)
    (version : ℤ) (tokenIds : List Token) (h : Ledger m (refs ++ others))
    (hsafe : rule.Safe refs others) :
    ∃ result appended next, appendRefs rule validity ownership version refs tokenIds m =
        .ok (result,appended) next ∧
      Ledger next (result ++ others) ∧ TablesKept m next ∧ FrameOn m next others ∧
      Appended rule validity ownership m next refs result tokenIds := by
  by_cases hfill : ∃ init last, refs = init ++ [last] ∧ tokenIds ≠ [] ∧
      m.pool.blockSize - (m.pool.tokens last.physicalBlockId).length ≠ 0 ∧ rule.admits last = true
  · -- the last block takes over a part of the tokens
    obtain ⟨init,last,rfl,hne,hspace,hallow⟩ := hfill
    obtain ⟨ref,taken,mid,htop,htaken,hled,htab,hframe,hup⟩ :=
      topUp_fill version h hsafe hne hspace hallow
    obtain ⟨fresh,next,hrun,hled',htab',hframe',htile,hval,htok⟩ :=
      appendRefs_finish validity ownership htop hled
    have hsplit : taken ++ tokenIds.drop taken.length = tokenIds := by
      rw [htaken]
      exact List.prefix_iff_eq_append.mp (List.take_prefix _ _)
    have happ := Appended.filled hup (fun r hr => (hframe' r (by simp [hr])).trans
      (hframe r (by simp [hr]))) (hframe' ref (by simp)) htile hval htok
    refine ⟨init ++ [ref] ++ fresh,_,next,hrun,hled',htab.trans htab',?_,hsplit ▸ happ⟩
    exact fun s hs => (hframe' s (by simp [hs])).trans (hframe s (by simp [hs]))
  · -- all tokens go to new blocks
    have hskip : ∀ init last, refs = init ++ [last] → tokenIds ≠ [] →
        m.pool.blockSize - (m.pool.tokens last.physicalBlockId).length ≠ 0 →
        rule.admits last = false := by
      intro init last hinit hne hspace
      by_contra hadm
      exact hfill ⟨init,last,hinit,hne,hspace,by simpa using hadm⟩
    obtain ⟨fresh,next,hrun,hled',htab',hframe',htile,hval,htok⟩ :=
      appendRefs_finish validity ownership (topUp_skip version h hskip) h
    refine ⟨refs ++ fresh,_,next,hrun,hled',htab',fun s hs => hframe' s (by simp [hs]),?_⟩
    exact Appended.skipped (fun r hr => hframe' r (by simp [hr])) htile hval htok

end CueBee.Cache
