import CueBee.Cache.ReferenceLedger
import Mathlib.Data.List.Induction

/-! # Specifications of the roll-back, fork, release and read loops

One lemma for each loop, by induction on the list that the loop walks. The references
that the loop does not own are the list `others` of its ledger.
-/
namespace CueBee.Cache
open Raising VersionedKVManager

variable {m : VersionedKVManager} {refs others : List KVRef}

/-- The effect of a roll-back on a tiled list of references that begins at `start`. -/
structure RolledBack (fromToken start : ℕ) (m next : VersionedKVManager)
    (refs kept : List KVRef) : Prop where
  pairs : pairsOf next.pool kept = (pairsOf m.pool refs).take (fromToken - start)
  tiled : Tiled start kept
  kinds : ∀ P : Validity → Ownership → Prop, (∀ r ∈ refs, P r.validity r.ownership) →
    ∀ r ∈ kept, P r.validity r.ownership

theorem length_pairs_head (h : Ledger m refs) {r : KVRef} (hr : r ∈ refs) :
    ((m.pool.tokens r.physicalBlockId).map (fun t => (t,r.validity))).length =
      r.tokenEnd - r.tokenStart := by
  have hs := h.span hr
  rw [List.length_map]
  omega

/-- A reference whose whole span is rolled away, or whose successors are: nothing is left. -/
theorem RolledBack.kept_nil {fromToken start : ℕ} {next : VersionedKVManager} {kept : List KVRef}
    (h : RolledBack fromToken start m next refs kept) (hled : Ledger next (kept ++ others))
    (hle : fromToken ≤ start) : kept = [] := by
  apply hled.eq_nil_of_pairsOf
  rw [h.pairs,Nat.sub_eq_zero_of_le hle,List.take_zero]

theorem keepRef_spec {r : KVRef} {fromToken : ℕ} (h : Ledger m (r :: others))
    (hin : r.tokenStart < fromToken ∧ fromToken < r.tokenEnd) :
    ∃ ref copies next,
      (do
        let block ← onPool (BlockPool.get r.physicalBlockId)
        if 1 < block.refCount then do
          let copy ← VersionedKVManager.copyOnWrite r (block.tokenIds.take (fromToken - r.tokenStart))
          return (copy,1)
        else do
          onPool (BlockPool.truncate r.physicalBlockId (fromToken - r.tokenStart))
          return (r,0)) m = .ok (ref,copies) next ∧
      Ledger next ({ ref with tokenEnd := fromToken } :: others) ∧ TablesKept m next ∧
      FrameOn m next others ∧
      ref.tokenStart = r.tokenStart ∧ ref.validity = r.validity ∧ ref.ownership = r.ownership ∧
      next.pool.tokens ref.physicalBlockId =
        (m.pool.tokens r.physicalBlockId).take (fromToken - r.tokenStart) := by
  obtain ⟨hpos,hle,hspan⟩ := h.span List.mem_cons_self
  obtain ⟨block,hget,htok,hcount⟩ := h.get_ok List.mem_cons_self
  have hlen : ((m.pool.tokens r.physicalBlockId).take (fromToken - r.tokenStart)).length =
      fromToken - r.tokenStart := by
    rw [List.length_take]
    omega
  by_cases hshared : 1 < block.refCount
  · obtain ⟨next,hcow,hcowtok,hframe,htab,hledger⟩ := h.copyOnWrite
      ((m.pool.tokens r.physicalBlockId).take (fromToken - r.tokenStart))
      (by omega) (by omega)
    refine ⟨{ r with physicalBlockId := m.pool.nextBlockId },1,next,?_,?_,htab,hframe,
      rfl,rfl,rfl,hcowtok⟩
    · simp only [bind_ok hget,if_pos hshared,htok,bind_ok hcow]
      rfl
    · refine hledger { r with physicalBlockId := m.pool.nextBlockId, tokenEnd := fromToken } rfl ?_
      rw [hlen]
      rfl
  · rw [List.map_cons,List.count_cons_self] at hcount
    have halone : r.physicalBlockId ∉ others.map KVRef.physicalBlockId :=
      List.count_eq_zero.mp (by omega)
    have hback : Backed m.pool (r.footprint :: others.map KVRef.footprint) := h.backed
    obtain ⟨pool,htrunc,hback',htrunctok,hframe,hsize⟩ := Backed.truncate (r := r.footprint) hback
      (by rwa [Ledger.map_fst_footprint]) (fromToken - r.tokenStart) (by omega)
      (by simp only [KVRef.footprint]; omega)
    refine ⟨r,0,{ m with pool := pool },?_,?_,⟨rfl,rfl,rfl,hsize⟩,?_,rfl,rfl,rfl,htrunctok⟩
    · have h1 : onPool (BlockPool.truncate r.physicalBlockId (fromToken - r.tokenStart)) m =
          .ok () { m with pool := pool } := focus_ok htrunc
      simp only [bind_ok hget,if_neg hshared,bind_ok h1]
      rfl
    · exact h.replace { r with tokenEnd := fromToken } hback' rfl rfl halone
    · exact fun s hs => hframe s.footprint (List.mem_map.mpr ⟨s,hs,rfl⟩)

theorem rollbackRefs_spec (fromToken : ℕ) {start : ℕ} (h : Ledger m (refs ++ others))
    (ht : Tiled start refs) :
    ∃ kept released copied next,
      rollbackRefs fromToken refs m = .ok (kept,released,copied) next ∧
      Ledger next (kept ++ others) ∧ TablesKept m next ∧ FrameOn m next others ∧
      RolledBack fromToken start m next refs kept := by
  induction refs generalizing m others start with
  | nil =>
    exact ⟨[],[],0,m,rfl,h,TablesKept.refl m,fun _ _ => rfl,by simp,trivial,fun _ _ => by simp⟩
  | cons r rest ih =>
    obtain ⟨rfl,htail⟩ := ht
    have hcons : Ledger m (r :: (rest ++ others)) := h
    have hspan := h.span List.mem_cons_self
    have hlen := length_pairs_head h List.mem_cons_self
    by_cases hkeep : r.tokenEnd ≤ fromToken
    · -- the reference is kept as it is
      obtain ⟨kept,released,copied,next,hrun,hled,htab,hframe,hroll⟩ :=
        ih (hcons.perm List.perm_middle.symm) htail
      have hr := hframe r List.mem_cons_self
      refine ⟨r :: kept,released,copied,next,?_,hled.perm List.perm_middle,htab,
        fun s hs => hframe s (List.mem_cons_of_mem _ hs),?_,⟨rfl,hroll.tiled⟩,?_⟩
      · simp only [rollbackRefs,if_pos hkeep,bind_ok hrun]
        rfl
      · have hhead := List.take_of_length_le (i := fromToken - r.tokenStart)
          (l := (m.pool.tokens r.physicalBlockId).map (fun t => (t,r.validity))) (by omega)
        have htake : fromToken - r.tokenStart - (r.tokenEnd - r.tokenStart) =
            fromToken - r.tokenEnd := by omega
        rw [pairsOf_cons,pairsOf_cons,hr,hroll.pairs,List.take_append,hhead,hlen,htake]
      · intro P hP s hs
        rcases List.mem_cons.mp hs with rfl | hs
        · exact hP s List.mem_cons_self
        · exact hroll.kinds P (fun s hs => hP s (List.mem_cons_of_mem _ hs)) s hs
    · by_cases hin : r.tokenStart < fromToken ∧ fromToken < r.tokenEnd
      · -- the reference is cut, all later ones go
        obtain ⟨ref,copies,mid,hcut,hled,htab,hframe,hstart,hval,hown,htok⟩ :=
          keepRef_spec hcons hin
        obtain ⟨kept,released,copied,next,hrun,hled',htab',hframe',hroll⟩ :=
          ih (hled.perm List.perm_middle.symm) htail
        have hnil := hroll.kept_nil hled' (by omega)
        subst hnil
        refine ⟨[{ ref with tokenEnd := fromToken }],released,copies + copied,next,?_,hled',
          htab.trans htab',?_,?_,⟨hstart,trivial⟩,?_⟩
        · rw [bind_ok_iff] at hcut
          obtain ⟨block,mid',hget,hcut⟩ := hcut
          simp only [rollbackRefs,if_neg hkeep,if_pos hin,bind_ok hget,bind_ok hcut,bind_ok hrun]
          rfl
        · exact fun s hs => (hframe' s (List.mem_cons_of_mem _ hs)).trans (hframe s (by simp [hs]))
        · have href := hframe' _ List.mem_cons_self
          simp only [pairsOf_cons,pairsOf_nil,List.append_nil]
          rw [List.take_append_of_le_length (by omega),← List.map_take,href,htok,hval]
        · intro P hP s hs
          obtain rfl := List.mem_singleton.mp hs
          have := hP r List.mem_cons_self
          rwa [← hval,← hown] at this
      · -- the reference goes
        obtain ⟨freed,mid,hdec,hled,-,hframe,htab,-⟩ := hcons.decref
        obtain ⟨kept,released,copied,next,hrun,hled',htab',hframe',hroll⟩ :=
          ih hled htail
        have hnil := hroll.kept_nil hled' (by omega)
        subst hnil
        refine ⟨[],if freed then r.physicalBlockId :: released else released,copied,next,?_,hled',
          htab.trans htab',?_,?_,trivial,fun _ _ => by simp⟩
        · simp only [rollbackRefs,if_neg hkeep,if_neg hin,bind_ok hdec,bind_ok hrun]
          rfl
        · exact fun s hs => (hframe' s hs).trans (hframe s (by simp [hs]))
        · rw [pairsOf_nil,Nat.sub_eq_zero_of_le (by omega),List.take_zero]

/-- The references that a fork takes over. -/
def KVRef.forked (includeTentative : Bool) (r : KVRef) : Bool :=
  includeTentative || r.validity = .committed

theorem forkRefs_spec (includeTentative : Bool) {sources : List KVRef} (h : Ledger m refs)
    (hsrc : ∀ r ∈ sources, r ∈ refs ∧ r.ownership = .spine) :
    ∃ fresh next, forkRefs includeTentative sources m = .ok fresh next ∧
      Ledger next (fresh ++ refs) ∧ TablesKept m next ∧ FrameOn m next refs ∧
      (∀ r ∈ fresh, r.ownership = .shared) ∧
      tokensOf next.pool fresh = tokensOf m.pool (sources.filter (KVRef.forked includeTentative)) := by
  induction sources generalizing m refs with
  | nil => exact ⟨[],m,rfl,h,TablesKept.refl m,fun _ _ => rfl,by simp,rfl⟩
  | cons source rest ih =>
    by_cases hskip : includeTentative = false ∧ source.validity ≠ .committed
    · obtain ⟨fresh,next,hrun,hled,htab,hframe,hown,htok⟩ :=
        ih h (fun r hr => hsrc r (List.mem_cons_of_mem _ hr))
      refine ⟨fresh,next,?_,hled,htab,hframe,hown,?_⟩
      · simp only [forkRefs,if_pos hskip,hrun]
      · rw [htok,List.filter_cons_of_neg (by simp [KVRef.forked,hskip.1,hskip.2])]
    · obtain ⟨hmem,hspine⟩ := hsrc source List.mem_cons_self
      obtain ⟨pool,hinc,hback,hsame,hsize⟩ := h.backed.incref (r := source.footprint)
        (List.mem_map.mpr ⟨source,hmem,rfl⟩)
      let ref : KVRef := ⟨m.nextLogicalId,source.tokenStart,source.tokenEnd,source.validity,
        .shared,.gpu,source.physicalBlockId,source.version⟩
      have hpush : Ledger { m with pool := pool, nextLogicalId := m.nextLogicalId + 1 }
          (ref :: refs) := by
        refine h.push ref hback rfl ?_
        intro s hs he
        refine ⟨rfl,?_⟩
        by_cases hss : source = s
        · simp [← hss,hspine]
        · have hap := h.apart_of_ne hmem hs hss
          exact (hap.2 he).2.1
      obtain ⟨fresh,next,hrun,hled,htab,hframe,hown,htok⟩ := ih hpush
        (fun r hr => ⟨List.mem_cons_of_mem _ (hsrc r (List.mem_cons_of_mem _ hr)).1,
          (hsrc r (List.mem_cons_of_mem _ hr)).2⟩)
      refine ⟨ref :: fresh,next,?_,hled.perm List.perm_middle,?_,?_,?_,?_⟩
      · have h1 : onPool (BlockPool.incref source.physicalBlockId) m =
            .ok () { m with pool := pool } := focus_ok hinc
        have h2 : newRef source.tokenStart source.tokenEnd source.validity .shared
            source.physicalBlockId source.version { m with pool := pool } = .ok ref { m with
            pool := pool, nextLogicalId := m.nextLogicalId + 1 } := rfl
        simp only [forkRefs,if_neg hskip,bind_ok h1,bind_ok h2,bind_ok hrun]
        rfl
      · exact TablesKept.trans (n := { m with
          pool := pool, nextLogicalId := m.nextLogicalId + 1 }) ⟨rfl,rfl,rfl,hsize⟩ htab
      · exact fun s hs => (hframe s (List.mem_cons_of_mem _ hs)).trans (hsame _)
      · intro r hr
        rcases List.mem_cons.mp hr with rfl | hr
        · rfl
        · exact hown r hr
      · have hkeep : source.forked includeTentative = true := by
          cases includeTentative <;> simp_all [KVRef.forked]
        have hhead : next.pool.tokens ref.physicalBlockId =
            m.pool.tokens source.physicalBlockId :=
          (hframe ref List.mem_cons_self).trans (hsame _)
        rw [tokensOf_cons,htok,List.filter_cons_of_pos hkeep,tokensOf_cons,hhead]
        exact congrArg _ (tokensOf_congr (fun r _ => hsame _))

theorem releaseRefs_spec (h : Ledger m (refs ++ others)) :
    ∃ freed next, releaseRefs refs m = .ok freed next ∧ Ledger next others ∧
      TablesKept m next ∧ FrameOn m next others := by
  induction refs generalizing m with
  | nil => exact ⟨[],m,rfl,h,TablesKept.refl m,fun _ _ => rfl⟩
  | cons r rest ih =>
    have hcons : Ledger m (r :: (rest ++ others)) := h
    obtain ⟨freed,mid,hdec,hled,-,hframe,htab,-⟩ := hcons.decref
    obtain ⟨more,next,hrun,hled',htab',hframe'⟩ := ih hled
    refine ⟨if freed then r.physicalBlockId :: more else more,next,?_,hled',htab.trans htab',?_⟩
    · simp only [releaseRefs,bind_ok hdec,bind_ok hrun]
      rfl
    · exact fun s hs => (hframe' s hs).trans (hframe s (by simp [hs]))

theorem readTokens_spec (h : Ledger m (refs ++ others)) :
    readTokens refs m = .ok (tokensOf m.pool refs) m := by
  induction refs generalizing others with
  | nil => rfl
  | cons r rest ih =>
    obtain ⟨block,hget,htok,-⟩ := h.get_ok (r := r) (by simp)
    have hcons : Ledger m (r :: (rest ++ others)) := h
    have hrest := ih (hcons.perm List.perm_middle.symm)
    simp only [readTokens,bind_ok hget,bind_ok hrest,htok]
    rfl

theorem get?_expectedCounts (refs : List KVRef) (b : ℕ) :
    ((expectedCounts refs).get? b).getD 0 = (refs.map KVRef.physicalBlockId).count b ∧
    ((expectedCounts refs).get? b = none ↔ b ∉ refs.map KVRef.physicalBlockId) := by
  induction refs using List.reverseRecOn with
  | nil => simp [expectedCounts]
  | append_singleton init last ih =>
    have hstep : expectedCounts (init ++ [last]) =
        (expectedCounts init).set last.physicalBlockId
          (((expectedCounts init).get? last.physicalBlockId).getD 0 + 1) := by
      simp [expectedCounts]
    rw [hstep,Dict.get?_set,List.map_append,List.count_append]
    by_cases hb : b = last.physicalBlockId
    · subst hb
      simp [ih.1]
    · have hne : ([last].map KVRef.physicalBlockId).count b = 0 := by
        simp [Ne.symm hb]
      rw [if_neg hb,hne]
      simpa [hb] using ih

theorem validateRefCounts_spec (h : Ledger m m.allRefs) : validateRefCounts m = .ok () m := by
  have hsame : (expectedCounts m.allRefs).sameItems m.pool.refCounts = true := by
    rw [Dict.sameItems_iff]
    intro b
    obtain ⟨hcount,hnone⟩ := get?_expectedCounts m.allRefs b
    have hc := h.backed.counted b
    rw [Ledger.map_fst_footprint] at hc
    rw [BlockPool.refCounts,Dict.get?_mapValues]
    cases hb : m.pool.blocks.get? b with
    | none =>
      simp only [BlockPool.refCount,hb] at hc
      exact hnone.mpr (List.count_eq_zero.mp hc.symm)
    | some block =>
      have hlive := h.backed.live b block hb
      rw [BlockPool.refCount_of_some hb] at hc
      cases he : (expectedCounts m.allRefs).get? b with
      | none =>
        have := List.count_eq_zero.mpr (hnone.mp he)
        omega
      | some k =>
        rw [he] at hcount
        simp only [Option.getD_some] at hcount
        simp only [Option.map_some,Option.some.injEq]
        omega
  simp only [validateRefCounts,bind_ok (get_apply m),if_pos hsame]
  rfl

end CueBee.Cache
