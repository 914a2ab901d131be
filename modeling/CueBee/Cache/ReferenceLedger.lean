import CueBee.Cache.PoolBacking
import CueBee.Cache.VersionedKVManager
import Mathlib.Data.List.Pairwise

/-! # What the manager's loops do to a list of references

`Ledger m refs` ties the pool of `m` to an explicit list of references. Every loop of the
manager is specified against a ledger `refs ++ others`: it returns, it changes `refs` into
a new list, it leaves the tokens behind `others` alone, and the ledger holds again.
-/
namespace CueBee.Cache
open Raising

namespace KVRef

def footprint (r : KVRef) : Footprint := (r.physicalBlockId,r.tokenEnd - r.tokenStart)

/-- Two references of one manager differ in their logical ids. They name one block only if
no branch owns it and at most one of them is not a branch's shared reference. -/
def Apart (r s : KVRef) : Prop :=
  r.logicalId ≠ s.logicalId ∧
  (r.physicalBlockId = s.physicalBlockId →
    r.ownership ≠ .branchPrivate ∧ s.ownership ≠ .branchPrivate ∧
    (r.ownership = .shared ∨ s.ownership = .shared))

theorem Apart.symm {r s : KVRef} (h : Apart r s) : Apart s r :=
  ⟨h.1.symm,fun he => ⟨(h.2 he.symm).2.1,(h.2 he.symm).1,(h.2 he.symm).2.2.symm⟩⟩

instance : Std.Symm Apart := ⟨fun _ _ => Apart.symm⟩

end KVRef

def tokensOf (pool : BlockPool) (refs : List KVRef) : List Token :=
  refs.flatMap (fun r => pool.tokens r.physicalBlockId)

/-- The tokens of a list of references, each with the validity of its reference. -/
def pairsOf (pool : BlockPool) (refs : List KVRef) : List (Token × Validity) :=
  refs.flatMap (fun r => (pool.tokens r.physicalBlockId).map (fun t => (t,r.validity)))

/-- References that cover an interval from `start` without a gap. -/
def Tiled : ℕ → List KVRef → Prop
  | _, [] => True
  | start, r :: rest => r.tokenStart = start ∧ Tiled r.tokenEnd rest

/-- The blocks behind `refs` keep their tokens. -/
def FrameOn (m next : VersionedKVManager) (refs : List KVRef) : Prop :=
  ∀ r ∈ refs, next.pool.tokens r.physicalBlockId = m.pool.tokens r.physicalBlockId

/-- The tables of references and the roll-back counter are untouched. -/
structure TablesKept (m next : VersionedKVManager) : Prop where
  sessions : next.sessions = m.sessions
  branches : next.branches = m.branches
  rollbackTokens : next.rollbackTokens = m.rollbackTokens
  blockSize : next.pool.blockSize = m.pool.blockSize

theorem TablesKept.refl (m : VersionedKVManager) : TablesKept m m := ⟨rfl,rfl,rfl,rfl⟩
theorem TablesKept.trans {m n k : VersionedKVManager} (h : TablesKept m n) (h' : TablesKept n k) :
    TablesKept m k :=
  ⟨h'.sessions.trans h.sessions,h'.branches.trans h.branches,
    h'.rollbackTokens.trans h.rollbackTokens,h'.blockSize.trans h.blockSize⟩

section Lists
variable {pool next : BlockPool} {refs : List KVRef}

@[simp] theorem tokensOf_nil : tokensOf pool [] = [] := rfl
@[simp] theorem pairsOf_nil : pairsOf pool [] = [] := rfl
@[simp] theorem tokensOf_cons (r : KVRef) :
    tokensOf pool (r :: refs) = pool.tokens r.physicalBlockId ++ tokensOf pool refs := rfl
@[simp] theorem pairsOf_cons (r : KVRef) : pairsOf pool (r :: refs) =
    (pool.tokens r.physicalBlockId).map (fun t => (t,r.validity)) ++ pairsOf pool refs := rfl
@[simp] theorem tokensOf_append (more : List KVRef) :
    tokensOf pool (refs ++ more) = tokensOf pool refs ++ tokensOf pool more := by
  simp [tokensOf]
@[simp] theorem pairsOf_append (more : List KVRef) :
    pairsOf pool (refs ++ more) = pairsOf pool refs ++ pairsOf pool more := by
  simp [pairsOf]

theorem map_fst_pairsOf (pool : BlockPool) (refs : List KVRef) :
    (pairsOf pool refs).map Prod.fst = tokensOf pool refs := by
  induction refs with
  | nil => rfl
  | cons r rest ih => simp [ih,Function.comp_def]

theorem tokensOf_congr (h : ∀ r ∈ refs, next.tokens r.physicalBlockId = pool.tokens r.physicalBlockId) :
    tokensOf next refs = tokensOf pool refs :=
  List.flatMap_congr h

theorem pairsOf_congr (h : ∀ r ∈ refs, next.tokens r.physicalBlockId = pool.tokens r.physicalBlockId) :
    pairsOf next refs = pairsOf pool refs :=
  List.flatMap_congr (fun r hr => by rw [h r hr])

theorem getLast?_cons_elim (start : ℕ) (r : KVRef) (rest : List KVRef) :
    (r :: rest).getLast?.elim start KVRef.tokenEnd = rest.getLast?.elim r.tokenEnd KVRef.tokenEnd := by
  cases rest with
  | nil => rfl
  | cons s rest =>
    rw [List.getLast?_cons_cons,List.getLast?_eq_some_getLast (List.cons_ne_nil s rest)]
    rfl

theorem tiled_append {start : ℕ} {refs more : List KVRef} :
    Tiled start (refs ++ more) ↔
      Tiled start refs ∧ Tiled (refs.getLast?.elim start KVRef.tokenEnd) more := by
  induction refs generalizing start with
  | nil => simp [Tiled]
  | cons r rest ih => simp only [List.cons_append,Tiled,ih,and_assoc,getLast?_cons_elim]

theorem endOf_eq_elim (refs : List KVRef) : endOf refs = refs.getLast?.elim 0 KVRef.tokenEnd := by
  cases h : refs.getLast? <;> simp [endOf,h]

end Lists

/-- The pool of `m` holds exactly the blocks of `refs`, in the manager's sharing discipline. -/
structure Ledger (m : VersionedKVManager) (refs : List KVRef) : Prop where
  backed : Backed m.pool (refs.map KVRef.footprint)
  apart : refs.Pairwise KVRef.Apart
  numbered : ∀ r ∈ refs, r.logicalId < m.nextLogicalId

namespace Ledger
variable {m : VersionedKVManager} {refs others : List KVRef} {r : KVRef}

theorem perm (h : Ledger m refs) {refs' : List KVRef} (hp : refs.Perm refs') : Ledger m refs' where
  backed := h.backed.perm (hp.map _)
  apart := (hp.pairwise_iff (fun h => KVRef.Apart.symm h)).mp h.apart
  numbered r hr := h.numbered r (hp.mem_iff.mpr hr)

theorem apart_of_ne (h : Ledger m refs) {s : KVRef} (hr : r ∈ refs) (hs : s ∈ refs)
    (hne : r ≠ s) : r.Apart s :=
  h.apart.forall hr hs hne

theorem map_fst_footprint (refs : List KVRef) :
    (refs.map KVRef.footprint).map Prod.fst = refs.map KVRef.physicalBlockId := by
  simp [List.map_map,Function.comp_def,KVRef.footprint]

theorem span (h : Ledger m refs) (hr : r ∈ refs) :
    0 < (m.pool.tokens r.physicalBlockId).length ∧
    (m.pool.tokens r.physicalBlockId).length ≤ m.pool.blockSize ∧
    r.tokenEnd = r.tokenStart + (m.pool.tokens r.physicalBlockId).length := by
  have hm : r.footprint ∈ refs.map KVRef.footprint := List.mem_map.mpr ⟨r,hr,rfl⟩
  have hs := h.backed.spans _ hm
  have hpos := h.backed.length_pos hm
  have hle := h.backed.length_le hm
  simp only [KVRef.footprint] at hs hpos hle
  refine ⟨by omega,by omega,by omega⟩

theorem tokens_ne_nil (h : Ledger m refs) (hr : r ∈ refs) :
    m.pool.tokens r.physicalBlockId ≠ [] :=
  List.length_pos_iff.mp (h.span hr).1

theorem eq_nil_of_pairsOf (h : Ledger m (refs ++ others)) (hp : pairsOf m.pool refs = []) :
    refs = [] := by
  cases refs with
  | nil => rfl
  | cons r rest =>
    simp only [pairsOf_cons,List.append_eq_nil_iff,List.map_eq_nil_iff] at hp
    exact absurd hp.1 (h.tokens_ne_nil (by simp))

theorem get_ok (h : Ledger m refs) (hr : r ∈ refs) :
    ∃ block, VersionedKVManager.onPool (BlockPool.get r.physicalBlockId) m = .ok block m ∧
      block.tokenIds = m.pool.tokens r.physicalBlockId ∧
      block.refCount = (refs.map KVRef.physicalBlockId).count r.physicalBlockId := by
  have hm : r.footprint ∈ refs.map KVRef.footprint := List.mem_map.mpr ⟨r,hr,rfl⟩
  obtain ⟨block,hb,htok,hcount⟩ := h.backed.get_ok hm
  rw [map_fst_footprint] at hcount
  exact ⟨block,focus_ok hb,htok,hcount⟩

/-- A reference to the newest block, with the newest logical id. -/
theorem push {pool : BlockPool} (h : Ledger m refs) (ref : KVRef)
    (hback : Backed pool (ref.footprint :: refs.map KVRef.footprint))
    (hid : ref.logicalId = m.nextLogicalId)
    (happart : ∀ s ∈ refs, ref.physicalBlockId = s.physicalBlockId →
      ref.ownership = .shared ∧ s.ownership ≠ .branchPrivate) :
    Ledger { m with pool := pool, nextLogicalId := m.nextLogicalId + 1 } (ref :: refs) where
  backed := hback
  apart := by
    refine List.pairwise_cons.mpr ⟨?_,h.apart⟩
    intro s hs
    refine ⟨?_,fun he => ?_⟩
    · have := h.numbered s hs
      omega
    · obtain ⟨hshared,hpriv⟩ := happart s hs he
      exact ⟨by simp [hshared],hpriv,Or.inl hshared⟩
  numbered s hs := by
    show s.logicalId < m.nextLogicalId + 1
    rcases List.mem_cons.mp hs with rfl | hs
    · omega
    · exact Nat.lt_succ_of_lt (h.numbered s hs)

/-- The first reference changes its block or its span but keeps its logical id. -/
theorem replace {next : VersionedKVManager} (h : Ledger m (r :: refs)) (ref : KVRef)
    (hback : Backed next.pool (ref.footprint :: refs.map KVRef.footprint))
    (hnext : next.nextLogicalId = m.nextLogicalId) (hid : ref.logicalId = r.logicalId)
    (happart : ref.physicalBlockId ∉ refs.map KVRef.physicalBlockId) :
    Ledger next (ref :: refs) where
  backed := hback
  apart := by
    obtain ⟨hr,hrest⟩ := List.pairwise_cons.mp h.apart
    refine List.pairwise_cons.mpr ⟨?_,hrest⟩
    intro s hs
    refine ⟨hid ▸ (hr s hs).1,fun he => ?_⟩
    exact absurd (he ▸ List.mem_map.mpr ⟨s,hs,rfl⟩) happart
  numbered s hs := by
    rw [hnext]
    rcases List.mem_cons.mp hs with rfl | hs
    · rw [hid]
      exact h.numbered r List.mem_cons_self
    · exact h.numbered s (List.mem_cons_of_mem _ hs)

theorem decref (h : Ledger m (r :: refs)) :
    ∃ freed next, VersionedKVManager.onPool (BlockPool.decref r.physicalBlockId) m = .ok freed next ∧
      Ledger next refs ∧ (freed = true ↔ r.physicalBlockId ∉ refs.map KVRef.physicalBlockId) ∧
      FrameOn m next refs ∧ TablesKept m next ∧ next.nextLogicalId = m.nextLogicalId := by
  obtain ⟨freed,pool,hd,hback,hfreed,hframe,hsize⟩ := Backed.decref (r := r.footprint) h.backed
  rw [map_fst_footprint] at hfreed
  refine ⟨freed,{ m with pool := pool },focus_ok hd,?_,hfreed,?_,⟨rfl,rfl,rfl,hsize⟩,rfl⟩
  · exact ⟨hback,(List.pairwise_cons.mp h.apart).2,
      fun s hs => h.numbered s (List.mem_cons_of_mem _ hs)⟩
  · exact fun s hs => hframe s.footprint (List.mem_map.mpr ⟨s,hs,rfl⟩)

/-- `copyOnWrite` moves the first reference to a fresh block with the given tokens. -/
theorem copyOnWrite (h : Ledger m (r :: refs)) (tokenIds : List Token)
    (hpos : 0 < tokenIds.length) (hle : tokenIds.length ≤ m.pool.blockSize) :
    ∃ next, VersionedKVManager.copyOnWrite r tokenIds m =
        .ok { r with physicalBlockId := m.pool.nextBlockId } next ∧
      next.pool.tokens m.pool.nextBlockId = tokenIds ∧ FrameOn m next refs ∧ TablesKept m next ∧
      ∀ ref : KVRef, ref.logicalId = r.logicalId → ref.footprint = (m.pool.nextBlockId,tokenIds.length) →
        Ledger next (ref :: refs) := by
  obtain ⟨hall,hback,hframe⟩ := h.backed.allocate hpos hle
  have hnew : m.pool.nextBlockId ∉ refs.map KVRef.physicalBlockId := by
    have hn := h.backed.notMem_fresh
    rw [map_fst_footprint,List.map_cons,List.mem_cons,not_or] at hn
    exact hn.2
  have hback' := hback.perm (List.Perm.swap _ _ _)
  obtain ⟨freed,pool,hd,hback'',-,hframe',hsize⟩ := Backed.decref (r := r.footprint) hback'
  refine ⟨{ m with pool := pool, copyOnWriteBlocks := m.copyOnWriteBlocks + 1 },?_,?_,?_,
    ⟨rfl,rfl,rfl,hsize⟩,?_⟩
  · have h1 : VersionedKVManager.onPool (BlockPool.allocate tokenIds) m =
        .ok m.pool.nextBlockId { m with pool := m.pool.install tokenIds } := focus_ok hall
    have h2 : VersionedKVManager.onPool (BlockPool.decref r.physicalBlockId)
        { m with pool := m.pool.install tokenIds } = .ok freed { m with pool := pool } := focus_ok hd
    simp only [VersionedKVManager.copyOnWrite,bind_ok h1,bind_ok h2]
    rfl
  · rw [hframe' (m.pool.nextBlockId,tokenIds.length) List.mem_cons_self,BlockPool.tokens_install,
      if_pos rfl]
  · intro s hs
    have hm : s.footprint ∈ refs.map KVRef.footprint := List.mem_map.mpr ⟨s,hs,rfl⟩
    have h1 := hframe' s.footprint (List.mem_cons_of_mem _ hm)
    have h2 := hframe s.footprint (List.mem_cons_of_mem _ hm)
    exact h1.trans h2
  · intro ref hid hfoot
    refine h.replace ref (hfoot ▸ hback'') rfl hid ?_
    have hp : ref.physicalBlockId = m.pool.nextBlockId := congrArg Prod.fst hfoot
    exact hp ▸ hnew

end Ledger
end CueBee.Cache
