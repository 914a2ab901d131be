import CueBee.Cache.BlockPool
import CueBee.Support.PythonText

/-! # Logical cache references over the block pool

`VersionedKVManager` owns one list of references for each session and each branch.
Two sessions or branches share a block by naming the same physical block id; the three
writers copy a block before they change it where it may be shared. A `PoolError` inside
a manager operation is a fault: the local list of the operation is then not written back.
-/
namespace CueBee.Cache
open Raising

abbrev SessionId := PyStr
abbrev BranchId := PyStr

inductive Validity
  | committed
  | tentative
  | invalidated
deriving DecidableEq

inductive Ownership
  | spine
  | shared
  | branchPrivate
deriving DecidableEq

inductive Residency
  | gpu
  | cpu
  | evicted
deriving DecidableEq

structure KVRef where
  logicalId : ℕ
  tokenStart : ℕ
  tokenEnd : ℕ
  validity : Validity
  ownership : Ownership
  residency : Residency
  physicalBlockId : ℕ
  version : ℤ
deriving DecidableEq

structure RollbackResult where
  removedTokens : ℕ
  releasedBlocks : List ℕ
  copiedBlocks : ℕ
deriving DecidableEq

/-- The exceptions of the manager; `pool` wraps those of the block pool. -/
inductive KVError
  | invalidatedAppend
  | committedRollback
  | partialCommit
  | branchExists (branchId : BranchId)
  | unknownBranch (branchId : BranchId)
  | refCountMismatch
  | pool (error : PoolError)
deriving DecidableEq

structure VersionedKVManager where
  pool : BlockPool
  sessions : Dict SessionId (List KVRef)
  branches : Dict BranchId (List KVRef)
  nextLogicalId : ℕ
  copyOnWriteBlocks : ℕ
  rollbackTokens : ℕ

/-- `xs` cut into pieces of `size`, the last one possibly shorter. -/
def chunksOf {α : Type*} (size : ℕ) (hsize : 0 < size) : List α → List (List α)
  | [] => []
  | x :: rest => (x :: rest).take size :: chunksOf size hsize ((x :: rest).drop size)
termination_by xs => xs.length
decreasing_by
  simp only [List.length_drop, List.length_cons]
  omega

/-- `refs[-1].token_end if refs else 0`. -/
def endOf (refs : List KVRef) : ℕ :=
  match refs.getLast? with
  | some last => last.tokenEnd
  | none => 0

/-- How an append treats the last reference: whether it may be filled up, whether its
block has to be copied for that, and what the copy does to its ownership. -/
structure TopUpRule where
  admits : KVRef → Bool
  mustCopy : KVRef → PhysicalBlock → Bool
  adopt : Ownership → Ownership

namespace VersionedKVManager

def init (blockSize : ℕ) (h : 0 < blockSize) : VersionedKVManager where
  pool := BlockPool.init blockSize h
  sessions := Dict.empty
  branches := Dict.empty
  nextLogicalId := 0
  copyOnWriteBlocks := 0
  rollbackTokens := 0

/-- A call on the manager's pool. -/
def onPool {α : Type} (x : EStateM PoolError BlockPool α) : EStateM KVError VersionedKVManager α :=
  focus (fun m => m.pool) (fun pool m => { m with pool := pool }) KVError.pool x

def newRef (start stop : ℕ) (validity : Validity) (ownership : Ownership) (blockId : ℕ)
    (version : ℤ) : EStateM KVError VersionedKVManager KVRef := fun m =>
  .ok ⟨m.nextLogicalId,start,stop,validity,ownership,.gpu,blockId,version⟩
    { m with nextLogicalId := m.nextLogicalId + 1 }

def sessionRefs (m : VersionedKVManager) (sessionId : SessionId) : List KVRef :=
  (m.sessions.get? sessionId).getD []

/-- `_session(session_id).refs`, which creates the session's empty list on first use. -/
def session (sessionId : SessionId) : EStateM KVError VersionedKVManager (List KVRef) := fun m =>
  .ok (m.sessionRefs sessionId) { m with sessions := m.sessions.setDefault sessionId [] }

def setSession (sessionId : SessionId) (refs : List KVRef) (m : VersionedKVManager) :
    VersionedKVManager :=
  { m with sessions := m.sessions.set sessionId refs }

def setBranch (branchId : BranchId) (refs : List KVRef) (m : VersionedKVManager) :
    VersionedKVManager :=
  { m with branches := m.branches.set branchId refs }

/-- Move `ref` to a fresh block that holds `tokenIds`. -/
def copyOnWrite (ref : KVRef) (tokenIds : List Token) : EStateM KVError VersionedKVManager KVRef := do
  let replacement ← onPool (BlockPool.allocate tokenIds)
  let _ ← onPool (BlockPool.decref ref.physicalBlockId)
  modify (fun m => { m with copyOnWriteBlocks := m.copyOnWriteBlocks + 1 })
  return { ref with physicalBlockId := replacement }

/-- The last reference takes over the tokens `take`, in a copy of its block or in place. -/
def fillLast (rule : TopUpRule) (version : ℤ) (last : KVRef) (block : PhysicalBlock)
    (take : List Token) : EStateM KVError VersionedKVManager KVRef := do
  let ref ← (if rule.mustCopy last block then do
      let copy ← copyOnWrite last (block.tokenIds ++ take)
      return { copy with ownership := rule.adopt copy.ownership }
    else do
      onPool (BlockPool.extend last.physicalBlockId take)
      return last)
  return { ref with tokenEnd := ref.tokenEnd + take.length, version := version }

/-- The part of an append that fills the last block. The result is the list of
references, the tokens still to place and the reference that was changed. -/
def topUp (rule : TopUpRule) (version : ℤ) (refs : List KVRef) (remaining : List Token) :
    EStateM KVError VersionedKVManager (List KVRef × List Token × List KVRef) :=
  match refs.getLast? with
  | none => return (refs,remaining,[])
  | some last =>
    if remaining = [] then return (refs,remaining,[])
    else do
      let block ← onPool (BlockPool.get last.physicalBlockId)
      let m ← get
      if m.pool.blockSize - block.tokenIds.length ≠ 0 ∧ rule.admits last = true then do
        let take := remaining.take (m.pool.blockSize - block.tokenIds.length)
        let ref ← fillLast rule version last block take
        return (refs.dropLast ++ [ref],remaining.drop take.length,[ref])
      else return (refs,remaining,[])

/-- The `while remaining` loop of an append: one new block for each chunk. -/
def appendBlocks (validity : Validity) (ownership : Ownership) (version : ℤ) :
    ℕ → List (List Token) → EStateM KVError VersionedKVManager (List KVRef)
  | _, [] => return []
  | cursor, chunk :: rest => do
    let blockId ← onPool (BlockPool.allocate chunk)
    let ref ← newRef cursor (cursor + chunk.length) validity ownership blockId version
    let more ← appendBlocks validity ownership version (cursor + chunk.length) rest
    return ref :: more

/-- Both appends: the new list of references and the references that were touched. -/
def appendRefs (rule : TopUpRule) (validity : Validity) (ownership : Ownership) (version : ℤ)
    (refs : List KVRef) (tokenIds : List Token) :
    EStateM KVError VersionedKVManager (List KVRef × List KVRef) := do
  let (refs,remaining,topped) ← topUp rule version refs tokenIds
  let m ← get
  let fresh ← appendBlocks validity ownership version (endOf refs)
    (chunksOf m.pool.blockSize m.pool.blockSize_pos remaining)
  return (refs ++ fresh,topped ++ fresh)

def sessionRule (validity : Validity) : TopUpRule where
  admits last := last.validity = validity ∧ last.ownership = .spine
  mustCopy _ block := 1 < block.refCount
  adopt ownership := ownership

def branchRule : TopUpRule where
  admits _ := true
  mustCopy last _ := last.ownership = .shared
  adopt _ := .branchPrivate

def appendSession (sessionId : SessionId) (tokenIds : List Token) (validity : Validity)
    (version : ℤ) : EStateM KVError VersionedKVManager (List KVRef) :=
  if validity = .invalidated then throw .invalidatedAppend
  else do
    let refs ← session sessionId
    let (refs,appended) ← appendRefs (sessionRule validity) validity .spine version refs tokenIds
    modify (setSession sessionId refs)
    return appended

/-- The largest end of a committed reference, and 0 without one. -/
def committedFrontier (refs : List KVRef) : ℕ :=
  ((refs.filter (fun ref => ref.validity = .committed)).map KVRef.tokenEnd).foldl max 0

/-- The loop of `rollback_tentative`: kept references, freed blocks, number of copies. -/
def rollbackRefs (fromToken : ℕ) :
    List KVRef → EStateM KVError VersionedKVManager (List KVRef × List ℕ × ℕ)
  | [] => return ([],[],0)
  | ref :: rest =>
    if ref.tokenEnd ≤ fromToken then do
      let (kept,released,copied) ← rollbackRefs fromToken rest
      return (ref :: kept,released,copied)
    else if ref.tokenStart < fromToken ∧ fromToken < ref.tokenEnd then do
      let block ← onPool (BlockPool.get ref.physicalBlockId)
      let (ref,copies) ← (if 1 < block.refCount then do
          let copy ← copyOnWrite ref (block.tokenIds.take (fromToken - ref.tokenStart))
          return (copy,1)
        else do
          onPool (BlockPool.truncate ref.physicalBlockId (fromToken - ref.tokenStart))
          return (ref,0))
      let (kept,released,copied) ← rollbackRefs fromToken rest
      return ({ ref with tokenEnd := fromToken } :: kept,released,copies + copied)
    else do
      let freed ← onPool (BlockPool.decref ref.physicalBlockId)
      let (kept,released,copied) ← rollbackRefs fromToken rest
      return (kept,if freed then ref.physicalBlockId :: released else released,copied)

def rollbackTentative (sessionId : SessionId) (fromToken : ℤ) :
    EStateM KVError VersionedKVManager RollbackResult := do
  let refs ← session sessionId
  if fromToken < committedFrontier refs then throw .committedRollback
  else if endOf refs ≤ fromToken then return ⟨0,[],0⟩
  else do
    let (kept,released,copied) ← rollbackRefs fromToken.toNat refs
    modify (setSession sessionId kept)
    modify (fun m => { m with rollbackTokens := m.rollbackTokens + (endOf refs - fromToken.toNat) })
    return ⟨endOf refs - fromToken.toNat,released,copied⟩

def commitTentative (sessionId : SessionId) (frontier : ℤ) (version : ℤ) :
    EStateM KVError VersionedKVManager Unit := do
  let refs ← session sessionId
  if frontier ≠ endOf refs then throw .partialCommit
  else modify (setSession sessionId (refs.map (fun ref =>
    if ref.tokenEnd ≤ frontier then { ref with validity := .committed, version := version } else ref)))

/-- The loop of `fork_branch`: a shared reference for each admitted source. -/
def forkRefs (includeTentative : Bool) :
    List KVRef → EStateM KVError VersionedKVManager (List KVRef)
  | [] => return []
  | source :: rest =>
    if includeTentative = false ∧ source.validity ≠ .committed then forkRefs includeTentative rest
    else do
      onPool (BlockPool.incref source.physicalBlockId)
      let ref ← newRef source.tokenStart source.tokenEnd source.validity .shared
        source.physicalBlockId source.version
      let more ← forkRefs includeTentative rest
      return ref :: more

def forkBranch (branchId : BranchId) (sessionId : SessionId) (includeTentative : Bool) :
    EStateM KVError VersionedKVManager (List KVRef) := do
  let m ← get
  match m.branches.get? branchId with
  | some _ => throw (.branchExists branchId)
  | none => do
    let refs ← session sessionId
    let branchRefs ← forkRefs includeTentative refs
    modify (setBranch branchId branchRefs)
    return branchRefs

def appendBranch (branchId : BranchId) (tokenIds : List Token) (version : ℤ) :
    EStateM KVError VersionedKVManager (List KVRef) := do
  let m ← get
  match m.branches.get? branchId with
  | none => throw (.unknownBranch branchId)
  | some refs => do
    let (refs,appended) ← appendRefs branchRule .committed .branchPrivate version refs tokenIds
    modify (setBranch branchId refs)
    return appended

/-- The loop of `release_branch`: the ids of the blocks that were freed. -/
def releaseRefs : List KVRef → EStateM KVError VersionedKVManager (List ℕ)
  | [] => return []
  | ref :: rest => do
    let freed ← onPool (BlockPool.decref ref.physicalBlockId)
    let more ← releaseRefs rest
    return if freed then ref.physicalBlockId :: more else more

def releaseBranch (branchId : BranchId) : EStateM KVError VersionedKVManager (List ℕ) := do
  let m ← get
  match m.branches.get? branchId with
  | none => return []
  | some refs => do
    modify (fun m => { m with branches := m.branches.erase branchId })
    releaseRefs refs

/-- `_tokens`. -/
def readTokens : List KVRef → EStateM KVError VersionedKVManager (List Token)
  | [] => return []
  | ref :: rest => do
    let block ← onPool (BlockPool.get ref.physicalBlockId)
    let more ← readTokens rest
    return block.tokenIds ++ more

def sessionTokens (sessionId : SessionId) : EStateM KVError VersionedKVManager (List Token) := do
  let refs ← session sessionId
  readTokens refs

def branchRefs (branchId : BranchId) : EStateM KVError VersionedKVManager (List KVRef) := do
  let m ← get
  match m.branches.get? branchId with
  | none => throw (.unknownBranch branchId)
  | some refs => return refs

def branchTokens (branchId : BranchId) : EStateM KVError VersionedKVManager (List Token) := do
  let refs ← branchRefs branchId
  readTokens refs

/-- Every reference of every session, then of every branch. -/
def allRefs (m : VersionedKVManager) : List KVRef :=
  m.sessions.values.flatten ++ m.branches.values.flatten

/-- The dictionary `expected` of `validate_ref_counts`. -/
def expectedCounts (refs : List KVRef) : Dict ℕ ℕ :=
  refs.foldl (fun expected ref => expected.set ref.physicalBlockId
    ((expected.get? ref.physicalBlockId).getD 0 + 1)) Dict.empty

def validateRefCounts : EStateM KVError VersionedKVManager Unit := do
  let m ← get
  if (expectedCounts m.allRefs).sameItems m.pool.refCounts = true then return ()
  else throw .refCountMismatch

end VersionedKVManager
end CueBee.Cache
