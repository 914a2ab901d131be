import Mathlib.Data.Int.Notation
import CueBee.Support.Dictionary
import CueBee.Support.RaisingCalls

/-! # The reference-counted block pool

`BlockPool` keeps physical blocks of at most `blockSize` tokens. Every operation
checks first and writes afterwards, so a raised `PoolError` leaves the pool as it was.
-/
namespace CueBee.Cache
open Raising

abbrev Token := ℤ

structure PhysicalBlock where
  blockId : ℕ
  tokenIds : List Token
  refCount : ℕ
deriving DecidableEq

/-- The exceptions of `BlockPool`, one constructor for each raise. -/
inductive PoolError
  | badAllocateSize
  | unknownBlock (blockId : ℕ)
  | invalidRefCount (blockId : ℕ)
  | sharedBlock
  | capacityExceeded
  | badTruncateLength
deriving DecidableEq

structure BlockPool where
  blockSize : ℕ
  blockSize_pos : 0 < blockSize
  blocks : Dict ℕ PhysicalBlock
  nextBlockId : ℕ
  blocksAllocated : ℕ
  blocksFreed : ℕ

namespace BlockPool

def init (blockSize : ℕ) (h : 0 < blockSize) : BlockPool where
  blockSize := blockSize
  blockSize_pos := h
  blocks := Dict.empty
  nextBlockId := 0
  blocksAllocated := 0
  blocksFreed := 0

/-- The state change of a successful `allocate`. -/
def install (tokenIds : List Token) (pool : BlockPool) : BlockPool :=
  { pool with
    blocks := pool.blocks.set pool.nextBlockId ⟨pool.nextBlockId,tokenIds,1⟩
    nextBlockId := pool.nextBlockId + 1
    blocksAllocated := pool.blocksAllocated + 1 }

def allocate (tokenIds : List Token) : EStateM PoolError BlockPool ℕ := fun pool =>
  if tokenIds = [] ∨ pool.blockSize < tokenIds.length then .error .badAllocateSize pool
  else .ok pool.nextBlockId (pool.install tokenIds)

protected def get (blockId : ℕ) : EStateM PoolError BlockPool PhysicalBlock := fun pool =>
  match pool.blocks.get? blockId with
  | some block => .ok block pool
  | none => .error (.unknownBlock blockId) pool

/-- Writing the attributes of a block object that the pool holds. -/
def store (blockId : ℕ) (block : PhysicalBlock) (pool : BlockPool) : BlockPool :=
  { pool with blocks := pool.blocks.set blockId block }

/-- The state change of a `decref` that drops the last reference. -/
def discard (blockId : ℕ) (pool : BlockPool) : BlockPool :=
  { pool with
    blocks := pool.blocks.erase blockId
    blocksFreed := pool.blocksFreed + 1 }

def incref (blockId : ℕ) : EStateM PoolError BlockPool Unit := do
  let block ← BlockPool.get blockId
  modify (store blockId { block with refCount := block.refCount + 1 })

/-- The result says whether the block was freed. -/
def decref (blockId : ℕ) : EStateM PoolError BlockPool Bool := do
  let block ← BlockPool.get blockId
  if block.refCount = 0 then throw (.invalidRefCount blockId)
  else if block.refCount - 1 ≠ 0 then do
    modify (store blockId { block with refCount := block.refCount - 1 })
    return false
  else do
    modify (discard blockId)
    return true

def extend (blockId : ℕ) (tokenIds : List Token) : EStateM PoolError BlockPool Unit := do
  let block ← BlockPool.get blockId
  let pool ← get
  if block.refCount ≠ 1 then throw .sharedBlock
  else if pool.blockSize < block.tokenIds.length + tokenIds.length then throw .capacityExceeded
  else modify (store blockId { block with tokenIds := block.tokenIds ++ tokenIds })

def truncate (blockId : ℕ) (length : ℕ) : EStateM PoolError BlockPool Unit := do
  let block ← BlockPool.get blockId
  if block.refCount ≠ 1 then throw .sharedBlock
  else if ¬(0 < length ∧ length ≤ block.tokenIds.length) then throw .badTruncateLength
  else modify (store blockId { block with tokenIds := block.tokenIds.take length })

/-- The `ref_count` column of `snapshot`. -/
def refCounts (pool : BlockPool) : Dict ℕ ℕ := pool.blocks.mapValues (fun _ block => block.refCount)

def tokens (pool : BlockPool) (blockId : ℕ) : List Token :=
  match pool.blocks.get? blockId with
  | some block => block.tokenIds
  | none => []

def refCount (pool : BlockPool) (blockId : ℕ) : ℕ :=
  match pool.blocks.get? blockId with
  | some block => block.refCount
  | none => 0

theorem tokens_of_some {pool : BlockPool} {b : ℕ} {block : PhysicalBlock}
    (h : pool.blocks.get? b = some block) : pool.tokens b = block.tokenIds := by
  simp only [tokens,h]

theorem refCount_of_some {pool : BlockPool} {b : ℕ} {block : PhysicalBlock}
    (h : pool.blocks.get? b = some block) : pool.refCount b = block.refCount := by
  simp only [refCount,h]

theorem tokens_store (pool : BlockPool) (b c : ℕ) (block : PhysicalBlock) :
    (pool.store b block).tokens c = if c = b then block.tokenIds else pool.tokens c := by
  by_cases h : c = b <;> simp [tokens,store,Dict.get?_set,h]

theorem refCount_store (pool : BlockPool) (b c : ℕ) (block : PhysicalBlock) :
    (pool.store b block).refCount c = if c = b then block.refCount else pool.refCount c := by
  by_cases h : c = b <;> simp [refCount,store,Dict.get?_set,h]

theorem tokens_install (pool : BlockPool) (c : ℕ) (tokenIds : List Token) :
    (pool.install tokenIds).tokens c = if c = pool.nextBlockId then tokenIds else pool.tokens c := by
  by_cases h : c = pool.nextBlockId <;> simp [tokens,install,Dict.get?_set,h]

theorem refCount_install (pool : BlockPool) (c : ℕ) (tokenIds : List Token) :
    (pool.install tokenIds).refCount c = if c = pool.nextBlockId then 1 else pool.refCount c := by
  by_cases h : c = pool.nextBlockId <;> simp [refCount,install,Dict.get?_set,h]

theorem tokens_discard (pool : BlockPool) (b c : ℕ) :
    (pool.discard b).tokens c = if c = b then [] else pool.tokens c := by
  by_cases h : c = b <;> simp [tokens,discard,Dict.get?_erase,h]

theorem refCount_discard (pool : BlockPool) (b c : ℕ) :
    (pool.discard b).refCount c = if c = b then 0 else pool.refCount c := by
  by_cases h : c = b <;> simp [refCount,discard,Dict.get?_erase,h]

@[simp] theorem blockSize_install (pool : BlockPool) (tokenIds : List Token) :
    (pool.install tokenIds).blockSize = pool.blockSize := rfl
@[simp] theorem blockSize_discard (pool : BlockPool) (b : ℕ) :
    (pool.discard b).blockSize = pool.blockSize := rfl
@[simp] theorem blockSize_store (pool : BlockPool) (b : ℕ) (block : PhysicalBlock) :
    (pool.store b block).blockSize = pool.blockSize := rfl

theorem get_ok {pool : BlockPool} {b : ℕ} {block : PhysicalBlock}
    (h : pool.blocks.get? b = some block) : BlockPool.get b pool = .ok block pool := by
  simp only [BlockPool.get,h]

end BlockPool

end CueBee.Cache
