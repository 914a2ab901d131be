import CueBee.Cache.VersionedKVManager

/-! # The counter of rolled-back tokens

`rollback_tokens` grows by what `rollback_tentative` reports and by nothing else, whatever the
state of the cache and at both exits of every method.
-/
namespace CueBee.Cache
open Raising

namespace VersionedKVManager

/-- The cache has counted `n` rolled-back tokens. -/
def RolledBack (n : ℕ) (m : VersionedKVManager) : Prop := m.rollbackTokens = n

variable {n : ℕ}

theorem keeps_onPool {α : Type} (x : EStateM PoolError BlockPool α) :
    Keeps (RolledBack n) (onPool x) :=
  keeps_focus (fun m hm => by
    unfold Ensures
    cases x m.pool with
    | ok a pool => exact hm
    | error e pool => exact hm)

theorem keeps_newRef (start stop : ℕ) (validity : Validity) (ownership : Ownership) (blockId : ℕ)
    (version : ℤ) : Keeps (RolledBack n) (newRef start stop validity ownership blockId version) :=
  fun _ hm => hm

theorem keeps_session (sessionId : SessionId) : Keeps (RolledBack n) (session sessionId) :=
  fun _ hm => hm

theorem keeps_setSession (sessionId : SessionId) (refs : List KVRef) :
    Keeps (RolledBack n) (modify (setSession sessionId refs) : EStateM KVError _ PUnit) :=
  keeps_modify (fun _ hm => hm)

theorem keeps_setBranch (branchId : BranchId) (refs : List KVRef) :
    Keeps (RolledBack n) (modify (setBranch branchId refs) : EStateM KVError _ PUnit) :=
  keeps_modify (fun _ hm => hm)

theorem keeps_copyOnWrite (ref : KVRef) (tokenIds : List Token) :
    Keeps (RolledBack n) (copyOnWrite ref tokenIds) := by
  refine keeps_bind (keeps_onPool _) (fun replacement => keeps_bind (keeps_onPool _) (fun _ => ?_))
  exact keeps_bind (keeps_modify (fun _ hm => hm)) (fun _ => keeps_pure _)

theorem keeps_fillLast (rule : TopUpRule) (version : ℤ) (last : KVRef) (block : PhysicalBlock)
    (take : List Token) : Keeps (RolledBack n) (fillLast rule version last block take) := by
  refine keeps_bind (keeps_ite (fun _ => ?_) (fun _ => ?_)) (fun _ => keeps_pure _)
  · exact keeps_bind (keeps_copyOnWrite _ _) (fun _ => keeps_pure _)
  · exact keeps_bind (keeps_onPool _) (fun _ => keeps_pure _)

theorem keeps_topUp (rule : TopUpRule) (version : ℤ) (refs : List KVRef) (remaining : List Token) :
    Keeps (RolledBack n) (topUp rule version refs remaining) := by
  unfold topUp
  cases refs.getLast? with
  | none => exact keeps_pure _
  | some last =>
    refine keeps_ite (fun _ => keeps_pure _) (fun _ => ?_)
    refine keeps_bind (keeps_onPool _) (fun block => keeps_bind keeps_get (fun m => ?_))
    refine keeps_ite (fun _ => ?_) (fun _ => keeps_pure _)
    exact keeps_bind (keeps_fillLast _ _ _ _ _) (fun _ => keeps_pure _)

theorem keeps_appendBlocks (validity : Validity) (ownership : Ownership) (version : ℤ)
    (cursor : ℕ) (chunks : List (List Token)) :
    Keeps (RolledBack n) (appendBlocks validity ownership version cursor chunks) := by
  induction chunks generalizing cursor with
  | nil => exact keeps_pure _
  | cons chunk rest ih =>
    refine keeps_bind (keeps_onPool _) (fun blockId => keeps_bind (keeps_newRef _ _ _ _ _ _) ?_)
    exact fun ref => keeps_bind (ih _) (fun _ => keeps_pure _)

theorem keeps_appendRefs (rule : TopUpRule) (validity : Validity) (ownership : Ownership)
    (version : ℤ) (refs : List KVRef) (tokenIds : List Token) :
    Keeps (RolledBack n) (appendRefs rule validity ownership version refs tokenIds) := by
  refine keeps_bind (keeps_topUp _ _ _ _) (fun _ => keeps_bind keeps_get (fun m => ?_))
  exact keeps_bind (keeps_appendBlocks _ _ _ _ _) (fun _ => keeps_pure _)

theorem keeps_appendSession (sessionId : SessionId) (tokenIds : List Token) (validity : Validity)
    (version : ℤ) : Keeps (RolledBack n) (appendSession sessionId tokenIds validity version) := by
  refine keeps_ite (fun _ => keeps_throw _) (fun _ => keeps_bind (keeps_session _) (fun refs => ?_))
  refine keeps_bind (keeps_appendRefs _ _ _ _ _ _) (fun _ => ?_)
  exact keeps_bind (keeps_setSession _ _) (fun _ => keeps_pure _)

theorem keeps_appendBranch (branchId : BranchId) (tokenIds : List Token) (version : ℤ) :
    Keeps (RolledBack n) (appendBranch branchId tokenIds version) := by
  refine keeps_bind keeps_get (fun m => ?_)
  cases m.branches.get? branchId with
  | none => exact keeps_throw _
  | some refs =>
    refine keeps_bind (keeps_appendRefs _ _ _ _ _ _) (fun _ => ?_)
    exact keeps_bind (keeps_setBranch _ _) (fun _ => keeps_pure _)

theorem keeps_forkRefs (includeTentative : Bool) (refs : List KVRef) :
    Keeps (RolledBack n) (forkRefs includeTentative refs) := by
  induction refs with
  | nil => exact keeps_pure _
  | cons source rest ih =>
    refine keeps_ite (fun _ => ih) (fun _ => keeps_bind (keeps_onPool _) (fun _ => ?_))
    exact keeps_bind (keeps_newRef _ _ _ _ _ _) (fun _ => keeps_bind ih (fun _ => keeps_pure _))

theorem keeps_forkBranch (branchId : BranchId) (sessionId : SessionId) (includeTentative : Bool) :
    Keeps (RolledBack n) (forkBranch branchId sessionId includeTentative) := by
  refine keeps_bind keeps_get (fun m => ?_)
  cases m.branches.get? branchId with
  | some refs => exact keeps_throw _
  | none =>
    refine keeps_bind (keeps_session _) (fun refs => keeps_bind (keeps_forkRefs _ _) (fun _ => ?_))
    exact keeps_bind (keeps_setBranch _ _) (fun _ => keeps_pure _)

theorem keeps_releaseRefs (refs : List KVRef) : Keeps (RolledBack n) (releaseRefs refs) := by
  induction refs with
  | nil => exact keeps_pure _
  | cons ref rest ih =>
    exact keeps_bind (keeps_onPool _) (fun _ => keeps_bind ih (fun _ => keeps_pure _))

theorem keeps_releaseBranch (branchId : BranchId) :
    Keeps (RolledBack n) (releaseBranch branchId) := by
  refine keeps_bind keeps_get (fun m => ?_)
  cases m.branches.get? branchId with
  | none => exact keeps_pure _
  | some refs =>
    exact keeps_bind (keeps_modify (fun _ hm => hm)) (fun _ => keeps_releaseRefs refs)

theorem keeps_readTokens (refs : List KVRef) : Keeps (RolledBack n) (readTokens refs) := by
  induction refs with
  | nil => exact keeps_pure _
  | cons ref rest ih =>
    exact keeps_bind (keeps_onPool _) (fun _ => keeps_bind ih (fun _ => keeps_pure _))

theorem keeps_sessionTokens (sessionId : SessionId) :
    Keeps (RolledBack n) (sessionTokens sessionId) :=
  keeps_bind (keeps_session _) (fun refs => keeps_readTokens refs)

theorem keeps_commitTentative (sessionId : SessionId) (frontier version : ℤ) :
    Keeps (RolledBack n) (commitTentative sessionId frontier version) :=
  keeps_bind (keeps_session _) (fun _ =>
    keeps_ite (fun _ => keeps_throw _) (fun _ => keeps_setSession _ _))

theorem keeps_validateRefCounts : Keeps (RolledBack n) validateRefCounts :=
  keeps_bind keeps_get (fun _ => keeps_ite (fun _ => keeps_pure _) (fun _ => keeps_throw _))

theorem keeps_rollbackRefs (fromToken : ℕ) (refs : List KVRef) :
    Keeps (RolledBack n) (rollbackRefs fromToken refs) := by
  induction refs with
  | nil => exact keeps_pure _
  | cons ref rest ih =>
    refine keeps_ite (fun _ => keeps_bind ih (fun _ => keeps_pure _)) (fun _ => ?_)
    refine keeps_ite (fun _ => keeps_bind (keeps_onPool _) (fun block => ?_)) (fun _ => ?_)
    · refine keeps_bind (keeps_ite (fun _ => ?_) (fun _ => ?_)) (fun _ => ?_)
      · exact keeps_bind (keeps_copyOnWrite _ _) (fun _ => keeps_pure _)
      · exact keeps_bind (keeps_onPool _) (fun _ => keeps_pure _)
      · exact keeps_bind ih (fun _ => keeps_pure _)
    · exact keeps_bind (keeps_onPool _) (fun _ => keeps_bind ih (fun _ => keeps_pure _))

/-- The counter grows by the tokens that a roll-back reports. -/
theorem rolledBack_rollbackTentative {m next : VersionedKVManager} {sessionId : SessionId}
    {fromToken : ℤ} {result : RollbackResult}
    (hrun : rollbackTentative sessionId fromToken m = .ok result next) (hm : RolledBack n m) :
    RolledBack (n + result.removedTokens) next := by
  obtain ⟨refs,m1,hsession,hrun⟩ := bind_ok_iff.mp hrun
  have hm1 := (keeps_session sessionId).ok hm hsession
  split at hrun
  · cases hrun
  · split at hrun
    · cases hrun
      exact hm1
    · obtain ⟨⟨kept,released,copied⟩,m2,hroll,hrun⟩ := bind_ok_iff.mp hrun
      have hm2 : m2.rollbackTokens = n := (keeps_rollbackRefs _ refs).ok hm1 hroll
      cases hrun
      exact congrArg (· + _) hm2

end VersionedKVManager
end CueBee.Cache
