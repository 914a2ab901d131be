import CueBee.Cache.OperationSpecs
import CueBee.Runtime.BranchGraph

/-! # One specification for each method of the branch graph

The branch table and the cache's branch table move together: a branch that leaves the
active states is released in the same call. No method touches the tokens of a session.
-/
namespace CueBee.Runtime
open Cache Transcript Raising

/-- Every branch is stored under its id, and its id is that of its task. -/
def BranchGraph.Named (g : BranchGraph) : Prop :=
  ∀ id branch, g.branches.get? id = some branch →
    branch.branchId = id ∧ id = branchIdOf branch.taskId

/-- The branch after an invalidation by `newVersion`. -/
def Branch.invalidate (newVersion : ℕ) (branch : Branch) : Branch :=
  { branch with status := .invalidated, invalidatedByVersion := some newVersion }

namespace BranchGraph
variable {g next : BranchGraph} {id : BranchId} {branch : Branch}

theorem Named.branchId_eq (h : g.Named) (hb : g.branches.get? id = some branch) :
    branch.branchId = id := (h id branch hb).1

theorem get?_store (g : BranchGraph) (branch : Branch) (id : BranchId) :
    (g.store branch).branches.get? id =
      if id = branch.branchId then some branch else g.branches.get? id :=
  Dict.get?_set g.branches branch.branchId id branch

theorem named_store (h : g.Named) (branch : Branch) (hid : branch.branchId = branchIdOf branch.taskId) :
    (g.store branch).Named := by
  intro id b hb
  rw [get?_store] at hb
  by_cases he : id = branch.branchId
  · rw [if_pos he,Option.some.injEq] at hb
    subst hb
    exact ⟨he.symm,he.trans hid⟩
  · rw [if_neg he] at hb
    exact h id b hb

theorem Named.nodup_values (h : g.Named) : (g.branches.values.map Branch.branchId).Nodup := by
  rw [Dict.map_values_eq_keys fun _ _ hget => h.branchId_eq hget]
  exact g.branches.nodup_keys

theorem Named.get?_of_mem (h : g.Named) (hb : branch ∈ g.branches.values) :
    g.branches.get? branch.branchId = some branch := by
  obtain ⟨id,hid⟩ := (Dict.mem_values_iff _ _).mp hb
  rw [h.branchId_eq hid,hid]

theorem get_ok (h : g.branches.get? id = some branch) : BranchGraph.get id g = .ok branch g := by
  simp only [BranchGraph.get,h]

theorem release_ok (hs : g.kv.Sound) (id : BranchId) :
    ∃ freed kv, onKV (VersionedKVManager.releaseBranch id) g = .ok freed { g with kv := kv } ∧
      kv.Sound ∧ kv.view = g.kv.view.putBranch id none := by
  obtain ⟨freed,kv,hrun,hsound,hview⟩ := releaseBranch_ok (b := id) hs
  exact ⟨freed,kv,focus_ok hrun,hsound,hview⟩

theorem create_ok (hs : g.kv.Sound) (taskId : TaskId) (sessionId : SessionId) (kind : TaskKind)
    (baseVersion commitFrontier totalTokens : ℕ) (dependency : Option TokenRange)
    (hnew : g.branches.get? (branchIdOf taskId) = none)
    (hkv : g.kv.view.branches (branchIdOf taskId) = none) :
    let branch := newBranch taskId sessionId kind baseVersion commitFrontier totalTokens dependency
    ∃ kv, create taskId sessionId kind baseVersion commitFrontier totalTokens dependency g =
        .ok branch (store branch { g with kv := kv }) ∧ kv.Sound ∧
      kv.view = g.kv.view.putBranch (branchIdOf taskId)
        (some (NaiveKV.forked kind.currentVersion (g.kv.view.sessions sessionId))) := by
  intro branch
  obtain ⟨fresh,kv,hrun,hsound,hview⟩ := forkBranch_ok (s := sessionId) hs hkv kind.currentVersion
  have hfork : onKV (VersionedKVManager.forkBranch branch.branchId sessionId
      branch.includesTentative) g = .ok fresh { g with kv := kv } := focus_ok hrun
  refine ⟨kv,?_,hsound,hview⟩
  simp only [create,bind_ok (get_apply g),hnew]
  rw [bind_ok hfork]
  rfl

theorem create_exists {taskId : TaskId} (sessionId : SessionId) (kind : TaskKind)
    (baseVersion commitFrontier totalTokens : ℕ) (dependency : Option TokenRange)
    (h : g.branches.get? (branchIdOf taskId) = some branch) :
    create taskId sessionId kind baseVersion commitFrontier totalTokens dependency g =
      .error (.branchExists taskId) g := by
  simp only [create,bind_ok (get_apply g),h]
  rfl

theorem appendPrivatePrompt_ok (hs : g.kv.Sound) (h : g.branches.get? id = some branch)
    (hq : branch.status = .queued) {xs : List Token} (hkv : g.kv.view.branches id = some xs)
    (tokenIds : List Token) (version : ℤ) :
    ∃ kv, appendPrivatePrompt id tokenIds version g = .ok () { g with kv := kv } ∧ kv.Sound ∧
      kv.view = g.kv.view.putBranch id (some (xs ++ tokenIds)) := by
  obtain ⟨appended,kv,hrun,hsound,hview⟩ := appendBranch_ok hs hkv tokenIds version
  have happ : onKV (VersionedKVManager.appendBranch id tokenIds version) g =
      .ok appended { g with kv := kv } := focus_ok hrun
  refine ⟨kv,?_,hsound,hview⟩
  simp only [appendPrivatePrompt,bind_ok (get_ok h),if_neg (not_not.mpr hq),bind_ok happ]
  rfl

theorem markRunning_ok (h : g.branches.get? id = some branch) (hq : branch.status = .queued) :
    markRunning id g = .ok () (g.store { branch with status := .running }) := by
  simp only [markRunning,bind_ok (get_ok h),if_neg (not_not.mpr hq)]
  rfl

theorem complete_ok (hs : g.kv.Sound) (h : g.branches.get? id = some branch)
    (hr : branch.status = .running) :
    ∃ kv, complete id g = .ok () (store { branch with status := .completed } { g with kv := kv }) ∧
      kv.Sound ∧ kv.view = g.kv.view.putBranch id none := by
  obtain ⟨freed,kv,hrun,hsound,hview⟩ :=
    release_ok (g := g.store { branch with status := .completed }) hs id
  refine ⟨kv,?_,hsound,hview⟩
  simp only [complete,bind_ok (get_ok h),if_neg (not_not.mpr hr),bind_ok (modify_apply _ g),
    bind_ok hrun]
  rfl

theorem cancel_ok (hs : g.kv.Sound) (h : g.branches.get? id = some branch)
    (ha : branch.status.active = true) :
    ∃ kv, cancel id g = .ok () (store { branch with status := .cancelled } { g with kv := kv }) ∧
      kv.Sound ∧ kv.view = g.kv.view.putBranch id none := by
  obtain ⟨freed,kv,hrun,hsound,hview⟩ :=
    release_ok (g := g.store { branch with status := .cancelled }) hs id
  refine ⟨kv,?_,hsound,hview⟩
  simp only [cancel,bind_ok (get_ok h),if_pos ha,bind_ok (modify_apply _ g),bind_ok hrun]
  rfl

theorem cancel_inactive (h : g.branches.get? id = some branch)
    (ha : branch.status.active = false) : cancel id g = .ok () g := by
  simp only [cancel,bind_ok (get_ok h),ha,Bool.false_eq_true,if_false]
  rfl

/-- The effect of the invalidation loop on the branches of the list `bs`. -/
structure Invalidated (sessionId : SessionId) (changedRange : TokenRange) (newVersion : ℕ)
    (bs : List Branch) (g next : BranchGraph) : Prop where
  sound : next.kv.Sound
  sessions : next.kv.view.sessions = g.kv.view.sessions
  branches : ∀ id, next.branches.get? id = (g.branches.get? id).map (fun b =>
    if b ∈ bs ∧ stale sessionId changedRange newVersion b = true then b.invalidate newVersion else b)
  references : ∀ id, next.kv.view.branches id =
    if ∃ b ∈ bs, b.branchId = id ∧ stale sessionId changedRange newVersion b = true then none
    else g.kv.view.branches id

namespace Invalidated
variable {sessionId : SessionId} {changedRange : TokenRange} {newVersion : ℕ} {b : Branch}
  {rest : List Branch} {next : BranchGraph}

/-- A branch that is not stale is passed over. -/
theorem cons_fresh (h : Invalidated sessionId changedRange newVersion rest g next)
    (hst : ¬stale sessionId changedRange newVersion b = true) :
    Invalidated sessionId changedRange newVersion (b :: rest) g next where
  sound := h.sound
  sessions := h.sessions
  branches id := by
    rw [h.branches id]
    cases g.branches.get? id with
    | none => rfl
    | some b' =>
      by_cases hbb : b' = b
      · subst hbb
        simp [hst]
      · simp [hbb]
  references id := by
    have hiff : (∃ b' ∈ b :: rest, b'.branchId = id ∧
        stale sessionId changedRange newVersion b' = true) ↔
        ∃ b' ∈ rest, b'.branchId = id ∧ stale sessionId changedRange newVersion b' = true := by
      simp [hst]
    simp only [h.references id,hiff]

/-- A stale branch is marked and released before the loop goes on. -/
theorem cons_stale {kv : VersionedKVManager}
    (h : Invalidated sessionId changedRange newVersion rest
      { g.store (b.invalidate newVersion) with kv := kv } next)
    (hview : kv.view = g.kv.view.putBranch b.branchId none)
    (hst : stale sessionId changedRange newVersion b = true)
    (hget : g.branches.get? b.branchId = some b) (hnamed : g.Named)
    (hne : ∀ b' ∈ rest, b'.branchId ≠ b.branchId) :
    Invalidated sessionId changedRange newVersion (b :: rest) g next where
  sound := h.sound
  sessions := by
    rw [h.sessions,hview]
    rfl
  branches id := by
    have hstored := get?_store g (b.invalidate newVersion) id
    rw [h.branches id]
    show ((g.store (b.invalidate newVersion)).branches.get? id).map _ = _
    rw [hstored]
    by_cases hid : id = b.branchId
    · subst hid
      have hnot : b.invalidate newVersion ∉ rest := fun hm => hne _ hm rfl
      have hself : b.branchId = (b.invalidate newVersion).branchId := rfl
      rw [if_pos hself,hget]
      simp [hnot,hst]
    · have hother : ¬id = (b.invalidate newVersion).branchId := hid
      rw [if_neg hother]
      cases hg : g.branches.get? id with
      | none => rfl
      | some b' =>
        have hbb : b' ≠ b := by
          rintro rfl
          exact hid (hnamed.branchId_eq hg).symm
        simp [hbb]
  references id := by
    rw [h.references id,hview]
    by_cases hid : id = b.branchId
    · subst hid
      have hex : ∃ b' ∈ b :: rest, b'.branchId = b.branchId ∧
          stale sessionId changedRange newVersion b' = true := ⟨b,List.mem_cons_self,rfl,hst⟩
      rw [if_pos hex,NaiveKV.branches_putBranch_self]
      split <;> rfl
    · rw [NaiveKV.branches_putBranch_ne _ hid]
      have hiff : (∃ b' ∈ b :: rest, b'.branchId = id ∧
          stale sessionId changedRange newVersion b' = true) ↔
          ∃ b' ∈ rest, b'.branchId = id ∧ stale sessionId changedRange newVersion b' = true := by
        simp [Ne.symm hid]
      simp only [hiff]

end Invalidated

theorem invalidateBranches_ok (sessionId : SessionId) (changedRange : TokenRange) (newVersion : ℕ)
    {bs : List Branch} (hs : g.kv.Sound) (hnodup : (bs.map Branch.branchId).Nodup)
    (hnamed : g.Named) (hbs : ∀ b ∈ bs, g.branches.get? b.branchId = some b) :
    ∃ next, invalidateBranches sessionId changedRange newVersion bs g =
        .ok ((bs.filter (stale sessionId changedRange newVersion)).map Branch.taskId) next ∧
      Invalidated sessionId changedRange newVersion bs g next := by
  induction bs generalizing g with
  | nil => exact ⟨g,rfl,hs,rfl,fun id => by simp,fun id => by simp⟩
  | cons b rest ih =>
    obtain ⟨hb,hrest⟩ := List.nodup_cons.mp hnodup
    have hne : ∀ b' ∈ rest, b'.branchId ≠ b.branchId :=
      fun b' hb' he => hb (he ▸ List.mem_map.mpr ⟨b',hb',rfl⟩)
    have hget := hbs b List.mem_cons_self
    have htail : ∀ b' ∈ rest, g.branches.get? b'.branchId = some b' :=
      fun b' hb' => hbs b' (List.mem_cons_of_mem _ hb')
    by_cases hst : stale sessionId changedRange newVersion b = true
    · obtain ⟨freed,kv,hrel,hsound,hview⟩ :=
        release_ok (g := g.store (b.invalidate newVersion)) hs b.branchId
      have hmid : BranchGraph.Named { g.store (b.invalidate newVersion) with kv := kv } := by
        have hbid := (hnamed _ b hget).2
        exact named_store hnamed (b.invalidate newVersion) hbid
      have hrest' : ∀ b' ∈ rest, (g.store (b.invalidate newVersion)).branches.get? b'.branchId =
          some b' := by
        intro b' hb'
        have hother : ¬b'.branchId = (b.invalidate newVersion).branchId := hne b' hb'
        rw [get?_store,if_neg hother]
        exact htail b' hb'
      obtain ⟨next,hrun,hinv⟩ := ih (g := { g.store (b.invalidate newVersion) with kv := kv })
        hsound hrest hmid hrest'
      refine ⟨next,?_,hinv.cons_stale hview hst hget hnamed hne⟩
      have hstore : (modify (store { b with
          status := .invalidated, invalidatedByVersion := some newVersion }) :
          EStateM GraphError BranchGraph Unit) g = .ok () (g.store (b.invalidate newVersion)) := rfl
      simp only [invalidateBranches,if_pos hst,bind_ok hstore,bind_ok hrel,bind_ok hrun,
        List.filter_cons_of_pos hst,List.map_cons]
      rfl
    · obtain ⟨next,hrun,hinv⟩ := ih hs hrest hnamed htail
      refine ⟨next,?_,hinv.cons_fresh hst⟩
      simp only [invalidateBranches,if_neg hst,List.filter_cons_of_neg hst]
      exact hrun

/-- `invalidate` marks and releases exactly the stale branches and reports their tasks. -/
theorem invalidate_ok (sessionId : SessionId) (changedRange : TokenRange) (newVersion : ℕ)
    (hs : g.kv.Sound) (hnamed : g.Named) :
    ∃ next, invalidate sessionId changedRange newVersion g = .ok
        ((g.branches.values.filter (stale sessionId changedRange newVersion)).map Branch.taskId)
        next ∧
      Invalidated sessionId changedRange newVersion g.branches.values g next :=
  invalidateBranches_ok sessionId changedRange newVersion hs hnamed.nodup_values hnamed
    (fun _ hb => hnamed.get?_of_mem hb)

theorem keeps_get {J : BranchGraph → Prop} (id : BranchId) : Keeps J (BranchGraph.get id) := by
  refine keeps_iff.mpr (fun g hg => ?_)
  unfold Ensures BranchGraph.get
  cases g.branches.get? id with
  | none => exact hg
  | some branch => exact hg

/-- `J` survives the steps that the methods are made of. -/
structure Spared (J : BranchGraph → Prop) : Prop where
  store : ∀ branch g, J g → J (g.store branch)
  fork : ∀ id sessionId includeTentative,
    Keeps J (onKV (VersionedKVManager.forkBranch id sessionId includeTentative))
  append : ∀ id tokenIds version,
    Keeps J (onKV (VersionedKVManager.appendBranch id tokenIds version))
  release : ∀ id, Keeps J (onKV (VersionedKVManager.releaseBranch id))

namespace Spared
variable {J : BranchGraph → Prop} (h : Spared J)
include h

theorem keeps_store (branch : Branch) :
    Keeps J (modify (BranchGraph.store branch) : EStateM GraphError BranchGraph Unit) :=
  keeps_modify (h.store branch)

theorem create (taskId : TaskId) (sessionId : SessionId) (kind : TaskKind)
    (baseVersion commitFrontier totalTokens : ℕ) (dependency : Option TokenRange) :
    Keeps J (create taskId sessionId kind baseVersion commitFrontier totalTokens dependency) := by
  refine keeps_bind Raising.keeps_get (fun g => ?_)
  cases g.branches.get? (branchIdOf taskId) with
  | some branch => exact keeps_throw _
  | none => exact keeps_bind (h.fork _ _ _) (fun _ =>
      keeps_bind (h.keeps_store _) (fun _ => keeps_pure _))

theorem appendPrivatePrompt (id : BranchId) (tokenIds : List Token) (version : ℤ) :
    Keeps J (appendPrivatePrompt id tokenIds version) := by
  refine keeps_bind (keeps_get id) (fun branch => keeps_ite (fun _ => keeps_throw _) (fun _ => ?_))
  exact keeps_bind (h.append id tokenIds version) (fun _ => keeps_pure _)

theorem markRunning (id : BranchId) : Keeps J (markRunning id) :=
  keeps_bind (keeps_get id) (fun _ =>
    keeps_ite (fun _ => keeps_throw _) (fun _ => h.keeps_store _))

theorem complete (id : BranchId) : Keeps J (complete id) :=
  keeps_bind (keeps_get id) (fun _ => keeps_ite (fun _ => keeps_throw _) (fun _ =>
    keeps_bind (h.keeps_store _) (fun _ => keeps_bind (h.release id) (fun _ => keeps_pure _))))

theorem cancel (id : BranchId) : Keeps J (cancel id) :=
  keeps_bind (keeps_get id) (fun _ => keeps_ite (fun _ => keeps_bind (h.keeps_store _) (fun _ =>
    keeps_bind (h.release id) (fun _ => keeps_pure _))) (fun _ => keeps_pure _))

theorem invalidateBranches (sessionId : SessionId) (changedRange : TokenRange)
    (newVersion : ℕ) (bs : List Branch) :
    Keeps J (invalidateBranches sessionId changedRange newVersion bs) := by
  induction bs with
  | nil => exact keeps_pure _
  | cons b rest ih =>
    exact keeps_ite (fun _ => keeps_bind (h.keeps_store _) (fun _ =>
      keeps_bind (h.release _) (fun _ => keeps_bind ih (fun _ => keeps_pure _)))) (fun _ => ih)

theorem invalidate (sessionId : SessionId) (changedRange : TokenRange) (newVersion : ℕ) :
    Keeps J (invalidate sessionId changedRange newVersion) :=
  keeps_bind Raising.keeps_get (fun g => h.invalidateBranches _ _ _ g.branches.values)

end Spared

/-- The cache is sound and its sessions read as `xs`. -/
def SessionsRead (xs : SessionId → List (Token × Validity)) (g : BranchGraph) : Prop :=
  g.kv.Sound ∧ g.kv.view.sessions = xs

variable {xs : SessionId → List (Token × Validity)}

theorem keeps_release (id : BranchId) :
    Keeps (SessionsRead xs) (onKV (VersionedKVManager.releaseBranch id)) := by
  refine keeps_iff.mpr (fun g hg => ?_)
  obtain ⟨freed,kv,hrun,hsound,hview⟩ := release_ok hg.1 id
  refine Ensures.of_ok hrun ⟨hsound,?_⟩
  show kv.view.sessions = xs
  rw [hview]
  exact hg.2

theorem keeps_fork (id : BranchId) (sessionId : SessionId) (includeTentative : Bool) :
    Keeps (SessionsRead xs) (onKV (VersionedKVManager.forkBranch id sessionId includeTentative)) := by
  refine keeps_iff.mpr (fun g hg => ?_)
  cases hb : g.kv.view.branches id with
  | none =>
    obtain ⟨fresh,kv,hrun,hsound,hview⟩ := forkBranch_ok (s := sessionId) hg.1 hb includeTentative
    refine Ensures.of_ok (focus_ok hrun) ⟨hsound,?_⟩
    show kv.view.sessions = xs
    rw [hview]
    exact hg.2
  | some tokens =>
    have hrun := forkBranch_rejected (m := g.kv) (b := id) (s := sessionId) (by simp [hb])
      includeTentative
    exact Ensures.of_error (focus_error hrun) hg

theorem keeps_append (id : BranchId) (tokenIds : List Token) (version : ℤ) :
    Keeps (SessionsRead xs) (onKV (VersionedKVManager.appendBranch id tokenIds version)) := by
  refine keeps_iff.mpr (fun g hg => ?_)
  cases hb : g.kv.view.branches id with
  | none => exact Ensures.of_error (focus_error (appendBranch_rejected hb tokenIds version)) hg
  | some tokens =>
    obtain ⟨appended,kv,hrun,hsound,hview⟩ := appendBranch_ok hg.1 hb tokenIds version
    refine Ensures.of_ok (focus_ok hrun) ⟨hsound,?_⟩
    show kv.view.sessions = xs
    rw [hview]
    exact hg.2

theorem spared_sessionsRead : Spared (SessionsRead xs) where
  store _ _ hg := hg
  fork := keeps_fork
  append := keeps_append
  release := keeps_release

end BranchGraph
end CueBee.Runtime
