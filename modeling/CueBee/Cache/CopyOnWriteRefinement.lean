import CueBee.Cache.OperationSpecs

/-! # The manager refines the cache without blocks

`Op` lists the public operations of the manager, `perform` runs one, `spec` is its meaning on
the naive model. Operations that raise leave the caller in charge, as `runAll` says.
-/
namespace CueBee.Cache
open Raising VersionedKVManager PyStr

inductive Op
  | appendSession (s : SessionId) (tokenIds : List Token) (validity : Validity) (version : ℤ)
  | rollbackTentative (s : SessionId) (fromToken : ℤ)
  | commitTentative (s : SessionId) (frontier : ℤ) (version : ℤ)
  | forkBranch (b : BranchId) (s : SessionId) (includeTentative : Bool)
  | appendBranch (b : BranchId) (tokenIds : List Token) (version : ℤ)
  | releaseBranch (b : BranchId)
  | sessionRefs (s : SessionId)
  | branchRefs (b : BranchId)
  | sessionTokens (s : SessionId)
  | branchTokens (b : BranchId)
  | validateRefCounts

/-- One public call, its return value dropped. -/
def perform : Op → EStateM KVError VersionedKVManager Unit
  | .appendSession s tokenIds validity version => do
    let _ ← VersionedKVManager.appendSession s tokenIds validity version
  | .rollbackTentative s fromToken => do
    let _ ← VersionedKVManager.rollbackTentative s fromToken
  | .commitTentative s frontier version => VersionedKVManager.commitTentative s frontier version
  | .forkBranch b s includeTentative => do
    let _ ← VersionedKVManager.forkBranch b s includeTentative
  | .appendBranch b tokenIds version => do
    let _ ← VersionedKVManager.appendBranch b tokenIds version
  | .releaseBranch b => do
    let _ ← VersionedKVManager.releaseBranch b
  | .sessionRefs s => do
    let _ ← session s
  | .branchRefs b => do
    let _ ← VersionedKVManager.branchRefs b
  | .sessionTokens s => do
    let _ ← VersionedKVManager.sessionTokens s
  | .branchTokens b => do
    let _ ← VersionedKVManager.branchTokens b
  | .validateRefCounts => VersionedKVManager.validateRefCounts

/-- The same call on the naive model; reads change nothing. -/
def spec : Op → NaiveKV → Option NaiveKV
  | .appendSession s tokenIds validity _, n => n.appendSession s tokenIds validity
  | .rollbackTentative s fromToken, n => n.rollbackTentative s fromToken
  | .commitTentative s frontier _, n => n.commitTentative s frontier
  | .forkBranch b s includeTentative, n => n.forkBranch b s includeTentative
  | .appendBranch b tokenIds _, n => n.appendBranch b tokenIds
  | .releaseBranch b, n => n.releaseBranch b
  | .branchRefs b, n | .branchTokens b, n => (n.branches b).map (fun _ => n)
  | .sessionRefs _, n | .sessionTokens _, n | .validateRefCounts, n => some n

/-- The session whose list the operation may change. -/
def Op.session : Op → Option SessionId
  | .appendSession s .. | .rollbackTentative s _ | .commitTentative s .. => some s
  | _ => none

/-- The branch whose list the operation may change. -/
def Op.branch : Op → Option BranchId
  | .forkBranch b .. | .appendBranch b .. | .releaseBranch b => some b
  | _ => none

/-- The exceptions that report a broken block pool. -/
def KVError.Fault : KVError → Prop
  | .pool _ | .refCountMismatch => True
  | _ => False

variable {m : VersionedKVManager}

theorem discard_ok {α : Type} {x : EStateM KVError VersionedKVManager α} {a : α}
    {next : VersionedKVManager} (h : x m = .ok a next) :
    (do let _ ← x : EStateM KVError VersionedKVManager Unit) m = .ok () next := by
  simp only [bind_ok h]
  rfl

theorem discard_error {α : Type} {x : EStateM KVError VersionedKVManager α} {e : KVError}
    {next : VersionedKVManager} (h : x m = .error e next) :
    (do let _ ← x : EStateM KVError VersionedKVManager Unit) m = .error e next :=
  bind_error h

/-- Every operation keeps `Sound` and acts on the view as the naive model says. -/
theorem refines : Refines perform spec view Sound KVError.Fault := by
  intro op m h
  cases op with
  | appendSession s tokenIds validity version =>
    by_cases hv : validity = .invalidated
    · subst hv
      refine Ensures.of_error (discard_error (appendSession_invalidated tokenIds version)) ?_
      exact ⟨h,by simp [spec,NaiveKV.appendSession],rfl,by simp [KVError.Fault]⟩
    · obtain ⟨appended,next,hrun,hsound,hview⟩ := appendSession_ok (s := s) h hv tokenIds version
      refine Ensures.of_ok (discard_ok hrun) ⟨hsound,?_⟩
      simp only [spec,NaiveKV.appendSession,if_neg hv,hview]
  | rollbackTentative s fromToken =>
    by_cases hfrom : fromToken < NaiveKV.committedEnd (m.view.sessions s)
    · refine Ensures.of_error (discard_error (rollbackTentative_rejected h hfrom)) ?_
      exact ⟨h.touch s,by simp [spec,NaiveKV.rollbackTentative,hfrom],view_touch s m,
        by simp [KVError.Fault]⟩
    · obtain ⟨result,next,hrun,hsound,-,hview⟩ := rollbackTentative_ok h (not_lt.mp hfrom)
      refine Ensures.of_ok (discard_ok hrun) ⟨hsound,?_⟩
      simp only [spec,NaiveKV.rollbackTentative,if_neg hfrom,hview]
  | commitTentative s frontier version =>
    by_cases hfrontier : frontier = (m.view.sessions s).length
    · obtain ⟨next,hrun,hsound,hview⟩ := commitTentative_ok h version hfrontier
      refine Ensures.of_ok hrun ⟨hsound,?_⟩
      simp only [spec,NaiveKV.commitTentative,if_neg (not_not.mpr hfrontier),hview]
    · refine Ensures.of_error (commitTentative_rejected h version hfrontier) ?_
      exact ⟨h.touch s,by simp [spec,NaiveKV.commitTentative,hfrontier],view_touch s m,
        by simp [KVError.Fault]⟩
  | forkBranch b s includeTentative =>
    cases hb : m.view.branches b with
    | none =>
      obtain ⟨fresh,next,hrun,hsound,hview⟩ := forkBranch_ok (s := s) h hb includeTentative
      refine Ensures.of_ok (discard_ok hrun) ⟨hsound,?_⟩
      simp only [spec,NaiveKV.forkBranch,hb,hview]
    | some xs =>
      have hrun := forkBranch_rejected (m := m) (b := b) (s := s) (by simp [hb]) includeTentative
      refine Ensures.of_error (discard_error hrun) ?_
      exact ⟨h,by simp [spec,NaiveKV.forkBranch,hb],rfl,by simp [KVError.Fault]⟩
  | appendBranch b tokenIds version =>
    cases hb : m.view.branches b with
    | none =>
      refine Ensures.of_error (discard_error (appendBranch_rejected hb tokenIds version)) ?_
      exact ⟨h,by simp [spec,NaiveKV.appendBranch,hb],rfl,by simp [KVError.Fault]⟩
    | some xs =>
      obtain ⟨appended,next,hrun,hsound,hview⟩ := appendBranch_ok h hb tokenIds version
      refine Ensures.of_ok (discard_ok hrun) ⟨hsound,?_⟩
      simp only [spec,NaiveKV.appendBranch,hb,hview]
  | releaseBranch b =>
    obtain ⟨freed,next,hrun,hsound,hview⟩ := releaseBranch_ok (b := b) h
    refine Ensures.of_ok (discard_ok hrun) ⟨hsound,?_⟩
    simp only [spec,NaiveKV.releaseBranch,hview]
  | sessionRefs s =>
    refine Ensures.of_ok (discard_ok (session_eq s m)) ⟨h.touch s,?_⟩
    simp only [spec,view_touch]
  | branchRefs b =>
    cases hb : m.branches.get? b with
    | none =>
      refine Ensures.of_error (discard_error (branchRefs_rejected hb)) ?_
      exact ⟨h,by simp [spec,view,hb],rfl,by simp [KVError.Fault]⟩
    | some refs =>
      exact Ensures.of_ok (discard_ok (branchRefs_ok hb)) ⟨h,by simp [spec,view,hb]⟩
  | sessionTokens s =>
    refine Ensures.of_ok (discard_ok (sessionTokens_ok h s)) ⟨h.touch s,?_⟩
    simp only [spec,view_touch]
  | branchTokens b =>
    cases hb : m.view.branches b with
    | none =>
      refine Ensures.of_error (discard_error (branchTokens_rejected hb)) ?_
      exact ⟨h,by simp [spec,hb],rfl,by simp [KVError.Fault]⟩
    | some xs =>
      exact Ensures.of_ok (discard_ok (branchTokens_ok h hb)) ⟨h,by simp [spec,hb]⟩
  | validateRefCounts => exact Ensures.of_ok (validateRefCounts_spec h.ledger) ⟨h,rfl⟩

theorem run_sound {blockSize : ℕ} (hpos : 0 < blockSize) (ops : List Op) :
    Sound (runAll perform ops (init blockSize hpos)) ∧
      (runAll perform ops (init blockSize hpos)).view = specRun spec ops NaiveKV.empty :=
  refines.run ops (sound_init blockSize hpos)

theorem outcome_sessionTokens (h : Sound m) (s : SessionId) :
    outcome (sessionTokens s) m = .ok ((m.view.sessions s).map Prod.fst) :=
  outcome_ok (sessionTokens_ok h s)

theorem outcome_branchTokens (h : Sound m) (b : BranchId) :
    outcome (branchTokens b) m =
      match m.view.branches b with
      | some xs => .ok xs
      | none => .error (.unknownBranch b) := by
  cases hb : m.view.branches b with
  | none => exact outcome_error (branchTokens_rejected hb)
  | some xs => exact outcome_ok (branchTokens_ok h hb)

theorem sessionTokens_congr {next : VersionedKVManager} (h : Sound m) (h' : Sound next) {s : SessionId}
    (hs : next.view.sessions s = m.view.sessions s) :
    outcome (sessionTokens s) next = outcome (sessionTokens s) m := by
  rw [outcome_sessionTokens h',outcome_sessionTokens h,hs]

theorem branchTokens_congr {next : VersionedKVManager} (h : Sound m) (h' : Sound next) {b : BranchId}
    (hb : next.view.branches b = m.view.branches b) :
    outcome (branchTokens b) next = outcome (branchTokens b) m := by
  rw [outcome_branchTokens h',outcome_branchTokens h,hb]

theorem spec_session_frame {op : Op} {s : SessionId} (hop : op.session ≠ some s) {n n' : NaiveKV}
    (h : spec op n = some n') : n'.sessions s = n.sessions s := by
  cases op with
  | appendSession t _ _ _ | rollbackTentative t _ | commitTentative t _ _ =>
    have hne : s ≠ t := fun he => hop (he ▸ rfl)
    simp only [spec,NaiveKV.appendSession,NaiveKV.rollbackTentative,NaiveKV.commitTentative] at h
    split at h <;> cases h
    exact NaiveKV.sessions_putSession_ne n hne _
  | forkBranch _ _ _ | appendBranch _ _ _ =>
    simp only [spec,NaiveKV.forkBranch,NaiveKV.appendBranch] at h
    split at h <;> cases h
    rfl
  | branchRefs _ | branchTokens _ =>
    obtain ⟨-,-,rfl⟩ := Option.map_eq_some_iff.mp h
    rfl
  | releaseBranch _ | sessionRefs _ | sessionTokens _ | validateRefCounts =>
    cases h
    rfl

theorem spec_branch_frame {op : Op} {b : BranchId} (hop : op.branch ≠ some b) {n n' : NaiveKV}
    (h : spec op n = some n') : n'.branches b = n.branches b := by
  cases op with
  | appendSession _ _ _ _ | rollbackTentative _ _ | commitTentative _ _ _ =>
    simp only [spec,NaiveKV.appendSession,NaiveKV.rollbackTentative,NaiveKV.commitTentative] at h
    split at h <;> cases h
    rfl
  | forkBranch c _ _ | appendBranch c _ _ =>
    have hne : b ≠ c := fun he => hop (he ▸ rfl)
    simp only [spec,NaiveKV.forkBranch,NaiveKV.appendBranch] at h
    split at h <;> cases h
    exact NaiveKV.branches_putBranch_ne n hne _
  | releaseBranch c =>
    have hne : b ≠ c := fun he => hop (he ▸ rfl)
    cases h
    exact NaiveKV.branches_putBranch_ne n hne _
  | branchRefs _ | branchTokens _ =>
    obtain ⟨-,-,rfl⟩ := Option.map_eq_some_iff.mp h
    rfl
  | sessionRefs _ | sessionTokens _ | validateRefCounts =>
    cases h
    rfl

/-- Two states whose owners read the same tokens. -/
def SameTokens (m next : VersionedKVManager) : Prop :=
  (∀ s, outcome (sessionTokens s) next = outcome (sessionTokens s) m) ∧
  ∀ b, outcome (branchTokens b) next = outcome (branchTokens b) m

theorem SameTokens.of_view {next : VersionedKVManager} (h : Sound m) (h' : Sound next)
    (hview : next.view = m.view) : SameTokens m next :=
  ⟨fun s => sessionTokens_congr h h' (congrFun (congrArg NaiveKV.sessions hview) s),
    fun b => branchTokens_congr h h' (congrFun (congrArg NaiveKV.branches hview) b)⟩

theorem tokens_refine_naive (blockSize : ℕ) (hpos : 0 < blockSize) (ops : List Op) :
    let m := runAll perform ops (init blockSize hpos)
    let n := specRun spec ops NaiveKV.empty
    (∀ s, outcome (sessionTokens s) m = .ok ((n.sessions s).map Prod.fst)) ∧
    (∀ b, outcome (branchTokens b) m =
      match n.branches b with
      | some xs => .ok xs
      | none => .error (.unknownBranch b)) ∧
    ∀ op, ((∃ e next, perform op m = .error e next) ↔ spec op n = none) ∧
      (∀ s, op.session ≠ some s →
        outcome (sessionTokens s) (after (perform op) m) = outcome (sessionTokens s) m) ∧
      (∀ b, op.branch ≠ some b →
        outcome (branchTokens b) (after (perform op) m) = outcome (branchTokens b) m) ∧
      ∀ e next, perform op m = .error e next → SameTokens m next := by
  intro m n
  obtain ⟨hsound,hview⟩ : Sound m ∧ m.view = n := run_sound hpos ops
  refine ⟨?_,?_,?_⟩
  · intro s
    rw [outcome_sessionTokens hsound,hview]
  · intro b
    rw [outcome_branchTokens hsound,hview]
  · intro op
    have hop := refines op m hsound
    rw [← hview]
    cases hx : perform op m with
    | ok a t =>
      obtain ⟨ht,hspec⟩ := hop.ok hx
      rw [after_ok hx]
      refine ⟨⟨?_,?_⟩,?_,?_,?_⟩
      · rintro ⟨e,next,he⟩
        cases he
      · intro hnone
        rw [hspec] at hnone
        cases hnone
      · intro s hs
        exact sessionTokens_congr hsound ht (spec_session_frame hs hspec)
      · intro b hb
        exact branchTokens_congr hsound ht (spec_branch_frame hb hspec)
      · intro e next he
        cases he
    | error e t =>
      obtain ⟨ht,hspec,hsame,-⟩ := hop.error hx
      rw [after_error hx]
      have htokens : SameTokens m t := .of_view hsound ht hsame
      refine ⟨⟨fun _ => hspec,fun _ => ⟨e,t,rfl⟩⟩,fun s _ => htokens.1 s,fun b _ => htokens.2 b,?_⟩
      intro e' next he
      cases he
      exact htokens

/-- A branch forked from `s` keeps its tokens when `s` is rolled back and appended to. -/
theorem tokens_refine_naive_fork :
    let ops : List Op := [.appendSession (lit "s") [1,2,3] .tentative 1,
      .forkBranch (lit "b") (lit "s") true,.appendBranch (lit "b") [7] 1,
      .rollbackTentative (lit "s") 2,.appendSession (lit "s") [9] .tentative 2]
    outcome (sessionTokens (lit "s")) (runAll perform ops (init 4 (by decide))) = .ok [1,2,9] ∧
    outcome (branchTokens (lit "b")) (runAll perform ops (init 4 (by decide))) = .ok [1,2,3,7] := by
  intro ops
  obtain ⟨hsession,hbranch,-⟩ := tokens_refine_naive 4 (by decide) ops
  refine ⟨(hsession (lit "s")).trans ?_,(hbranch (lit "b")).trans ?_⟩
  · decide
  · decide

end CueBee.Cache
