import CueBee.Cache.PhysicalSharing

/-! # The life of a branch

A branch starts with shared references and copies at most the last of them: after that
its last reference is its own. Over a whole run the counter of the manager is the number
of references that moved, call by call.
-/
namespace CueBee.Cache
open Raising VersionedKVManager PyStr

variable {m next : VersionedKVManager} {b : BranchId} {refs forked : List KVRef} {copies : ℕ}

/-- The references that the calls selected by `own` moved in a run, call by call. -/
def copiesIn (own : Op → Bool) : List Op → VersionedKVManager → ℕ
  | [], _ => 0
  | op :: rest, m =>
    (if own op then (moved m (after (perform op) m)).length else 0) +
      copiesIn own rest (after (perform op) m)

theorem counter_of_run (h : Sound m) (ops : List Op) :
    (runAll perform ops m).copyOnWriteBlocks =
      m.copyOnWriteBlocks + copiesIn (fun _ => true) ops m := by
  induction ops generalizing m with
  | nil => rfl
  | cons op rest ih =>
    have hcount := (sharing_step h op).counted
    rw [runAll_cons,ih (refines.keeps op m h),copiesIn,hcount,if_pos rfl]
    omega

/-- The list of a branch after its fork with `forked` and after `copies` copies: it is as
the fork left it, or it ends in a reference of its own. -/
def Lineage (forked refs : List KVRef) (copies : ℕ) : Prop :=
  (refs = forked ∧ copies = 0) ∨
  (copies ≤ 1 ∧ ∃ init last, refs = init ++ [last] ∧ forked.dropLast <+: init ∧
    last.ownership = .branchPrivate)

theorem Lineage.copies_le (h : Lineage forked refs copies) : copies ≤ 1 := by
  rcases h with ⟨-,h⟩ | ⟨h,-⟩ <;> omega

theorem Lineage.inherited (h : Lineage forked refs copies) : forked.dropLast <+: refs := by
  rcases h with ⟨rfl,-⟩ | ⟨-,init,last,rfl,hkeep,-⟩
  · exact List.dropLast_prefix _
  · exact hkeep.trans (List.prefix_append _ _)

/-- New references of its own keep a branch in the second case. -/
theorem lineage_append {init more : List KVRef} {last : KVRef} (hcopies : copies ≤ 1)
    (hkeep : forked.dropLast <+: init) (hlast : last.ownership = .branchPrivate)
    (hmore : ∀ r ∈ more, r.ownership = .branchPrivate) :
    Lineage forked (init ++ [last] ++ more) copies := by
  right
  refine ⟨hcopies,?_⟩
  rcases List.eq_nil_or_concat more with rfl | ⟨front,newest,rfl⟩
  · exact ⟨init,last,by simp,hkeep,hlast⟩
  · refine ⟨init ++ [last] ++ front,newest,by simp,?_,hmore newest (by simp)⟩
    rw [List.append_assoc]
    exact hkeep.trans (List.prefix_append _ _)

/-- One append of the branch. -/
theorem Lineage.append {refs' more : List KVRef} {fresh k : ℕ} (h : Lineage forked refs copies)
    (hshared : ∀ r ∈ forked, r.ownership = .shared) (hfill : Filled branchRule fresh refs refs' k)
    (hmore : ∀ r ∈ more, r.ownership = .branchPrivate) :
    Lineage forked (refs' ++ more) (copies + k) := by
  rcases h with ⟨rfl,rfl⟩ | ⟨hcopies,init₀,last₀,hrefs,hkeep,hlast⟩
  · cases hfill with
    | skipped =>
      rcases List.eq_nil_or_concat more with rfl | ⟨front,newest,rfl⟩
      · exact Or.inl ⟨List.append_nil _,rfl⟩
      · right
        refine ⟨by omega,refs ++ front,newest,by simp,?_,hmore newest (by simp)⟩
        exact (List.dropLast_prefix _).trans (List.prefix_append _ _)
    | inPlace init last ref block hcopy =>
      -- a shared reference is never filled on its own block
      have hown := hshared last (by simp)
      simp [branchRule,hown] at hcopy
    | copied init last ref block _ _ hown =>
      exact lineage_append (by omega) (by simp) hown hmore
  · cases hfill with
    | skipped =>
      subst hrefs
      exact lineage_append hcopies hkeep hlast hmore
    | inPlace init last ref block _ _ hown =>
      obtain ⟨rfl,hsame⟩ := List.append_inj' hrefs rfl
      obtain rfl : last = last₀ := by simpa using hsame
      exact lineage_append hcopies hkeep (hown.trans hlast) hmore
    | copied init last ref block hcopy =>
      -- the last reference is the branch's own
      obtain ⟨-,hsame⟩ := List.append_inj' hrefs rfl
      obtain rfl : last = last₀ := by simpa using hsame
      simp [branchRule,hlast] at hcopy

/-- One call of anybody, except the release of the branch. -/
theorem lineage_step (h : Sound m) (hshared : ∀ r ∈ forked, r.ownership = .shared)
    (hb : m.branches.get? b = some refs) (hline : Lineage forked refs copies) {op : Op}
    (hop : op ≠ .releaseBranch b) :
    ∃ refs', (after (perform op) m).branches.get? b = some refs' ∧
      Lineage forked refs' (copies +
        if op.branch = some b then (moved m (after (perform op) m)).length else 0) := by
  have hstep := sharing_step h op
  by_cases hown : op.branch = some b
  · rw [if_pos hown]
    cases op with
    | forkBranch c s includeTentative =>
      -- the id is taken
      obtain rfl : c = b := Option.some.inj hown
      have hne : m.view.branches c ≠ none := by simp [view,hb]
      have hrun := discard_error (forkBranch_rejected (s := s) hne includeTentative)
      have hafter : after (perform (.forkBranch c s includeTentative)) m = m := after_error hrun
      have hcount := hstep.counted
      rw [hafter] at hcount ⊢
      have hzero : (moved m m).length = 0 := by omega
      exact ⟨refs,hb,by rwa [hzero]⟩
    | appendBranch c tokenIds version =>
      obtain rfl : c = b := Option.some.inj hown
      obtain ⟨appended,next,hrun,-⟩ := appendBranch_ok h (view_branch_some.mpr ⟨refs,hb,rfl⟩)
        tokenIds version
      have hafter : after (perform (.appendBranch c tokenIds version)) m = next :=
        after_ok (discard_ok hrun)
      obtain ⟨found,refs',fresh,k,hfound,hbranch,-,hfill,hprivate,hcount⟩ := appendBranch_inv h hrun
      obtain rfl : refs = found := Option.some.inj (hb.symm.trans hfound)
      have hcounted := hstep.counted
      rw [hafter] at hcounted ⊢
      have hk : (moved m next).length = k := by omega
      refine ⟨refs' ++ fresh,?_,?_⟩
      · rw [hbranch,Dict.get?_set_self]
      · rw [hk]
        exact hline.append hshared hfill hprivate
    | releaseBranch c =>
      obtain rfl : c = b := Option.some.inj hown
      exact absurd rfl hop
    | appendSession | rollbackTentative | commitTentative | sessionRefs | branchRefs
      | sessionTokens | branchTokens | validateRefCounts => cases hown
  · rw [if_neg hown]
    exact ⟨refs,(hstep.branches b hown).trans hb,hline⟩

theorem lineage_of_run (h : Sound m) (hshared : ∀ r ∈ forked, r.ownership = .shared)
    (hb : m.branches.get? b = some refs) (hline : Lineage forked refs copies) {life : List Op}
    (hlife : .releaseBranch b ∉ life) :
    ∃ refs', (runAll perform life m).branches.get? b = some refs' ∧
      Lineage forked refs' (copies + copiesIn (fun op => op.branch = some b) life m) := by
  induction life generalizing m refs copies with
  | nil => exact ⟨refs,hb,hline⟩
  | cons op rest ih =>
    obtain ⟨hop,hrest⟩ := not_or.mp (fun hmem => hlife (List.mem_cons.mpr hmem))
    obtain ⟨refs',hb',hline'⟩ := lineage_step h hshared hb hline (fun he => hop he.symm)
    obtain ⟨last,hlast,hrun⟩ := ih (refines.keeps op m h) hb' hline' hrest
    refine ⟨last,hlast,?_⟩
    rw [Nat.add_assoc] at hrun
    simpa only [copiesIn,decide_eq_true_eq] using hrun

/-- What a roll-back of session `s` reports is what it did. -/
structure RollbackReported (s : SessionId) (m next : VersionedKVManager)
    (result : RollbackResult) : Prop where
  kept : (next.sessionRefs s).map KVRef.logicalId <+: (m.sessionRefs s).map KVRef.logicalId
  copied : result.copiedBlocks = (moved m next).length
  removed : ∃ kept removed, outcome (sessionTokens s) m = .ok (kept ++ removed) ∧
    outcome (sessionTokens s) next = .ok kept ∧ result.removedTokens = removed.length
  released : FreedExactly m next result.releasedBlocks

/-- Branch `b` took `forked` over: until it is released, it copies one block at most and
keeps every reference but the last as it got them. -/
def KeepsInherited (b : BranchId) (forked : List KVRef) (m : VersionedKVManager) : Prop :=
  ∀ life : List Op, .releaseBranch b ∉ life →
    copiesIn (fun op => op.branch = some b) life m ≤ 1 ∧
    ∃ refs, (runAll perform life m).branches.get? b = some refs ∧ forked.dropLast <+: refs

theorem sharing_reported (blockSize : ℕ) (hpos : 0 < blockSize) (ops : List Op) :
    let m := runAll perform ops (init blockSize hpos)
    m.copyOnWriteBlocks = copiesIn (fun _ => true) ops (init blockSize hpos) ∧
    (∀ op, SharingKept op m (after (perform op) m)) ∧
    (∀ s tokenIds validity version appended next,
      appendSession s tokenIds validity version m = .ok appended next →
      (m.sessionRefs s).map KVRef.logicalId <+: (next.sessionRefs s).map KVRef.logicalId) ∧
    (∀ b tokenIds version appended next, appendBranch b tokenIds version m = .ok appended next →
      ∃ refs result, m.branches.get? b = some refs ∧ next.branches.get? b = some result ∧
        refs.map KVRef.logicalId <+: result.map KVRef.logicalId) ∧
    (∀ s fromToken result next, rollbackTentative s fromToken m = .ok result next →
      RollbackReported s m next result) ∧
    (∀ b s includeTentative, SameBlocks m (after (forkBranch b s includeTentative) m)) ∧
    (∀ b s includeTentative forked next, forkBranch b s includeTentative m = .ok forked next →
      next.branches.get? b = some forked ∧
      forked.map KVRef.physicalBlockId = ((m.sessionRefs s).filter
        (KVRef.forked includeTentative)).map KVRef.physicalBlockId ∧
      KeepsInherited b forked next) ∧
    ∀ b freed next, releaseBranch b m = .ok freed next → FreedExactly m next freed := by
  intro m
  have h : Sound m := (run_sound hpos ops).1
  refine ⟨?_,sharing_step h,?_,?_,?_,?_,?_,?_⟩
  · have hcount := counter_of_run (sound_init blockSize hpos) ops
    rwa [show (init blockSize hpos).copyOnWriteBlocks = 0 from rfl,Nat.zero_add] at hcount
  · intro s tokenIds validity version appended next hrun
    exact (appendSession_sharing h hrun).2
  · intro b tokenIds version appended next hrun
    obtain ⟨refs,_,_,_,hb,-⟩ := appendBranch_inv h hrun
    obtain ⟨-,result,hresult,hids⟩ := appendBranch_sharing h hb hrun
    exact ⟨refs,result,hb,hresult,hids⟩
  · intro s fromToken result next hrun
    obtain ⟨-,hids,hcopied,hreleased⟩ := rollbackTentative_sharing h hrun
    exact ⟨hids,hcopied,rollbackTentative_removed h hrun,hreleased⟩
  · intro b s includeTentative
    cases hx : forkBranch b s includeTentative m with
    | ok forked next =>
      rw [after_ok hx]
      exact (forkBranch_inv hx).2.1
    | error e next =>
      by_cases hb : m.view.branches b = none
      · obtain ⟨fresh,next',hrun,-⟩ := forkBranch_ok (s := s) h hb includeTentative
        cases hrun.symm.trans hx
      · rw [after_error (forkBranch_rejected hb includeTentative)]
        exact .refl m
  · intro b s includeTentative forked next hrun
    obtain ⟨-,-,hshared,hids⟩ := forkBranch_inv hrun
    obtain ⟨-,hb⟩ := forkBranch_sharing h hrun
    have hn : Sound next := (refines.keeps (.forkBranch b s includeTentative)).ok h (discard_ok hrun)
    refine ⟨hb,hids,?_⟩
    intro life hlife
    obtain ⟨refs,hrefs,hline⟩ := lineage_of_run hn hshared hb (Or.inl ⟨rfl,rfl⟩) hlife
    rw [Nat.zero_add] at hline
    exact ⟨hline.copies_le,refs,hrefs,hline.inherited⟩
  · intro b freed next hrun
    exact (releaseBranch_sharing h hrun).2

/-- A branch outlives a roll-back of its session; the next roll-back copies the block they
still share, the release frees the block that only the branch has. -/
theorem sharing_reported_fork :
    let ops : List Op := [.appendSession (lit "s") [1,2,3,4,5,6] .tentative 1,
      .forkBranch (lit "b") (lit "s") true,.rollbackTentative (lit "s") 5]
    let m := runAll perform ops (init 4 (by decide))
    m.copyOnWriteBlocks = copiesIn (fun _ => true) ops (init 4 (by decide)) ∧
    (∃ next, rollbackTentative (lit "s") 2 m = .ok ⟨3,[2],1⟩ next ∧
      RollbackReported (lit "s") m next ⟨3,[2],1⟩) ∧
    (∃ forked next, forkBranch (lit "c") (lit "s") true m = .ok forked next ∧
      KeepsInherited (lit "c") forked next) ∧
    ∃ next, releaseBranch (lit "b") m = .ok [1] next ∧ FreedExactly m next [1] := by
  intro ops m
  obtain ⟨hcount,-,-,-,hroll,-,hfork,hrelease⟩ := sharing_reported 4 (by decide) ops
  have hrolled : (outcome (rollbackTentative (lit "s") 2) m).map id =
      .ok ⟨3,[2],1⟩ := by decide +kernel
  have hforked : (outcome (forkBranch (lit "c") (lit "s") true) m).map List.length = .ok 2 := by
    decide +kernel
  have hreleased : (outcome (releaseBranch (lit "b")) m).map id = .ok [1] := by
    decide +kernel
  obtain ⟨result,next,hrun,rfl⟩ := exists_of_outcome hrolled
  obtain ⟨forked,next',hrun',-⟩ := exists_of_outcome hforked
  obtain ⟨freed,next'',hrun'',rfl⟩ := exists_of_outcome hreleased
  refine ⟨hcount,⟨next,hrun,hroll _ _ _ _ hrun⟩,⟨forked,next',hrun',?_⟩,next'',hrun'',?_⟩
  · exact (hfork _ _ _ _ _ hrun').2.2
  · exact hrelease _ _ _ hrun''

end CueBee.Cache
