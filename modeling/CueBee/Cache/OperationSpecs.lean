import CueBee.Cache.ManagerInvariant

/-! # One specification for each operation of the manager

Under `Sound` an operation returns exactly where the naive model accepts; it restores
`Sound` and its effect on the view is the naive one.
-/
namespace CueBee.Cache
open Raising VersionedKVManager

variable {m : VersionedKVManager} {s : SessionId} {b : BranchId} {refs others : List KVRef}

theorem elim_end_eq_length (h : Ledger m (refs ++ others)) {start : ℕ} (ht : Tiled start refs) :
    refs.getLast?.elim start KVRef.tokenEnd = start + (pairsOf m.pool refs).length := by
  induction refs generalizing start others with
  | nil => rfl
  | cons r rest ih =>
    obtain ⟨hstart,htail⟩ := ht
    obtain ⟨-,-,hspan⟩ := h.span List.mem_cons_self
    have hcons : Ledger m (r :: (rest ++ others)) := h
    have hrest := ih (hcons.perm List.perm_middle.symm) htail
    rw [getLast?_cons_elim,hrest,pairsOf_cons,List.length_append,List.length_map]
    omega

theorem endOf_eq_length (h : Ledger m (refs ++ others)) (ht : Tiled 0 refs) :
    endOf refs = (pairsOf m.pool refs).length := by
  rw [endOf_eq_elim,elim_end_eq_length h ht,Nat.zero_add]

theorem tokenEnd_le_elim (h : Ledger m (refs ++ others)) {start : ℕ} (ht : Tiled start refs)
    {r : KVRef} (hr : r ∈ refs) : r.tokenEnd ≤ refs.getLast?.elim start KVRef.tokenEnd := by
  obtain ⟨before,rest,rfl⟩ := List.append_of_mem hr
  obtain ⟨-,-,htail⟩ := tiled_append.mp ht
  have hperm : (before ++ r :: rest ++ others).Perm (rest ++ (before ++ r :: others)) := by
    simp only [List.append_assoc,List.cons_append]
    exact (List.perm_middle.trans ((List.perm_append_comm_assoc _ _ _).cons r)).trans
      (List.perm_middle.symm.trans (List.Perm.append_left rest List.perm_middle.symm))
  have hlen := elim_end_eq_length (h.perm hperm) htail
  simp only [List.getLast?_append,List.getLast?_cons] at hlen ⊢
  cases hrest : rest.getLast? with
  | none => simp
  | some last =>
    rw [hrest] at hlen
    simp only [Option.elim_some] at hlen
    simp only [Option.getD_some,Option.some_or,Option.elim_some]
    omega

theorem tokenEnd_le_endOf (h : Ledger m (refs ++ others)) (ht : Tiled 0 refs) {r : KVRef}
    (hr : r ∈ refs) : r.tokenEnd ≤ endOf refs := by
  rw [endOf_eq_elim]
  exact tokenEnd_le_elim h ht hr

theorem foldl_max_le {n bound : ℕ} {xs : List ℕ} (hn : n ≤ bound) (h : ∀ x ∈ xs, x ≤ bound) :
    xs.foldl max n ≤ bound := by
  induction xs generalizing n with
  | nil => exact hn
  | cons x rest ih =>
    exact ih (Nat.max_le.mpr ⟨hn,h x List.mem_cons_self⟩) (fun y hy => h y (List.mem_cons_of_mem _ hy))

theorem committedFrontier_eq (h : Ledger m (refs ++ others)) (ht : Tiled 0 refs) :
    committedFrontier refs = NaiveKV.committedEnd (pairsOf m.pool refs) := by
  induction refs using List.reverseRecOn generalizing others with
  | nil => rfl
  | append_singleton init last ih =>
    have hinit : Ledger m (init ++ ([last] ++ others)) := by
      simpa only [List.append_assoc] using h
    have htinit := (tiled_append.mp ht).1
    have hends : ∀ x ∈ (init.filter (fun ref => ref.validity = .committed)).map KVRef.tokenEnd,
        x ≤ endOf init := by
      intro x hx
      obtain ⟨r,hr,rfl⟩ := List.mem_map.mp hx
      exact tokenEnd_le_endOf hinit htinit (List.mem_of_mem_filter hr)
    obtain ⟨hpos,-,hspan⟩ := h.span (r := last) (by simp)
    have hstart : last.tokenStart = endOf init := by
      rw [endOf_eq_elim]
      exact (tiled_append.mp ht).2.1
    have hlen := endOf_eq_length hinit htinit
    by_cases hv : last.validity = .committed
    · have hall : ∀ y ∈ pairsOf m.pool [last], y.2 = Validity.committed := by
        simp [hv]
      have hne : pairsOf m.pool [last] ≠ [] := by
        simpa using List.length_pos_iff.mp hpos
      have hmax := foldl_max_le (Nat.zero_le _) hends
      rw [pairsOf_append,NaiveKV.committedEnd_append_committed _ hne hall]
      simp only [committedFrontier,List.filter_append,List.filter_cons,hv,decide_true,if_true,
        List.filter_nil,List.map_append,List.map_cons,List.map_nil,List.foldl_append,
        List.foldl_cons,List.foldl_nil,pairsOf_cons,pairsOf_nil,List.append_nil,List.length_map]
      omega
    · have hall : ∀ y ∈ pairsOf m.pool [last], y.2 ≠ Validity.committed := by
        simp [hv]
      rw [pairsOf_append,NaiveKV.committedEnd_append_open _ hall,← ih hinit htinit]
      simp [committedFrontier,hv]

theorem sessionRule_safe (validity : Validity) : (sessionRule validity).Safe refs others := by
  rintro init last rfl block hcount hcopy
  have halone : ¬1 < block.refCount := by
    simpa [sessionRule] using hcopy
  have hperm := ((perm_last init last others).map KVRef.physicalBlockId).count_eq last.physicalBlockId
  rw [List.map_cons,List.count_cons_self] at hperm
  exact List.count_eq_zero.mp (by omega)

theorem appendSession_ok (h : Sound m) {validity : Validity} (hv : validity ≠ .invalidated)
    (tokenIds : List Token) (version : ℤ) :
    ∃ appended next, appendSession s tokenIds validity version m = .ok appended next ∧ Sound next ∧
      next.view = m.view.putSession s
        (m.view.sessions s ++ tokenIds.map (fun t => (t,validity))) := by
  have hm := h.touch s
  have hspine := hm.spine s
  obtain ⟨result,appended,next,hrun,hled,htab,hframe,happ⟩ :=
    appendRefs_spec validity .spine version tokenIds (hm.session_ledger s)
      (sessionRule_safe validity)
  have hadmits : ∀ r, (sessionRule validity).admits r = true → r.validity = validity := by
    intro r hr
    simp only [sessionRule,decide_eq_true_eq] at hr
    exact hr.1
  rw [sessionRefs_touch] at hrun hspine happ
  refine ⟨appended,setSession s result next,?_,hm.setSession htab hled ⟨?_,?_,?_⟩,?_⟩
  · simp only [appendSession,if_neg hv,bind_ok (session_eq s m),bind_ok hrun]
    rfl
  · exact happ.tiled hspine.tiled
  · exact happ.ownerships (· = .spine) rfl (fun _ ho => ho) hspine.owned
  · exact happ.validities (· ≠ .invalidated) hv hspine.valid
  · rw [view_setSession htab hframe,happ.pairs hadmits,view_touch]
    rfl

theorem appendSession_invalidated (tokenIds : List Token) (version : ℤ) :
    appendSession s tokenIds .invalidated version m = .error .invalidatedAppend m := rfl

theorem rollback_guard (h : Sound m) (s : SessionId) :
    committedFrontier (m.sessionRefs s) = NaiveKV.committedEnd (m.view.sessions s) :=
  committedFrontier_eq (h.session_ledger s) (h.spine s).tiled

theorem session_length (h : Sound m) (s : SessionId) :
    endOf (m.sessionRefs s) = (m.view.sessions s).length :=
  endOf_eq_length (h.session_ledger s) (h.spine s).tiled

theorem rollbackTentative_ok (h : Sound m) {fromToken : ℤ}
    (hfrom : (NaiveKV.committedEnd (m.view.sessions s) : ℤ) ≤ fromToken) :
    ∃ result next, rollbackTentative s fromToken m = .ok result next ∧ Sound next ∧
      result.removedTokens = (m.view.sessions s).length - fromToken.toNat ∧
      next.view = m.view.putSession s ((m.view.sessions s).take fromToken.toNat) := by
  have hguard : ¬fromToken < committedFrontier (m.sessionRefs s) := by
    rw [rollback_guard h]
    omega
  have hlen := session_length h s
  have hm := h.touch s
  by_cases hall : (endOf (m.sessionRefs s) : ℤ) ≤ fromToken
  · refine ⟨⟨0,[],0⟩,m.touch s,?_,hm,?_,?_⟩
    · simp only [rollbackTentative,bind_ok (session_eq s m),if_neg hguard,if_pos hall]
      rfl
    · show 0 = _
      omega
    · rw [List.take_of_length_le (by omega),NaiveKV.putSession_self,view_touch]
  · have hspine := hm.spine s
    obtain ⟨kept,released,copied,next,hrun,hled,htab,hframe,hroll⟩ :=
      rollbackRefs_spec fromToken.toNat (hm.session_ledger s) hspine.tiled
    rw [sessionRefs_touch] at hrun hspine hroll
    have hsound := hm.setSession htab hled ⟨hroll.tiled,
      hroll.kinds (fun _ o => o = .spine) hspine.owned,
      hroll.kinds (fun v _ => v ≠ .invalidated) hspine.valid⟩
    refine ⟨⟨endOf (m.sessionRefs s) - fromToken.toNat,released,copied⟩,{ setSession s kept next with
      rollbackTokens := next.rollbackTokens + (endOf (m.sessionRefs s) - fromToken.toNat) },
      ?_,?_,?_,?_⟩
    · simp only [rollbackTentative,bind_ok (session_eq s m),if_neg hguard,if_neg hall,bind_ok hrun]
      rfl
    · exact ⟨⟨hsound.ledger.backed,hsound.ledger.apart,hsound.ledger.numbered⟩,
        hsound.sessions,hsound.branches⟩
    · show _ - _ = _
      rw [hlen]
    · show (setSession s kept next).view = _
      rw [view_setSession htab hframe,hroll.pairs,view_touch,Nat.sub_zero]
      rfl

theorem rollbackTentative_rejected (h : Sound m) {fromToken : ℤ}
    (hfrom : fromToken < NaiveKV.committedEnd (m.view.sessions s)) :
    rollbackTentative s fromToken m = .error .committedRollback (m.touch s) := by
  rw [← rollback_guard h] at hfrom
  simp only [rollbackTentative,bind_ok (session_eq s m),if_pos hfrom]
  rfl

/-- The reference after a commit of the whole session. -/
def KVRef.commit (version : ℤ) (r : KVRef) : KVRef :=
  { r with validity := .committed, version := version }

theorem Ledger.commit (h : Ledger m (refs ++ others)) (version : ℤ) :
    Ledger m (refs.map (KVRef.commit version) ++ others) where
  backed := by
    have hb := h.backed
    rw [List.map_append] at hb ⊢
    rwa [List.map_map,show KVRef.footprint ∘ KVRef.commit version = KVRef.footprint from rfl]
  apart := by
    have ha := h.apart
    rw [List.pairwise_append] at ha ⊢
    refine ⟨List.pairwise_map.mpr ha.1,ha.2.1,?_⟩
    intro r hr o ho
    obtain ⟨q,hq,rfl⟩ := List.mem_map.mp hr
    exact ha.2.2 q hq o ho
  numbered r hr := by
    rcases List.mem_append.mp hr with hr | hr
    · obtain ⟨q,hq,rfl⟩ := List.mem_map.mp hr
      exact h.numbered q (List.mem_append_left _ hq)
    · exact h.numbered r (List.mem_append_right _ hr)

theorem tiled_commit {start : ℕ} (version : ℤ) (ht : Tiled start refs) :
    Tiled start (refs.map (KVRef.commit version)) := by
  induction refs generalizing start with
  | nil => trivial
  | cons r rest ih => exact ⟨ht.1,ih ht.2⟩

theorem pairsOf_commit (pool : BlockPool) (version : ℤ) (refs : List KVRef) :
    pairsOf pool (refs.map (KVRef.commit version)) =
      (pairsOf pool refs).map (fun x => (x.1,Validity.committed)) := by
  induction refs with
  | nil => rfl
  | cons r rest ih =>
    simp only [List.map_cons,pairsOf_cons,List.map_append,List.map_map,ih]
    rfl

theorem commitTentative_ok (h : Sound m) {frontier : ℤ} (version : ℤ)
    (hfrontier : frontier = (m.view.sessions s).length) :
    ∃ next, commitTentative s frontier version m = .ok () next ∧ Sound next ∧
      next.view = m.view.putSession s ((m.view.sessions s).map (fun x => (x.1,.committed))) := by
  have hm := h.touch s
  have hled := hm.session_ledger s
  have hspine := hm.spine s
  rw [sessionRefs_touch] at hled hspine
  have hend : frontier = endOf (m.sessionRefs s) := by
    rw [session_length h,hfrontier]
  have hmap : (m.sessionRefs s).map (fun ref => if ref.tokenEnd ≤ frontier then
      { ref with validity := .committed, version := version } else ref) =
      (m.sessionRefs s).map (KVRef.commit version) := by
    refine List.map_congr_left (fun r hr => if_pos ?_)
    have := tokenEnd_le_endOf hled hspine.tiled hr
    omega
  refine ⟨setSession s ((m.sessionRefs s).map (KVRef.commit version)) (m.touch s),?_,?_,?_⟩
  · simp only [commitTentative,bind_ok (session_eq s m),if_neg (not_not.mpr hend),hmap]
    rfl
  · refine hm.setSession (TablesKept.refl _) (hled.commit version)
      ⟨tiled_commit version hspine.tiled,?_,?_⟩
    · intro r hr
      obtain ⟨q,hq,rfl⟩ := List.mem_map.mp hr
      exact hspine.owned q hq
    · intro r hr
      obtain ⟨r,hr,rfl⟩ := List.mem_map.mp hr
      simp [KVRef.commit]
  · rw [view_setSession (TablesKept.refl _) (fun _ _ => rfl),pairsOf_commit,view_touch]
    rfl

theorem commitTentative_rejected (h : Sound m) {frontier : ℤ} (version : ℤ)
    (hfrontier : frontier ≠ (m.view.sessions s).length) :
    commitTentative s frontier version m = .error .partialCommit (m.touch s) := by
  rw [← session_length h] at hfrontier
  simp only [commitTentative,bind_ok (session_eq s m),if_pos hfrontier]
  rfl

theorem view_branch_none : m.view.branches b = none ↔ m.branches.get? b = none :=
  Option.map_eq_none_iff

theorem view_branch_some {xs : List Token} : m.view.branches b = some xs ↔
    ∃ refs, m.branches.get? b = some refs ∧ tokensOf m.pool refs = xs :=
  Option.map_eq_some_iff

theorem tokensOf_forked (pool : BlockPool) (includeTentative : Bool) (refs : List KVRef) :
    tokensOf pool (refs.filter (KVRef.forked includeTentative)) =
      NaiveKV.forked includeTentative (pairsOf pool refs) := by
  induction refs with
  | nil => rfl
  | cons r rest ih =>
    simp only [NaiveKV.forked] at ih
    by_cases hr : r.forked includeTentative = true
    · rw [List.filter_cons_of_pos hr,tokensOf_cons,ih,pairsOf_cons,NaiveKV.forked,
        List.filter_append,List.map_append]
      have hall : ((pool.tokens r.physicalBlockId).map (fun t => (t,r.validity))).filter
          (fun x => includeTentative || x.2 = .committed) =
          (pool.tokens r.physicalBlockId).map (fun t => (t,r.validity)) := by
        refine List.filter_eq_self.mpr (fun x hx => ?_)
        obtain ⟨t,-,rfl⟩ := List.mem_map.mp hx
        exact hr
      rw [hall,List.map_map]
      simp [Function.comp_def]
    · rw [List.filter_cons_of_neg hr,ih,pairsOf_cons,NaiveKV.forked,List.filter_append,
        List.map_append]
      have hnone : ((pool.tokens r.physicalBlockId).map (fun t => (t,r.validity))).filter
          (fun x => includeTentative || x.2 = .committed) = [] := by
        refine List.filter_eq_nil_iff.mpr (fun x hx => ?_)
        obtain ⟨t,-,rfl⟩ := List.mem_map.mp hx
        exact hr
      rw [hnone,List.map_nil,List.nil_append]

theorem forkBranch_ok (h : Sound m) (hb : m.view.branches b = none) (includeTentative : Bool) :
    ∃ fresh next, forkBranch b s includeTentative m = .ok fresh next ∧ Sound next ∧
      next.view = m.view.putBranch b
        (some (NaiveKV.forked includeTentative (m.view.sessions s))) := by
  have hm := h.touch s
  have hnone : m.branches.get? b = none := view_branch_none.mp hb
  obtain ⟨fresh,next,hrun,hled,htab,hframe,hown,htok⟩ := forkRefs_spec includeTentative
    hm.ledger (hm.sources s)
  rw [← besideBranch_of_unknown (m := m.touch s) hnone] at hled hframe
  rw [sessionRefs_touch] at hrun htok
  refine ⟨fresh,setBranch b fresh next,?_,hm.setBranch htab hled ?_,?_⟩
  · simp only [forkBranch,bind_ok (get_apply m),hnone,bind_ok (session_eq s m),bind_ok hrun]
    rfl
  · intro r hr
    simp [hown r hr]
  · rw [view_setBranch htab hframe,htok,tokensOf_forked,view_touch]
    rfl

theorem forkBranch_rejected (hb : m.view.branches b ≠ none) (includeTentative : Bool) :
    forkBranch b s includeTentative m = .error (.branchExists b) m := by
  have hne : m.branches.get? b ≠ none := fun hn => hb (view_branch_none.mpr hn)
  obtain ⟨refs,hrefs⟩ := Option.ne_none_iff_exists'.mp hne
  simp only [forkBranch,bind_ok (get_apply m),hrefs]
  rfl

theorem branchRule_safe (h : Ledger m (refs ++ others)) (hown : ∀ r ∈ refs, r.ownership ≠ .spine) :
    branchRule.Safe refs others := by
  rintro init last rfl block - hcopy hmem
  have hnot : last.ownership ≠ .shared := by
    simpa [branchRule] using hcopy
  have hprivate : last.ownership = .branchPrivate := by
    have := hown last (by simp)
    cases ho : last.ownership <;> simp_all
  obtain ⟨r,hr,he⟩ := List.mem_map.mp hmem
  have hap := (List.pairwise_cons.mp (h.perm (perm_last init last others)).apart).1 r hr
  exact (hap.2 he.symm).1 hprivate

theorem appendBranch_ok (h : Sound m) {xs : List Token} (hb : m.view.branches b = some xs)
    (tokenIds : List Token) (version : ℤ) :
    ∃ appended next, appendBranch b tokenIds version m = .ok appended next ∧ Sound next ∧
      next.view = m.view.putBranch b (some (xs ++ tokenIds)) := by
  obtain ⟨refs,hrefs,hxs⟩ := view_branch_some.mp hb
  have hled := h.branch_ledger hrefs
  have hown := h.branches b refs hrefs
  obtain ⟨result,appended,next,hrun,hled',htab,hframe,happ⟩ :=
    appendRefs_spec .committed .branchPrivate version tokenIds hled (branchRule_safe hled hown)
  refine ⟨appended,setBranch b result next,?_,h.setBranch htab hled' ?_,?_⟩
  · simp only [appendBranch,bind_ok (get_apply m),hrefs,bind_ok hrun]
    rfl
  · exact happ.ownerships (· ≠ .spine) (by simp) (fun _ _ => by simp [branchRule]) hown
  · rw [view_setBranch htab hframe,happ.tokens,hxs]

theorem appendBranch_rejected (hb : m.view.branches b = none) (tokenIds : List Token)
    (version : ℤ) : appendBranch b tokenIds version m = .error (.unknownBranch b) m := by
  simp only [appendBranch,bind_ok (get_apply m),view_branch_none.mp hb]
  rfl

theorem releaseBranch_ok (h : Sound m) :
    ∃ freed next, releaseBranch b m = .ok freed next ∧ Sound next ∧
      next.view = m.view.putBranch b none := by
  cases hb : m.branches.get? b with
  | none =>
    refine ⟨[],m,?_,h,?_⟩
    · simp only [releaseBranch,bind_ok (get_apply m),hb]
      rfl
    · rw [← view_branch_none.mpr hb,NaiveKV.putBranch_self]
  | some refs =>
    obtain ⟨freed,next,hrun,hled',htab,hframe⟩ := releaseRefs_spec (h.popped_ledger hb)
    have hall : next.allRefs = (m.popBranch b).allRefs := by
      simp only [allRefs,htab.sessions,htab.branches]
    refine ⟨freed,next,?_,⟨hall ▸ hled',?_,?_⟩,?_⟩
    · simp only [releaseBranch,bind_ok (get_apply m),hb,bind_ok (modify_apply _ m)]
      exact hrun
    · exact fun t refs' ht => h.sessions t refs' (htab.sessions ▸ ht)
    · intro c refs' hc
      rw [htab.branches,popBranch,Dict.get?_erase] at hc
      split at hc
      · cases hc
      · exact h.branches c refs' hc
    · have hsess : next.view.sessions = m.view.sessions := by
        funext t
        simp only [view,sessionRefs,htab.sessions,popBranch]
        cases ht : m.sessions.get? t with
        | none => rfl
        | some refs' =>
          exact pairsOf_congr (fun r hr => hframe r (session_mem_besideBranch ht hr))
      have hbranch : next.view.branches = Function.update m.view.branches b none := by
        funext c
        by_cases hcb : c = b
        · subst hcb
          simp [view,htab.branches,popBranch]
        · rw [Function.update_of_ne hcb]
          simp only [view,htab.branches,popBranch,Dict.get?_erase,if_neg hcb]
          cases hc : m.branches.get? c with
          | none => rfl
          | some refs' =>
            exact congrArg some (tokensOf_congr (fun r hr => hframe r (mem_besideBranch hcb hc hr)))
      rw [NaiveKV.putBranch,← hsess,← hbranch]

theorem sessionTokens_ok (h : Sound m) (s : SessionId) :
    sessionTokens s m = .ok ((m.view.sessions s).map Prod.fst) (m.touch s) := by
  have hread := readTokens_spec ((h.touch s).session_ledger s)
  rw [sessionRefs_touch] at hread
  simp only [sessionTokens,bind_ok (session_eq s m),hread]
  simp only [view,map_fst_pairsOf]
  rfl

theorem branchRefs_ok (hb : m.branches.get? b = some refs) : branchRefs b m = .ok refs m := by
  simp only [branchRefs,bind_ok (get_apply m),hb]
  rfl

theorem branchRefs_rejected (hb : m.branches.get? b = none) :
    branchRefs b m = .error (.unknownBranch b) m := by
  simp only [branchRefs,bind_ok (get_apply m),hb]
  rfl

theorem branchTokens_ok (h : Sound m) {xs : List Token} (hb : m.view.branches b = some xs) :
    branchTokens b m = .ok xs m := by
  obtain ⟨refs,hrefs,rfl⟩ := view_branch_some.mp hb
  simp only [branchTokens,bind_ok (branchRefs_ok hrefs),readTokens_spec (h.branch_ledger hrefs)]

theorem branchTokens_rejected (hb : m.view.branches b = none) :
    branchTokens b m = .error (.unknownBranch b) m := by
  have hrun : branchRefs b m = .error (.unknownBranch b) m :=
    branchRefs_rejected (view_branch_none.mp hb)
  simp only [branchTokens,bind_error hrun]

end CueBee.Cache
