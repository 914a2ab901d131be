import CueBee.Cache.CopyEffects
import CueBee.Cache.ReferenceCounts

/-! # Physical sharing is kept and reported

A reference is known by its logical id. `moved m next` are the references that are still
there after a call but name another block: the copies the call made. No call moves more
than one, the manager counts every one of them, and a branch moves one in its whole life.
-/
namespace CueBee.Cache
open Raising VersionedKVManager PyStr

/-- `r'` is the reference `r` after a copy. -/
def KVRef.MovedTo (r r' : KVRef) : Prop :=
  r'.logicalId = r.logicalId ∧ r'.physicalBlockId ≠ r.physicalBlockId

instance (r r' : KVRef) : Decidable (r.MovedTo r') := inferInstanceAs (Decidable (_ ∧ _))

def movedRefs (refs result : List KVRef) : List KVRef :=
  refs.filter (fun r => ∃ r' ∈ result, r.MovedTo r')

/-- The references of `m` that `next` still has, on another physical block. -/
def moved (m next : VersionedKVManager) : List KVRef := movedRefs m.allRefs next.allRefs

/-- What happens to the one reference that a writer may change. -/
inductive Recast : List KVRef → List KVRef → ℕ → Prop
  | absent : Recast [] [] 0
  | inPlace (old new : KVRef) (hid : new.logicalId = old.logicalId)
      (hphys : new.physicalBlockId = old.physicalBlockId) : Recast [old] [new] 0
  | copied (old new : KVRef) (hid : new.logicalId = old.logicalId)
      (hphys : new.physicalBlockId ≠ old.physicalBlockId) : Recast [old] [new] 1

/-- One list of references before and after a writer: a common part, the reference that
was changed, and a tail that was dropped or is new. -/
structure Rewritten (refs result : List KVRef) (copies : ℕ) : Prop where
  parts : ∃ before old new dropped fresh, refs = before ++ (old ++ dropped) ∧
    result = before ++ (new ++ fresh) ∧ Recast old new copies ∧ (dropped = [] ∨ fresh = [])

section Counting
variable {refs result others : List KVRef} {copies : ℕ}

theorem length_movedRefs_perm {refs' result' : List KVRef} (hp : refs.Perm refs')
    (hq : result.Perm result') :
    (movedRefs refs result).length = (movedRefs refs' result').length := by
  have hsame : movedRefs refs' result = movedRefs refs' result' :=
    List.filter_congr (fun r _ => by simp only [hq.mem_iff])
  rw [← hsame]
  exact (hp.filter _).length_eq

theorem eq_of_logicalId (h : (refs.map KVRef.logicalId).Nodup) {r r' : KVRef} (hr : r ∈ refs)
    (hr' : r' ∈ refs) (hid : r'.logicalId = r.logicalId) : r' = r :=
  List.inj_on_of_nodup_map h hr' hr hid

theorem movedRefs_eq_nil (h : ∀ r ∈ refs, ∀ r' ∈ result, r'.logicalId = r.logicalId → r' = r) :
    movedRefs refs result = [] := by
  refine List.filter_eq_nil_iff.mpr (fun r hr hmoved => ?_)
  obtain ⟨r',hr',hid,hphys⟩ := of_decide_eq_true hmoved
  exact hphys (by rw [h r hr r' hr' hid])

theorem Recast.length_movedRefs {old new rest : List KVRef} (h : Recast old new copies)
    (hnew : ((new ++ rest).map KVRef.logicalId).Nodup) :
    (movedRefs old (new ++ rest)).length = copies := by
  cases h with
  | absent => rfl
  | inPlace old new hid hphys =>
    have hnil : movedRefs [old] ([new] ++ rest) = [] := by
      refine List.filter_eq_nil_iff.mpr (fun r hr hmoved => ?_)
      obtain rfl := List.mem_singleton.mp hr
      obtain ⟨r',hr',hid',hphys'⟩ := of_decide_eq_true hmoved
      have he := eq_of_logicalId hnew (r := new) (by simp) hr' (hid'.trans hid.symm)
      exact hphys' (he ▸ hphys)
    rw [hnil]
    rfl
  | copied old new hid hphys =>
    have hall : movedRefs [old] ([new] ++ rest) = [old] := by
      refine List.filter_eq_self.mpr (fun r hr => ?_)
      obtain rfl := List.mem_singleton.mp hr
      exact decide_eq_true ⟨new,by simp,hid,hphys⟩
    rw [hall]
    rfl

/-- The references around the changed one do not move, whichever of the two lists of
them contains the other. -/
theorem Recast.length_movedRefs_around {old new rest rest' : List KVRef}
    (h : Recast old new copies) (hold : ((old ++ rest).map KVRef.logicalId).Nodup)
    (hnew : ((new ++ rest').map KVRef.logicalId).Nodup) (hsub : rest ⊆ rest' ∨ rest' ⊆ rest) :
    (movedRefs (old ++ rest) (new ++ rest')).length = copies := by
  have hrest : movedRefs rest (new ++ rest') = [] := by
    refine movedRefs_eq_nil (fun r hr r' hr' hid => ?_)
    rcases hsub with hsub | hsub
    · exact eq_of_logicalId hnew (List.mem_append_right _ (hsub hr)) hr' hid
    · rcases List.mem_append.mp hr' with hr' | hr'
      · -- the changed reference has its own logical id
        have hother : r.logicalId ∉ old.map KVRef.logicalId := by
          rw [List.map_append] at hold
          exact fun hmem => List.disjoint_of_nodup_append hold hmem (List.mem_map_of_mem hr)
        cases h with
        | absent => cases hr'
        | inPlace old new hsame | copied old new hsame =>
          obtain rfl := List.mem_singleton.mp hr'
          exact absurd (by simp [← hid,hsame]) hother
      · exact eq_of_logicalId hold (List.mem_append_right _ hr)
          (List.mem_append_right _ (hsub hr')) hid
  have hsplit : movedRefs (old ++ rest) (new ++ rest') =
      movedRefs old (new ++ rest') ++ movedRefs rest (new ++ rest') := List.filter_append ..
  rw [hsplit,hrest,List.append_nil]
  exact h.length_movedRefs hnew

theorem perm_parts (before old dropped others : List KVRef) :
    (before ++ (old ++ dropped) ++ others).Perm (old ++ (before ++ dropped ++ others)) := by
  simp only [List.append_assoc]
  exact List.perm_append_comm_assoc _ _ _

theorem Rewritten.length_movedRefs (h : Rewritten refs result copies)
    (hold : ((refs ++ others).map KVRef.logicalId).Nodup)
    (hnew : ((result ++ others).map KVRef.logicalId).Nodup) :
    (movedRefs (refs ++ others) (result ++ others)).length = copies := by
  obtain ⟨before,old,new,dropped,fresh,rfl,rfl,hcast,htail⟩ := h.parts
  have hp := perm_parts before old dropped others
  have hq := perm_parts before new fresh others
  rw [length_movedRefs_perm hp hq]
  apply hcast.length_movedRefs_around
  · exact (hp.map KVRef.logicalId).nodup_iff.mp hold
  · exact (hq.map KVRef.logicalId).nodup_iff.mp hnew
  · rcases htail with rfl | rfl
    · left
      intro r hr
      simp only [List.append_nil,List.mem_append] at hr ⊢
      tauto
    · right
      intro r hr
      simp only [List.append_nil,List.mem_append] at hr ⊢
      tauto

theorem Rewritten.copies_le (h : Rewritten refs result copies) : copies ≤ 1 := by
  obtain ⟨_,_,_,_,_,_,_,hcast,_⟩ := h.parts
  cases hcast <;> omega

theorem Filled.logicalIds {rule : TopUpRule} {fresh : ℕ} (h : Filled rule fresh refs result copies) :
    result.map KVRef.logicalId = refs.map KVRef.logicalId := by
  cases h with
  | skipped => rfl
  | inPlace init last ref block _ hid | copied init last ref block _ hid => simp [hid]

theorem Filled.rewritten {rule : TopUpRule} {fresh : ℕ} (h : Filled rule fresh refs result copies)
    (hfresh : fresh ∉ refs.map KVRef.physicalBlockId) (more : List KVRef) :
    Rewritten refs (result ++ more) copies := by
  cases h with
  | skipped =>
    exact ⟨refs,[],[],[],more,by simp,by simp,.absent,Or.inl rfl⟩
  | inPlace init last ref block _ hid _ hphys =>
    exact ⟨init,[last],[ref],[],more,by simp,by simp,.inPlace _ _ hid hphys,Or.inl rfl⟩
  | copied init last ref block _ hid _ hphys =>
    have hne : ref.physicalBlockId ≠ last.physicalBlockId := by
      rintro he
      apply hfresh
      simp [← hphys,he]
    exact ⟨init,[last],[ref],[],more,by simp,by simp,.copied _ _ hid hne,Or.inl rfl⟩

end Counting

/-- A call moves one reference at most and counts it; it rewrites the list of no session
and of no branch but its own. -/
structure SharingKept (op : Op) (m next : VersionedKVManager) : Prop where
  atMost : (moved m next).length ≤ 1
  counted : next.copyOnWriteBlocks = m.copyOnWriteBlocks + (moved m next).length
  sessions : ∀ t, op.session ≠ some t → next.sessionRefs t = m.sessionRefs t
  branches : ∀ c, op.branch ≠ some c → next.branches.get? c = m.branches.get? c

variable {m mid next : VersionedKVManager} {op : Op} {s : SessionId} {b : BranchId}
  {refs result others : List KVRef} {copies : ℕ}

theorem length_moved (h : Sound m) (hn : Sound next) (hp : m.allRefs.Perm (refs ++ others))
    (hq : next.allRefs.Perm (result ++ others)) (hrew : Rewritten refs result copies) :
    (moved m next).length = copies := by
  rw [moved,length_movedRefs_perm hp hq]
  apply hrew.length_movedRefs
  · exact (hp.map KVRef.logicalId).nodup_iff.mp h.exactCounts.distinct
  · exact (hq.map KVRef.logicalId).nodup_iff.mp hn.exactCounts.distinct

/-- A writer of one session. -/
theorem session_sharing (op : Op) (h : Sound m) (hn : Sound next) (hop : op.session = some s)
    (hsess : next.sessions = m.sessions.set s result) (hbranch : next.branches = m.branches)
    (hrew : Rewritten (m.sessionRefs s) result copies)
    (hcount : next.copyOnWriteBlocks = m.copyOnWriteBlocks + copies) :
    SharingKept op m next ∧ (moved m next).length = copies := by
  have hq : next.allRefs.Perm (result ++ m.besideSession s) := by
    have hset := allRefs_setSession m s result
    rwa [allRefs,setSession,← hsess,← hbranch] at hset
  have hlen := length_moved h hn (allRefs_perm_session m s) hq hrew
  refine ⟨⟨hlen ▸ hrew.copies_le,hlen ▸ hcount,?_,?_⟩,hlen⟩
  · intro t ht
    have hts : t ≠ s := fun he => ht (he ▸ hop)
    simp only [sessionRefs,hsess,Dict.get?_set,if_neg hts]
  · intro c _
    rw [hbranch]

/-- A writer of one branch. -/
theorem branch_sharing (op : Op) (h : Sound m) (hn : Sound next) (hop : op.branch = some b)
    (hsess : next.sessions = m.sessions) (hbranch : next.branches = m.branches.set b result)
    (hp : m.allRefs.Perm (refs ++ m.besideBranch b)) (hrew : Rewritten refs result copies)
    (hcount : next.copyOnWriteBlocks = m.copyOnWriteBlocks + copies) :
    SharingKept op m next ∧ (moved m next).length = copies := by
  have hq : next.allRefs.Perm (result ++ m.besideBranch b) := by
    have hset := allRefs_setBranch m b result
    rwa [allRefs,setBranch,← hsess,← hbranch] at hset
  have hlen := length_moved h hn hp hq hrew
  refine ⟨⟨hlen ▸ hrew.copies_le,hlen ▸ hcount,?_,?_⟩,hlen⟩
  · intro t _
    simp only [sessionRefs,hsess]
  · intro c hc
    have hcb : c ≠ b := fun he => hc (he ▸ hop)
    rw [hbranch,Dict.get?_set,if_neg hcb]

/-- A call after which every reference is one from before, on the same block. -/
theorem still_sharing (h : Sound m)
    (hstill : ∀ r' ∈ next.allRefs, ∃ r ∈ m.allRefs, r.logicalId = r'.logicalId ∧
      r.physicalBlockId = r'.physicalBlockId)
    (hcount : next.copyOnWriteBlocks = m.copyOnWriteBlocks)
    (hsess : ∀ t, op.session ≠ some t → next.sessionRefs t = m.sessionRefs t)
    (hbranch : ∀ c, op.branch ≠ some c → next.branches.get? c = m.branches.get? c) :
    SharingKept op m next := by
  have hnil : moved m next = [] := by
    refine List.filter_eq_nil_iff.mpr (fun r hr hmoved => ?_)
    obtain ⟨r',hr',hid,hphys⟩ := of_decide_eq_true hmoved
    obtain ⟨q,hq,hid',hphys'⟩ := hstill r' hr'
    have he := eq_of_logicalId h.exactCounts.distinct hr hq (hid'.trans hid)
    exact hphys (he ▸ hphys'.symm)
  exact ⟨by simp [hnil],by simp [hnil,hcount],hsess,hbranch⟩

theorem sharingKept_refl (h : Sound m) : SharingKept op m m :=
  still_sharing h (fun r hr => ⟨r,hr,rfl,rfl⟩) rfl (fun _ _ => rfl) (fun _ _ => rfl)

@[simp] theorem allRefs_touch (s : SessionId) (m : VersionedKVManager) :
    (m.touch s).allRefs = m.allRefs := by
  rcases touch_cases s m with he | ⟨hs,he⟩
  · rw [he]
  · have hvalues : (m.sessions.set s []).values.flatten = m.sessions.values.flatten := by
      simp only [Dict.values,Dict.set_entries_of_none hs,List.map_append,List.flatten_append]
      simp
    rw [he]
    simp only [allRefs,setSession,hvalues]

/-- Creating the empty list of a session is invisible here. -/
theorem SharingKept.of_touch (h : SharingKept op (m.touch s) next) : SharingKept op m next where
  atMost := by
    have := h.atMost
    rwa [moved,allRefs_touch] at this
  counted := by
    have := h.counted
    rwa [moved,allRefs_touch] at this
  sessions t ht := (h.sessions t ht).trans (sessionRefs_touch s m t)
  branches := h.branches

theorem moved_touch (s : SessionId) (m next : VersionedKVManager) :
    moved (m.touch s) next = moved m next := by
  rw [moved,allRefs_touch,moved]

theorem sharingKept_touch (h : Sound m) (s : SessionId) : SharingKept op m (m.touch s) :=
  (sharingKept_refl (h.touch s)).of_touch

theorem Ledger.notMem_fresh (h : Ledger m (refs ++ others)) :
    m.pool.nextBlockId ∉ refs.map KVRef.physicalBlockId := by
  have hn := h.backed.notMem_fresh
  rw [Ledger.map_fst_footprint,List.map_append,List.mem_append,not_or] at hn
  exact hn.1

theorem appendSession_sharing {tokenIds : List Token} {validity : Validity} {version : ℤ}
    {appended : List KVRef} (h : Sound m)
    (hrun : appendSession s tokenIds validity version m = .ok appended next) :
    SharingKept (.appendSession s tokenIds validity version) m next ∧
      (m.sessionRefs s).map KVRef.logicalId <+: (next.sessionRefs s).map KVRef.logicalId := by
  have hn : Sound next := (refines.keeps (.appendSession s tokenIds validity version)).ok h
    (discard_ok hrun)
  have hm := h.touch s
  obtain ⟨result',appended',mid',hrun',-,htab,-⟩ := appendRefs_spec validity .spine version tokenIds
    (hm.session_ledger s) (sessionRule_safe validity)
  unfold appendSession at hrun
  by_cases hv : validity = .invalidated
  · rw [if_pos hv] at hrun
    cases hrun
  · rw [if_neg hv,bind_ok (session_eq s m)] at hrun
    rw [sessionRefs_touch] at hrun'
    rw [bind_ok hrun'] at hrun
    cases hrun
    obtain ⟨refs',fresh,copies,rfl,hfill,-,hcount⟩ := appendRefs_inv hrun'
    have hfresh := (hm.session_ledger s).notMem_fresh
    have hrew : Rewritten ((m.touch s).sessionRefs s) (refs' ++ fresh) copies := by
      rw [sessionRefs_touch] at hfresh ⊢
      exact hfill.rewritten hfresh fresh
    have hset : (setSession s (refs' ++ fresh) mid').sessions =
        (m.touch s).sessions.set s (refs' ++ fresh) := by
      rw [setSession,htab.sessions]
    obtain ⟨hshare,-⟩ := session_sharing (.appendSession s tokenIds validity version) hm hn rfl
      hset htab.branches hrew hcount
    constructor
    · exact hshare.of_touch
    · have hrefs : (setSession s (refs' ++ fresh) mid').sessionRefs s = refs' ++ fresh := by
        simp [sessionRefs,setSession]
      rw [hrefs,List.map_append,hfill.logicalIds]
      exact List.prefix_append _ _

/-- The branch's list before and after its append, for the life of the branch below. -/
theorem appendBranch_inv {tokenIds : List Token} {version : ℤ} {appended : List KVRef} (h : Sound m)
    (hrun : appendBranch b tokenIds version m = .ok appended next) :
    ∃ refs refs' fresh copies, m.branches.get? b = some refs ∧
      next.branches = m.branches.set b (refs' ++ fresh) ∧ next.sessions = m.sessions ∧
      Filled branchRule m.pool.nextBlockId refs refs' copies ∧
      (∀ r ∈ fresh, r.ownership = .branchPrivate) ∧
      next.copyOnWriteBlocks = m.copyOnWriteBlocks + copies := by
  unfold appendBranch at hrun
  rw [bind_ok (get_apply m)] at hrun
  cases hb : m.branches.get? b with
  | none =>
    simp only [hb] at hrun
    cases hrun
  | some refs =>
    have hled := h.branch_ledger hb
    obtain ⟨result',appended',mid',hrun',-,htab,-⟩ := appendRefs_spec .committed .branchPrivate
      version tokenIds hled (branchRule_safe hled (h.branches b refs hb))
    simp only [hb,bind_ok hrun'] at hrun
    cases hrun
    obtain ⟨refs',fresh,copies,rfl,hfill,hown,hcount⟩ := appendRefs_inv hrun'
    refine ⟨refs,refs',fresh,copies,rfl,?_,htab.sessions,hfill,hown,hcount⟩
    rw [setBranch,htab.branches]

theorem appendBranch_sharing {tokenIds : List Token} {version : ℤ} {appended refs : List KVRef}
    (h : Sound m) (hb : m.branches.get? b = some refs)
    (hrun : appendBranch b tokenIds version m = .ok appended next) :
    SharingKept (.appendBranch b tokenIds version) m next ∧
      ∃ result, next.branches.get? b = some result ∧
        refs.map KVRef.logicalId <+: result.map KVRef.logicalId := by
  have hn : Sound next := (refines.keeps (.appendBranch b tokenIds version)).ok h (discard_ok hrun)
  obtain ⟨found,refs',fresh,copies,hfound,hbranch,hsess,hfill,-,hcount⟩ := appendBranch_inv h hrun
  obtain rfl : refs = found := Option.some.inj (hb.symm.trans hfound)
  have hfresh := (h.branch_ledger hb).notMem_fresh
  obtain ⟨hshare,-⟩ := branch_sharing (.appendBranch b tokenIds version) h hn rfl hsess hbranch
    (allRefs_perm_branch hb) (hfill.rewritten hfresh fresh) hcount
  refine ⟨hshare,refs' ++ fresh,?_,?_⟩
  · rw [hbranch,Dict.get?_set_self]
  · rw [List.map_append,hfill.logicalIds]
    exact List.prefix_append _ _

theorem forkBranch_inv {includeTentative : Bool} {fresh : List KVRef}
    (hrun : forkBranch b s includeTentative m = .ok fresh next) :
    m.branches.get? b = none ∧ SameBlocks m next ∧ (∀ r ∈ fresh, r.ownership = .shared) ∧
    fresh.map KVRef.physicalBlockId = ((m.sessionRefs s).filter
      (KVRef.forked includeTentative)).map KVRef.physicalBlockId := by
  unfold forkBranch at hrun
  rw [bind_ok (get_apply m)] at hrun
  cases hb : m.branches.get? b with
  | some refs =>
    simp only [hb] at hrun
    cases hrun
  | none =>
    simp only [hb,bind_ok (session_eq s m)] at hrun
    obtain ⟨fresh',mid,hfork,hrun⟩ := bind_ok_iff.mp hrun
    cases hrun
    obtain ⟨hsame,hown,hids⟩ := forkRefs_inv hfork
    exact ⟨rfl,⟨hsame.nextBlockId,hsame.allocated,hsame.freed,hsame.ids,hsame.copies⟩,hown,hids⟩

theorem forkBranch_sharing {includeTentative : Bool} {fresh : List KVRef} (h : Sound m)
    (hrun : forkBranch b s includeTentative m = .ok fresh next) :
    SharingKept (.forkBranch b s includeTentative) m next ∧ next.branches.get? b = some fresh := by
  have hn : Sound next := (refines.keeps (.forkBranch b s includeTentative)).ok h (discard_ok hrun)
  have hm := h.touch s
  obtain ⟨hnone,hsame,-,-⟩ := forkBranch_inv hrun
  have hbeside : (m.touch s).allRefs = [] ++ (m.touch s).besideBranch b :=
    (besideBranch_of_unknown (m := m.touch s) hnone).symm
  obtain ⟨fresh',mid,hfork,-,htab,-⟩ := forkRefs_spec includeTentative hm.ledger (hm.sources s)
  rw [sessionRefs_touch] at hfork
  unfold forkBranch at hrun
  simp only [bind_ok (get_apply m),hnone,bind_ok (session_eq s m),bind_ok hfork] at hrun
  cases hrun
  have hrew : Rewritten [] fresh 0 := ⟨[],[],[],[],fresh,rfl,rfl,.absent,Or.inl rfl⟩
  have hset : (setBranch b fresh mid).branches = (m.touch s).branches.set b fresh := by
    rw [setBranch,htab.branches]
  obtain ⟨hshare,-⟩ := branch_sharing (.forkBranch b s includeTentative) hm hn rfl
    htab.sessions hset (.of_eq hbeside) hrew hsame.copies
  constructor
  · exact hshare.of_touch
  · rw [hset,Dict.get?_set_self]

theorem commitTentative_sharing {frontier version : ℤ} (h : Sound m)
    (hrun : commitTentative s frontier version m = .ok () next) :
    SharingKept (.commitTentative s frontier version) m next := by
  have hm := h.touch s
  unfold commitTentative at hrun
  rw [bind_ok (session_eq s m)] at hrun
  split at hrun
  · cases hrun
  · cases hrun
    apply SharingKept.of_touch (s := s)
    apply still_sharing hm
    · intro r' hr'
      have hp := allRefs_perm_session (m.touch s) s
      rcases List.mem_append.mp ((allRefs_setSession _ s _).mem_iff.mp hr') with hr | hr
      · -- a commit keeps the block of each reference
        obtain ⟨r,hr,rfl⟩ := List.mem_map.mp hr
        refine ⟨r,hp.mem_iff.mpr (List.mem_append_left _ ?_),?_⟩
        · rwa [sessionRefs_touch]
        · split <;> exact ⟨rfl,rfl⟩
      · exact ⟨r',hp.mem_iff.mpr (List.mem_append_right _ hr),rfl,rfl⟩
    · rfl
    · intro t ht
      have hts : t ≠ s := fun he => ht (he ▸ rfl)
      simp only [sessionRefs,setSession,Dict.get?_set,if_neg hts]
    · exact fun _ _ => rfl

/-- `ids` lists the blocks that the pool lost, each of them once. -/
structure FreedExactly (m next : VersionedKVManager) (ids : List ℕ) : Prop where
  nodup : ids.Nodup
  mem_iff : ∀ i, i ∈ ids ↔
    (∃ block, m.pool.blocks.get? i = some block) ∧ next.pool.blocks.get? i = none

theorem freedExactly_of_refs (h : Sound m) (hn : Sound next) {ids : List ℕ} (hnodup : ids.Nodup)
    (hmem : ∀ i, i ∈ ids ↔ i ∈ m.allRefs.map KVRef.physicalBlockId ∧
      i ∉ next.allRefs.map KVRef.physicalBlockId) : FreedExactly m next ids where
  nodup := hnodup
  mem_iff i := by
    rw [hmem,h.exactCounts.held,← hn.exactCounts.held]
    cases next.pool.blocks.get? i <;> simp

theorem freedExactly_nil (hpool : next.pool = m.pool) : FreedExactly m next [] where
  nodup := List.nodup_nil
  mem_iff i := by
    rw [hpool]
    cases m.pool.blocks.get? i <;> simp

theorem releaseBranch_sharing {freed : List ℕ} (h : Sound m)
    (hrun : releaseBranch b m = .ok freed next) :
    SharingKept (.releaseBranch b) m next ∧ FreedExactly m next freed := by
  have hn : Sound next := (refines.keeps (.releaseBranch b)).ok h (discard_ok hrun)
  unfold releaseBranch at hrun
  rw [bind_ok (get_apply m)] at hrun
  cases hb : m.branches.get? b with
  | none =>
    simp only [hb] at hrun
    cases hrun
    exact ⟨sharingKept_refl h,freedExactly_nil rfl⟩
  | some refs =>
    simp only [hb,bind_ok (modify_apply _ m)] at hrun
    have hp := allRefs_perm_branch hb
    have hled := h.popped_ledger hb
    obtain ⟨hnodup,hmem,hcount⟩ := releaseRefs_exact hled hrun
    obtain ⟨freed',next',hrun',-,htab,-⟩ := releaseRefs_spec hled
    cases hrun'.symm.trans hrun
    have hall : next.allRefs = m.besideBranch b := by
      simp only [allRefs,htab.sessions,htab.branches]
      rfl
    constructor
    · apply still_sharing h
      · exact fun r hr => ⟨r,hp.mem_iff.mpr (List.mem_append_right _ (hall ▸ hr)),rfl,rfl⟩
      · exact hcount
      · exact fun t _ => by simp only [sessionRefs,htab.sessions,popBranch]
      · intro c hc
        have hcb : c ≠ b := fun he => hc (he ▸ rfl)
        rw [htab.branches,popBranch,Dict.get?_erase,if_neg hcb]
    · apply freedExactly_of_refs h hn hnodup
      intro i
      rw [hmem,hall,(hp.map KVRef.physicalBlockId).mem_iff,List.map_append,List.mem_append]
      show _ ∧ i ∉ (m.besideBranch b).map KVRef.physicalBlockId ↔ _
      tauto

/-- The cut moves its reference only off a block that another reference still names. -/
theorem CutOff.spec {fromToken : ℕ} {old new : List KVRef} (hled : Ledger m (old ++ others))
    (hcut : CutOff fromToken m mid old new copies) :
    Recast old new copies ∧ mid.copyOnWriteBlocks = m.copyOnWriteBlocks + copies ∧
    Ledger mid (new ++ others) ∧
    ∀ i ∈ old.map KVRef.physicalBlockId, i ∈ (new ++ others).map KVRef.physicalBlockId := by
  cases hcut with
  | clean => exact ⟨.absent,rfl,hled,by simp⟩
  | cut mid r ref copies hin hrun =>
    have hfresh : m.pool.nextBlockId ≠ r.physicalBlockId := by
      have := hled.notMem_fresh
      simpa using this
    obtain ⟨hid,hcount,hphys⟩ := cutRef_inv hled hrun
    obtain ⟨ref',copies',mid',hrun',hled',-⟩ := keepRef_spec hled hin
    cases hrun'.symm.trans hrun
    refine ⟨?_,hcount,hled',?_⟩
    · rcases hphys with ⟨rfl,hsame⟩ | ⟨rfl,hnew,-⟩
      · exact .inPlace r _ hid hsame
      · exact .copied r _ hid (hnew ▸ hfresh)
    · rcases hphys with ⟨-,hsame⟩ | ⟨-,-,hstill⟩
      · simp [hsame]
      · simp only [List.map_cons,List.map_nil,List.mem_singleton,List.map_append,List.mem_append]
        rintro i rfl
        exact Or.inr hstill

/-- One session list before and after the loop of a roll-back. -/
theorem rollbackRefs_sharing {fromToken copied : ℕ} {kept : List KVRef} {released : List ℕ}
    (hled : Ledger m (refs ++ others)) (ht : Tiled 0 refs)
    (hrun : rollbackRefs fromToken refs m = .ok (kept,released,copied) next) :
    Rewritten refs kept copied ∧ next.copyOnWriteBlocks = m.copyOnWriteBlocks + copied ∧
    kept.map KVRef.logicalId <+: refs.map KVRef.logicalId ∧ released.Nodup ∧
    ∀ i, i ∈ released ↔ i ∈ (refs ++ others).map KVRef.physicalBlockId ∧
      i ∉ (kept ++ others).map KVRef.physicalBlockId := by
  have hspan : ∀ r ∈ refs, r.tokenStart < r.tokenEnd := by
    intro r hr
    have := hled.span (List.mem_append_left _ hr)
    omega
  obtain ⟨before,old,new,dropped,mid,rfl,rfl,hcut,hrel⟩ := rollbackRefs_inv ht hspan hrun
  obtain ⟨hcast,hcount,hled',hstill⟩ := hcut.spec (hled.perm (perm_parts before old dropped others))
  have hperm : (new ++ (before ++ dropped ++ others)).Perm (dropped ++ (before ++ new ++ others)) := by
    rw [List.perm_iff_count]
    intro r
    simp only [List.count_append]
    omega
  obtain ⟨hnodup,hmem,hcount'⟩ := releaseRefs_exact (hled'.perm hperm) hrel
  refine ⟨⟨before,old,new,dropped,[],rfl,by simp,hcast,Or.inr rfl⟩,hcount'.trans hcount,?_,hnodup,?_⟩
  · have hids : new.map KVRef.logicalId = old.map KVRef.logicalId := by
      cases hcast with
      | absent => rfl
      | inPlace old new hid | copied old new hid => simp [hid]
    rw [List.map_append,List.map_append,List.map_append,hids,← List.append_assoc]
    exact List.prefix_append _ _
  · intro i
    have hi := hstill i
    simp only [hmem,List.map_append,List.mem_append] at hi ⊢
    tauto

theorem rollbackTentative_inv {fromToken : ℤ} {result : RollbackResult}
    (hrun : rollbackTentative s fromToken m = .ok result next) :
    (next = m.touch s ∧ result.releasedBlocks = [] ∧ result.copiedBlocks = 0) ∨
    ∃ kept mid, rollbackRefs fromToken.toNat (m.sessionRefs s) (m.touch s) =
        .ok (kept,result.releasedBlocks,result.copiedBlocks) mid ∧
      next = { setSession s kept mid with
        rollbackTokens := mid.rollbackTokens + (endOf (m.sessionRefs s) - fromToken.toNat) } := by
  unfold rollbackTentative at hrun
  rw [bind_ok (session_eq s m)] at hrun
  split at hrun
  · cases hrun
  · split at hrun
    · cases hrun
      exact Or.inl ⟨rfl,rfl,rfl⟩
    · obtain ⟨⟨kept,released,copied⟩,mid,hroll,hrun⟩ := bind_ok_iff.mp hrun
      cases hrun
      exact Or.inr ⟨kept,mid,hroll,rfl⟩

theorem rollbackTentative_sharing {fromToken : ℤ} {result : RollbackResult} (h : Sound m)
    (hrun : rollbackTentative s fromToken m = .ok result next) :
    SharingKept (.rollbackTentative s fromToken) m next ∧
    (next.sessionRefs s).map KVRef.logicalId <+: (m.sessionRefs s).map KVRef.logicalId ∧
    result.copiedBlocks = (moved m next).length ∧ FreedExactly m next result.releasedBlocks := by
  have hn : Sound next := (refines.keeps (.rollbackTentative s fromToken)).ok h (discard_ok hrun)
  have hm := h.touch s
  rcases rollbackTentative_inv hrun with ⟨rfl,hreleased,hcopied⟩ | ⟨kept,mid,hroll,rfl⟩
  · -- nothing lies behind the position
    have hshare : SharingKept (.rollbackTentative s fromToken) m (m.touch s) := sharingKept_touch h s
    have hcount : m.copyOnWriteBlocks = m.copyOnWriteBlocks + (moved m (m.touch s)).length :=
      hshare.counted
    have hsame : (m.sessionRefs s).map KVRef.logicalId =
        ((m.touch s).sessionRefs s).map KVRef.logicalId := by
      rw [sessionRefs_touch]
    refine ⟨hshare,hsame ▸ List.prefix_rfl,by omega,?_⟩
    rw [hreleased]
    exact freedExactly_nil rfl
  · have hled := hm.session_ledger s
    have ht := (hm.spine s).tiled
    rw [sessionRefs_touch] at hled ht
    obtain ⟨hrew,hcount,hids,hnodup,hmem⟩ := rollbackRefs_sharing hled ht hroll
    obtain ⟨kept',released',copied',mid',hroll',-,htab,-⟩ := rollbackRefs_spec fromToken.toNat hled ht
    cases hroll'.symm.trans hroll
    have hset : mid.sessions.set s kept = (m.touch s).sessions.set s kept := by
      rw [htab.sessions]
    obtain ⟨hshare,hlen⟩ := session_sharing (.rollbackTentative s fromToken) hm hn rfl
      hset htab.branches (by rwa [sessionRefs_touch]) hcount
    rw [moved_touch] at hlen
    refine ⟨hshare.of_touch,?_,hlen.symm,?_⟩
    · have hrefs : (setSession s kept mid).sessionRefs s = kept := by
        simp [sessionRefs,setSession]
      exact hrefs.symm ▸ hids
    · have hp := allRefs_perm_session (m.touch s) s
      have hq := allRefs_setSession mid s kept
      rw [allRefs_touch,sessionRefs_touch] at hp
      rw [besideSession_congr htab] at hq
      apply freedExactly_of_refs h hn hnodup
      intro i
      rw [hmem,(hp.map KVRef.physicalBlockId).mem_iff]
      exact and_congr_right (fun _ => not_congr (hq.map KVRef.physicalBlockId).mem_iff.symm)

/-- `removed_tokens` counts the tokens that the session lost at its end. -/
theorem rollbackTentative_removed {fromToken : ℤ} {result : RollbackResult} (h : Sound m)
    (hrun : rollbackTentative s fromToken m = .ok result next) :
    ∃ kept removed, outcome (sessionTokens s) m = .ok (kept ++ removed) ∧
      outcome (sessionTokens s) next = .ok kept ∧ result.removedTokens = removed.length := by
  by_cases hfrom : fromToken < NaiveKV.committedEnd (m.view.sessions s)
  · have hfail := rollbackTentative_rejected h hfrom
    cases hfail.symm.trans hrun
  · obtain ⟨result',next',hrun',hsound,hremoved,hview⟩ := rollbackTentative_ok h (not_lt.mp hfrom)
    cases hrun'.symm.trans hrun
    refine ⟨((m.view.sessions s).take fromToken.toNat).map Prod.fst,
      ((m.view.sessions s).drop fromToken.toNat).map Prod.fst,?_,?_,?_⟩
    · rw [outcome_sessionTokens h,← List.map_append,List.take_append_drop]
    · rw [outcome_sessionTokens hsound,hview,NaiveKV.putSession]
      simp
    · rw [hremoved,List.length_map,List.length_drop]

theorem sharing_of_ok (hx : perform op m = .ok () next) (h : SharingKept op m next) :
    SharingKept op m (after (perform op) m) := by
  rw [after_ok hx]
  exact h

theorem sharing_of_error {e : KVError} (hx : perform op m = .error e next)
    (h : SharingKept op m next) : SharingKept op m (after (perform op) m) := by
  rw [after_error hx]
  exact h

theorem sharing_step (h : Sound m) (op : Op) : SharingKept op m (after (perform op) m) := by
  cases op with
  | appendSession s tokenIds validity version =>
    by_cases hv : validity = .invalidated
    · subst hv
      have hrun := appendSession_invalidated (m := m) (s := s) tokenIds version
      exact sharing_of_error (discard_error hrun) (sharingKept_refl h)
    · obtain ⟨appended,next,hrun,-⟩ := appendSession_ok (s := s) h hv tokenIds version
      exact sharing_of_ok (discard_ok hrun) (appendSession_sharing h hrun).1
  | rollbackTentative s fromToken =>
    by_cases hfrom : fromToken < NaiveKV.committedEnd (m.view.sessions s)
    · have hrun := rollbackTentative_rejected h hfrom
      exact sharing_of_error (discard_error hrun) (sharingKept_touch h s)
    · obtain ⟨result,next,hrun,-⟩ := rollbackTentative_ok h (not_lt.mp hfrom)
      exact sharing_of_ok (discard_ok hrun) (rollbackTentative_sharing h hrun).1
  | commitTentative s frontier version =>
    by_cases hfrontier : frontier = (m.view.sessions s).length
    · obtain ⟨next,hrun,-⟩ := commitTentative_ok h version hfrontier
      exact sharing_of_ok hrun (commitTentative_sharing h hrun)
    · exact sharing_of_error (commitTentative_rejected h version hfrontier) (sharingKept_touch h s)
  | forkBranch b s includeTentative =>
    by_cases hb : m.view.branches b = none
    · obtain ⟨fresh,next,hrun,-⟩ := forkBranch_ok (s := s) h hb includeTentative
      exact sharing_of_ok (discard_ok hrun) (forkBranch_sharing h hrun).1
    · have hrun := forkBranch_rejected (s := s) hb includeTentative
      exact sharing_of_error (discard_error hrun) (sharingKept_refl h)
  | appendBranch b tokenIds version =>
    cases hb : m.branches.get? b with
    | none =>
      have hrun := appendBranch_rejected (view_branch_none.mpr hb) tokenIds version
      exact sharing_of_error (discard_error hrun) (sharingKept_refl h)
    | some refs =>
      obtain ⟨appended,next,hrun,-⟩ := appendBranch_ok h (view_branch_some.mpr ⟨refs,hb,rfl⟩)
        tokenIds version
      exact sharing_of_ok (discard_ok hrun) (appendBranch_sharing h hb hrun).1
  | releaseBranch b =>
    obtain ⟨freed,next,hrun,-⟩ := releaseBranch_ok (b := b) h
    exact sharing_of_ok (discard_ok hrun) (releaseBranch_sharing h hrun).1
  | sessionRefs s =>
    exact sharing_of_ok (discard_ok (session_eq s m)) (sharingKept_touch h s)
  | branchRefs b =>
    cases hb : m.branches.get? b with
    | none =>
      exact sharing_of_error (discard_error (branchRefs_rejected hb)) (sharingKept_refl h)
    | some refs =>
      exact sharing_of_ok (discard_ok (branchRefs_ok hb)) (sharingKept_refl h)
  | sessionTokens s =>
    exact sharing_of_ok (discard_ok (sessionTokens_ok h s)) (sharingKept_touch h s)
  | branchTokens b =>
    cases hb : m.view.branches b with
    | none => exact sharing_of_error (discard_error (branchTokens_rejected hb)) (sharingKept_refl h)
    | some xs => exact sharing_of_ok (discard_ok (branchTokens_ok h hb)) (sharingKept_refl h)
  | validateRefCounts =>
    exact sharing_of_ok (validateRefCounts_spec h.ledger) (sharingKept_refl h)

end CueBee.Cache
