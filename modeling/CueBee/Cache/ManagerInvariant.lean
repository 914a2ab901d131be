import CueBee.Cache.AppendLoops
import CueBee.Cache.SharingLoops
import CueBee.Cache.NaiveKV

/-! # The invariant of the manager

`Sound m` is the ledger of all references together with what session lists and branch
lists look like. `view m` forgets the blocks. Writing one list back is described once,
for sessions and for branches; every operation of the manager uses one of the two.
-/
namespace CueBee.Cache
open Raising

/-- What the list of references of one session looks like. -/
structure Spine (refs : List KVRef) : Prop where
  tiled : Tiled 0 refs
  owned : ∀ r ∈ refs, r.ownership = .spine
  valid : ∀ r ∈ refs, r.validity ≠ .invalidated

theorem spine_nil : Spine [] := ⟨trivial,by simp,by simp⟩

namespace VersionedKVManager

structure Sound (m : VersionedKVManager) : Prop where
  ledger : Ledger m m.allRefs
  sessions : ∀ s refs, m.sessions.get? s = some refs → Spine refs
  branches : ∀ b refs, m.branches.get? b = some refs → ∀ r ∈ refs, r.ownership ≠ .spine

/-- What a caller can read: the tokens of sessions and branches. -/
def view (m : VersionedKVManager) : NaiveKV where
  sessions s := pairsOf m.pool (m.sessionRefs s)
  branches b := (m.branches.get? b).map (tokensOf m.pool)

theorem sound_init (blockSize : ℕ) (h : 0 < blockSize) : Sound (init blockSize h) where
  ledger := ⟨backed_init blockSize h,List.Pairwise.nil,fun _ hr => by cases hr⟩
  sessions s refs hs := by simp [init] at hs
  branches b refs hb := by simp [init] at hb

variable {m next : VersionedKVManager} {s : SessionId} {b : BranchId} {refs : List KVRef}

/-- The references that do not belong to session `s`. -/
def besideSession (m : VersionedKVManager) (s : SessionId) : List KVRef :=
  (m.sessions.erase s).values.flatten ++ m.branches.values.flatten

/-- The references that do not belong to branch `b`. -/
def besideBranch (m : VersionedKVManager) (b : BranchId) : List KVRef :=
  m.sessions.values.flatten ++ (m.branches.erase b).values.flatten

theorem flatten_values_perm {K : Type} [DecidableEq K] {d : Dict K (List KVRef)} {k : K}
    (h : d.get? k = some refs) : d.values.flatten.Perm (refs ++ (d.erase k).values.flatten) :=
  ((Dict.entries_perm_of_some h).map Prod.snd).flatten

theorem allRefs_perm_session (m : VersionedKVManager) (s : SessionId) :
    m.allRefs.Perm (m.sessionRefs s ++ m.besideSession s) := by
  cases h : m.sessions.get? s with
  | none =>
    simp only [sessionRefs,besideSession,h,Dict.erase_of_none h,Option.getD_none,List.nil_append]
    exact List.Perm.refl _
  | some refs =>
    simp only [sessionRefs,besideSession,h,Option.getD_some,← List.append_assoc]
    exact (flatten_values_perm h).append_right _

theorem allRefs_perm_branch (h : m.branches.get? b = some refs) :
    m.allRefs.Perm (refs ++ m.besideBranch b) :=
  ((flatten_values_perm h).append_left _).trans (List.perm_append_comm_assoc _ _ _)

theorem besideSession_setSession (m : VersionedKVManager) (s : SessionId) (refs : List KVRef) :
    (setSession s refs m).besideSession s = m.besideSession s := by
  simp [besideSession,setSession]

theorem besideBranch_setBranch (m : VersionedKVManager) (b : BranchId) (refs : List KVRef) :
    (setBranch b refs m).besideBranch b = m.besideBranch b := by
  simp [besideBranch,setBranch]

theorem allRefs_setSession (m : VersionedKVManager) (s : SessionId) (refs : List KVRef) :
    (setSession s refs m).allRefs.Perm (refs ++ m.besideSession s) := by
  have h := allRefs_perm_session (setSession s refs m) s
  rw [besideSession_setSession] at h
  simpa [sessionRefs,setSession] using h

theorem allRefs_setBranch (m : VersionedKVManager) (b : BranchId) (refs : List KVRef) :
    (setBranch b refs m).allRefs.Perm (refs ++ m.besideBranch b) := by
  have h := allRefs_perm_branch (m := setBranch b refs m) (Dict.get?_set_self _ _ _)
  rwa [besideBranch_setBranch] at h

theorem besideSession_congr (htab : TablesKept m next) :
    next.besideSession s = m.besideSession s := by
  simp only [besideSession,htab.sessions,htab.branches]

theorem besideBranch_congr (htab : TablesKept m next) :
    next.besideBranch b = m.besideBranch b := by
  simp only [besideBranch,htab.sessions,htab.branches]

theorem besideBranch_of_unknown (h : m.branches.get? b = none) : m.besideBranch b = m.allRefs := by
  rw [besideBranch,Dict.erase_of_none h,allRefs]

theorem mem_besideSession {t : SessionId} (hne : t ≠ s) (h : m.sessions.get? t = some refs)
    {r : KVRef} (hr : r ∈ refs) : r ∈ m.besideSession s := by
  refine List.mem_append_left _ (List.mem_flatten.mpr ⟨refs,?_,hr⟩)
  exact (Dict.mem_values_iff _ _).mpr ⟨t,by rw [Dict.get?_erase,if_neg hne,h]⟩

theorem branch_mem_besideSession (h : m.branches.get? b = some refs) {r : KVRef} (hr : r ∈ refs) :
    r ∈ m.besideSession s :=
  List.mem_append_right _ (List.mem_flatten.mpr ⟨refs,(Dict.mem_values_iff _ _).mpr ⟨b,h⟩,hr⟩)

theorem mem_besideBranch {c : BranchId} (hne : c ≠ b) (h : m.branches.get? c = some refs)
    {r : KVRef} (hr : r ∈ refs) : r ∈ m.besideBranch b := by
  refine List.mem_append_right _ (List.mem_flatten.mpr ⟨refs,?_,hr⟩)
  exact (Dict.mem_values_iff _ _).mpr ⟨c,by rw [Dict.get?_erase,if_neg hne,h]⟩

theorem session_mem_besideBranch (h : m.sessions.get? s = some refs) {r : KVRef} (hr : r ∈ refs) :
    r ∈ m.besideBranch b :=
  List.mem_append_left _ (List.mem_flatten.mpr ⟨refs,(Dict.mem_values_iff _ _).mpr ⟨s,h⟩,hr⟩)

namespace Sound

theorem spine (h : Sound m) (s : SessionId) : Spine (m.sessionRefs s) := by
  cases hs : m.sessions.get? s with
  | none =>
    simp only [sessionRefs,hs,Option.getD_none]
    exact spine_nil
  | some refs =>
    simp only [sessionRefs,hs,Option.getD_some]
    exact h.sessions s refs hs

theorem session_ledger (h : Sound m) (s : SessionId) :
    Ledger m (m.sessionRefs s ++ m.besideSession s) :=
  h.ledger.perm (allRefs_perm_session m s)

theorem branch_ledger (h : Sound m) (hb : m.branches.get? b = some refs) :
    Ledger m (refs ++ m.besideBranch b) :=
  h.ledger.perm (allRefs_perm_branch hb)

/-- The references that a fork of session `s` may take over. -/
theorem sources (h : Sound m) (s : SessionId) :
    ∀ r ∈ m.sessionRefs s, r ∈ m.allRefs ∧ r.ownership = .spine := by
  intro r hr
  constructor
  · exact (allRefs_perm_session m s).mem_iff.mpr (List.mem_append_left _ hr)
  · exact (h.spine s).owned r hr

theorem setSession (h : Sound m) (htab : TablesKept m next)
    (hled : Ledger next (refs ++ m.besideSession s)) (hspine : Spine refs) :
    Sound (VersionedKVManager.setSession s refs next) where
  ledger := by
    have hp := allRefs_setSession next s refs
    rw [besideSession_congr htab] at hp
    exact ⟨hled.backed.perm (hp.symm.map _),(hled.perm hp.symm).apart,(hled.perm hp.symm).numbered⟩
  sessions t refs' ht := by
    simp only [VersionedKVManager.setSession,Dict.get?_set,htab.sessions] at ht
    by_cases hts : t = s
    · rw [if_pos hts,Option.some.injEq] at ht
      exact ht ▸ hspine
    · rw [if_neg hts] at ht
      exact h.sessions t refs' ht
  branches c refs' hc := h.branches c refs' (htab.branches ▸ hc)

theorem setBranch (h : Sound m) (htab : TablesKept m next)
    (hled : Ledger next (refs ++ m.besideBranch b)) (hown : ∀ r ∈ refs, r.ownership ≠ .spine) :
    Sound (VersionedKVManager.setBranch b refs next) where
  ledger := by
    have hp := allRefs_setBranch next b refs
    rw [besideBranch_congr htab] at hp
    exact ⟨hled.backed.perm (hp.symm.map _),(hled.perm hp.symm).apart,(hled.perm hp.symm).numbered⟩
  sessions t refs' ht := h.sessions t refs' (htab.sessions ▸ ht)
  branches c refs' hc := by
    simp only [VersionedKVManager.setBranch,Dict.get?_set,htab.branches] at hc
    by_cases hcb : c = b
    · rw [if_pos hcb,Option.some.injEq] at hc
      exact hc ▸ hown
    · rw [if_neg hcb] at hc
      exact h.branches c refs' hc

end Sound

theorem view_setSession (htab : TablesKept m next) (hframe : FrameOn m next (m.besideSession s)) :
    (setSession s refs next).view = m.view.putSession s (pairsOf next.pool refs) := by
  have hsess : (setSession s refs next).view.sessions =
      Function.update m.view.sessions s (pairsOf next.pool refs) := by
    funext t
    by_cases hts : t = s
    · subst hts
      simp [view,sessionRefs,setSession]
    · rw [Function.update_of_ne hts]
      simp only [view,sessionRefs,setSession,Dict.get?_set,if_neg hts,htab.sessions]
      cases ht : m.sessions.get? t with
      | none => rfl
      | some refs' => exact pairsOf_congr (fun r hr => hframe r (mem_besideSession hts ht hr))
  have hbranch : (setSession s refs next).view.branches = m.view.branches := by
    funext c
    simp only [view,setSession,htab.branches]
    cases hc : m.branches.get? c with
    | none => rfl
    | some refs' =>
      exact congrArg some (tokensOf_congr (fun r hr => hframe r (branch_mem_besideSession hc hr)))
  rw [NaiveKV.putSession,← hsess,← hbranch]

theorem view_setBranch (htab : TablesKept m next) (hframe : FrameOn m next (m.besideBranch b)) :
    (setBranch b refs next).view = m.view.putBranch b (some (tokensOf next.pool refs)) := by
  have hsess : (setBranch b refs next).view.sessions = m.view.sessions := by
    funext t
    simp only [view,sessionRefs,setBranch,htab.sessions]
    cases ht : m.sessions.get? t with
    | none => rfl
    | some refs' => exact pairsOf_congr (fun r hr => hframe r (session_mem_besideBranch ht hr))
  have hbranch : (setBranch b refs next).view.branches =
      Function.update m.view.branches b (some (tokensOf next.pool refs)) := by
    funext c
    by_cases hcb : c = b
    · subst hcb
      simp [view,setBranch]
    · rw [Function.update_of_ne hcb]
      simp only [view,setBranch,Dict.get?_set,if_neg hcb,htab.branches]
      cases hc : m.branches.get? c with
      | none => rfl
      | some refs' =>
        exact congrArg some (tokensOf_congr (fun r hr => hframe r (mem_besideBranch hcb hc hr)))
  rw [NaiveKV.putBranch,← hsess,← hbranch]

/-- The state after `self._branches.pop(branch_id)`. -/
def popBranch (b : BranchId) (m : VersionedKVManager) : VersionedKVManager :=
  { m with branches := m.branches.erase b }

theorem Sound.popped_ledger (h : Sound m) (hb : m.branches.get? b = some refs) :
    Ledger (m.popBranch b) (refs ++ (m.popBranch b).allRefs) := by
  have hled := h.branch_ledger hb
  exact ⟨hled.backed,hled.apart,hled.numbered⟩

/-- The state after `_session(session_id)`. -/
def touch (s : SessionId) (m : VersionedKVManager) : VersionedKVManager :=
  { m with sessions := m.sessions.setDefault s [] }

theorem session_eq (s : SessionId) (m : VersionedKVManager) :
    session s m = .ok (m.sessionRefs s) (m.touch s) := rfl

theorem touch_cases (s : SessionId) (m : VersionedKVManager) :
    m.touch s = m ∨ (m.sessions.get? s = none ∧ m.touch s = setSession s [] m) := by
  unfold touch Dict.setDefault
  cases h : m.sessions.get? s with
  | some refs => exact Or.inl rfl
  | none => exact Or.inr ⟨rfl,rfl⟩

@[simp] theorem sessionRefs_touch (s : SessionId) (m : VersionedKVManager) (t : SessionId) :
    (m.touch s).sessionRefs t = m.sessionRefs t := by
  simp only [sessionRefs,touch,Dict.get?_setDefault]
  by_cases h : t = s
  · simp [h]
  · simp [h]

@[simp] theorem view_touch (s : SessionId) (m : VersionedKVManager) : (m.touch s).view = m.view := by
  have hsess : (m.touch s).view.sessions = m.view.sessions := by
    funext t
    simp only [view,sessionRefs_touch]
    rfl
  exact congrArg (NaiveKV.mk · m.view.branches) hsess

theorem Sound.touch (h : Sound m) (s : SessionId) : Sound (m.touch s) := by
  rcases touch_cases s m with he | ⟨hs,he⟩
  · rw [he]
    exact h
  · rw [he]
    have hled := h.session_ledger s
    rw [sessionRefs,hs] at hled
    exact h.setSession (TablesKept.refl m) hled spine_nil

end VersionedKVManager
end CueBee.Cache
