import CueBee.Speaker.ProfileInvariant

/-! # Speaker profiles over whole runs

Any assignments and renames from an empty store. Embeddings have one dimension and qualities
lie between 0 and 1; renames may be any, those that raise included.
-/
namespace CueBee.Speaker
open Cache Raising PyStr VectorGeometry SpeakerSessionStore

namespace SpeakerSessionStore
variable {d : ℕ} {store next : SpeakerSessionStore ℝ}

/-- An embedding of dimension `d` with a quality in range. -/
def Call.Valid (d : ℕ) : Call ℝ → Prop
  | .assign _ embedding quality => embedding.length = d ∧ 0 ≤ quality ∧ quality ≤ 1
  | .rename _ _ _ => True

def Kept (d : ℕ) (store : SpeakerSessionStore ℝ) : Prop :=
  ∀ s session, store.sessions.get? s = some session → session.Kept d

/-- Profiles stay under their ids and grow, and numbers are not given twice. -/
structure Grows (store next : SpeakerSessionStore ℝ) : Prop where
  numbers : ∀ s, (store.session s).nextSpeakerNumber ≤ (next.session s).nextSpeakerNumber
  profiles : ∀ s speakerId p, (store.session s).profiles.get? speakerId = some p →
    ∃ p', (next.session s).profiles.get? speakerId = some p' ∧ Grown p p'

theorem Grows.refl (store : SpeakerSessionStore ℝ) : Grows store store :=
  ⟨fun _ => le_rfl,fun _ _ p h => ⟨p,h,.refl p⟩⟩

theorem Grows.trans {last : SpeakerSessionStore ℝ} (h : Grows store next) (h' : Grows next last) :
    Grows store last where
  numbers s := (h.numbers s).trans (h'.numbers s)
  profiles s speakerId p hp := by
    obtain ⟨q,hq,hpq⟩ := h.profiles s speakerId p hp
    obtain ⟨r,hr,hqr⟩ := h'.profiles s speakerId q hq
    exact ⟨r,hr,hpq.trans hqr⟩

theorem kept_init (d : ℕ) (threshold : ℝ) (h : FloatOps.between (-1) 1 threshold = true) :
    Kept d (init threshold h) := fun _ _ hget => nomatch hget

theorem Kept.session (h : Kept d store) (s : SessionId) : (store.session s).Kept d := by
  unfold SpeakerSessionStore.session
  cases hget : store.sessions.get? s with
  | none => exact SpeakerSession.kept_fresh d
  | some session => exact h s session hget

theorem Installed.kept {s : SessionId} {after : SpeakerSession ℝ} (h : Installed store next s after)
    (hkept : Kept d store) (hafter : after.Kept d) : Kept d next := by
  intro t session hget
  rw [h.sessions] at hget
  by_cases ht : t = s
  · rw [if_pos ht,Option.some.injEq] at hget
    exact hget ▸ hafter
  · rw [if_neg ht] at hget
    exact hkept t session hget

/-- A change of one session is growth if that session grows. -/
theorem Installed.grows {s : SessionId} {after : SpeakerSession ℝ} (h : Installed store next s after)
    (hnumber : (store.session s).nextSpeakerNumber ≤ after.nextSpeakerNumber)
    (hprofiles : ∀ speakerId p, (store.session s).profiles.get? speakerId = some p →
      ∃ p', after.profiles.get? speakerId = some p' ∧ Grown p p') : Grows store next := by
  constructor
  · intro t
    by_cases ht : t = s
    · rw [ht,h.session_self]
      exact hnumber
    · rw [h.session_ne ht]
  · intro t speakerId p hp
    by_cases ht : t = s
    · subst ht
      rw [h.session_self]
      exact hprofiles speakerId p hp
    · rw [h.session_ne ht]
      exact ⟨p,hp,.refl p⟩

/-- One profile of one session is new or has moved; nothing else has changed. -/
structure OneProfile (s : SessionId) (speakerId : SpeakerId) (store next : SpeakerSessionStore ℝ) :
    Prop where
  sessions : ∀ t ≠ s, next.sessions.get? t = store.sessions.get? t
  others : ∀ other ≠ speakerId,
    (next.session s).profiles.get? other = (store.session s).profiles.get? other
  changed : ∃ p, (next.session s).profiles.get? speakerId = some p ∧
    (store.session s).profiles.get? speakerId ≠ some p

theorem Kept.assign (h : Kept d store) (s : SessionId) {embedding : List ℝ} {quality : ℝ}
    (hlength : embedding.length = d) (hlower : 0 ≤ quality) (hupper : quality ≤ 1) :
    ∃ speakerId score next,
      SpeakerSessionStore.assign s embedding quality store = .ok (speakerId,score) next ∧
      -1 ≤ score ∧ score ≤ 1 ∧ OneProfile s speakerId store next ∧ Kept d next ∧
      Grows store next := by
  have hquality : FloatOps.between 0 1 quality = true := by
    rw [exact_between]
    exact ⟨by simpa using hlower,by simpa using hupper⟩
  obtain ⟨speakerId,score,after,hanswer,hscore,hscore',hone⟩ := (h.session s).answer
    ((length_normalize embedding).trans hlength) (round_normalize embedding)
    store.assignmentThreshold quality
  obtain ⟨next,hrun,hinst⟩ := assign_ok hquality hanswer
  refine ⟨speakerId,score,next,hrun,hscore,hscore',⟨fun t ht => ?_,?_,?_⟩,
    hinst.kept h hone.kept,hinst.grows hone.next fun other p hp => ?_⟩
  · rw [hinst.sessions,if_neg ht]
  · rw [hinst.session_self]
    exact hone.others
  · rw [hinst.session_self]
    exact hone.changed
  · by_cases hother : other = speakerId
    · exact hother ▸ hone.grown p (hother ▸ hp)
    · exact ⟨p,(hone.others other hother).trans hp,.refl p⟩

theorem rename_cases (s : SessionId) (speakerId : SpeakerId) (displayName : PyStr)
    (store : SpeakerSessionStore ℝ) :
    after (rename s speakerId displayName) store = store ∨
    ∃ session p, store.sessions.get? s = some session ∧ session.profiles.get? speakerId = some p ∧
      Installed store (after (rename s speakerId displayName) store) s { session with
        profiles := session.profiles.set speakerId { p with displayName := some displayName } } := by
  by_cases hname : displayName = []
  · refine .inl (after_error (show rename s speakerId displayName store = .error .displayName _ from ?_))
    simp only [rename,if_pos hname]
    rfl
  · cases hsession : store.sessions.get? s with
    | none =>
      refine .inl (after_error
        (show rename s speakerId displayName store = .error (.unknownSession s) _ from ?_))
      simp only [rename,if_neg hname,bind_ok (get_apply store),hsession]
      rfl
    | some session =>
      cases hprofile : session.profiles.get? speakerId with
      | none =>
        refine .inl (after_error
          (show rename s speakerId displayName store = .error (.unknownSpeaker speakerId) _ from ?_))
        simp only [rename,if_neg hname,bind_ok (get_apply store),hsession,hprofile]
        rfl
      | some p =>
        refine .inr ⟨session,p,rfl,hprofile,?_⟩
        have hrun : rename s speakerId displayName store = .ok () (store.put s { session with
            profiles := session.profiles.set speakerId
              { p with displayName := some displayName } }) := by
          simp only [rename,if_neg hname,bind_ok (get_apply store),hsession,hprofile]
          rfl
        rw [after_ok hrun]
        exact installed_put _ _ _

end SpeakerSessionStore

theorem SpeakerSession.Sized.renamed {d : ℕ} {session : SpeakerSession ℝ} {speakerId : SpeakerId}
    {p : SpeakerProfile ℝ} (h : session.Sized d) (hget : session.profiles.get? speakerId = some p)
    (displayName : PyStr) : SpeakerSession.Sized d { session with
      profiles := session.profiles.set speakerId { p with displayName := some displayName } } := by
  have hp := h speakerId p hget
  intro other q hq
  rw [Dict.get?_set] at hq
  by_cases hother : other = speakerId
  · rw [if_pos hother,Option.some.injEq] at hq
    exact hq ▸ hother ▸ ⟨hp.speakerId,hp.length,hp.round,hp.samples⟩
  · rw [if_neg hother] at hq
    exact h other q hq

theorem SpeakerSession.Kept.renamed {d : ℕ} {session : SpeakerSession ℝ} {speakerId : SpeakerId}
    {p : SpeakerProfile ℝ} (h : session.Kept d) (hget : session.profiles.get? speakerId = some p)
    (displayName : PyStr) : SpeakerSession.Kept d { session with
      profiles := session.profiles.set speakerId { p with displayName := some displayName } } := by
  constructor
  · exact h.positive
  · exact (Dict.keys_set_of_some hget _).trans h.numbered
  · exact h.sized.renamed hget displayName

namespace SpeakerSessionStore
variable {d : ℕ} {store next : SpeakerSessionStore ℝ}

theorem Kept.rename (h : Kept d store) (s : SessionId) (speakerId : SpeakerId)
    (displayName : PyStr) :
    Kept d (after (SpeakerSessionStore.rename s speakerId displayName) store) ∧
    Grows store (after (SpeakerSessionStore.rename s speakerId displayName) store) := by
  rcases rename_cases s speakerId displayName store with hsame | ⟨session,p,hsession,hget,hinst⟩
  · rw [hsame]
    exact ⟨h,.refl store⟩
  · have hkept := h s session hsession
    have hstored : store.session s = session := by
      rw [SpeakerSessionStore.session,hsession,Option.getD_some]
    constructor
    · exact hinst.kept h (hkept.renamed hget displayName)
    · refine hinst.grows (by rw [hstored]) (fun other q hq => ?_)
      rw [hstored] at hq
      rw [Dict.get?_set]
      by_cases hother : other = speakerId
      · rw [hother,hget,Option.some.injEq] at hq
        rw [if_pos hother]
        exact ⟨_,rfl,hq ▸ ⟨le_rfl,id⟩⟩
      · rw [if_neg hother]
        exact ⟨q,hq,.refl q⟩

theorem Kept.step (h : Kept d store) {call : Call ℝ} (hvalid : call.Valid d) :
    Kept d (store.step call) ∧ Grows store (store.step call) := by
  cases call with
  | assign s embedding quality =>
    obtain ⟨speakerId,score,next,hrun,-,-,-,hkept,hgrows⟩ :=
      h.assign s hvalid.1 hvalid.2.1 hvalid.2.2
    rw [SpeakerSessionStore.step,after_ok hrun]
    exact ⟨hkept,hgrows⟩
  | rename s speakerId displayName => exact h.rename s speakerId displayName

theorem Kept.run (h : Kept d store) {calls : List (Call ℝ)} (hvalid : ∀ call ∈ calls, call.Valid d) :
    Kept d (run calls store) ∧ Grows store (run calls store) := by
  induction calls generalizing store with
  | nil => exact ⟨h,.refl store⟩
  | cons call calls ih =>
    obtain ⟨hkept,hgrows⟩ := h.step (hvalid call List.mem_cons_self)
    obtain ⟨hlast,hmore⟩ := ih hkept (fun call hcall => hvalid call (List.mem_cons_of_mem _ hcall))
    exact ⟨hlast,hgrows.trans hmore⟩

/-- The profiles of every session that any valid calls reach. -/
theorem profiles_kept (threshold : ℝ) (h : FloatOps.between (-1) 1 threshold = true) (d : ℕ)
    (calls : List (Call ℝ)) (hvalid : ∀ call ∈ calls, call.Valid d) :
    let store := run calls (init threshold h)
    (∀ s session, store.sessions.get? s = some session → session.Kept d) ∧
    (∀ s embedding quality, embedding.length = d → 0 ≤ quality → quality ≤ 1 →
      ∃ speakerId score next, assign s embedding quality store = .ok (speakerId,score) next ∧
        -1 ≤ score ∧ score ≤ 1 ∧ OneProfile s speakerId store next) ∧
    ∀ more : List (Call ℝ), (∀ call ∈ more, call.Valid d) → Grows store (run more store) := by
  intro store
  have hkept : Kept d store := ((kept_init d threshold h).run hvalid).1
  refine ⟨hkept,fun s embedding quality hlength hlower hupper => ?_,fun more hmore =>
    (hkept.run hmore).2⟩
  obtain ⟨speakerId,score,next,hrun,hscore,hscore',hone,-,-⟩ := hkept.assign s hlength hlower hupper
  exact ⟨speakerId,score,next,hrun,hscore,hscore',hone⟩

/-- Two opposite voices and a rename of the first, at the lowest threshold. -/
theorem profiles_kept_opposite :
    ∃ h : FloatOps.between (-1) 1 (-1 : ℝ) = true,
      let calls := [.assign (lit "s") [1] 1,.assign (lit "s") [-1] 1,
        .rename (lit "s") (lit "spk_001") (lit "Ann")]
      ∀ session, (run calls (init (-1 : ℝ) h)).sessions.get? (lit "s") = some session →
        session.Kept 1 := by
  have h : FloatOps.between (-1) 1 (-1 : ℝ) = true := by
    rw [exact_between]
    norm_num
  refine ⟨h,(profiles_kept (-1) h 1 _ (fun call hcall => ?_)).1 (lit "s")⟩
  simp only [List.mem_cons,List.not_mem_nil,or_false] at hcall
  rcases hcall with rfl | rfl | rfl
  · exact ⟨rfl,zero_le_one,le_rfl⟩
  · exact ⟨rfl,zero_le_one,le_rfl⟩
  · exact trivial

end SpeakerSessionStore
end CueBee.Speaker
