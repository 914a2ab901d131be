import CueBee.Speaker.RestoredSession

/-! # When an embedding matches a speaker

The loop of `assign` starts from the score -1 and takes only a better one, so that a profile
opposite to the embedding is never found. That matters at the threshold -1 alone, where every
profile should match.
-/
namespace CueBee.Speaker
open Cache Raising PyStr VectorGeometry SpeakerSessionStore

/-- A profile at the threshold is passed over only if all are opposite to the vector. -/
theorem BestScore.opposite {vector : List ℝ} {profiles : List (SpeakerProfile ℝ)}
    {score threshold : ℝ} (h : BestScore vector profiles score) (hlow : score = -1 ∨ score < threshold)
    (hthreshold : -1 ≤ threshold) (hbounds : ∀ p ∈ profiles, -1 ≤ dot p.centroid vector)
    {p : SpeakerProfile ℝ} (hp : p ∈ profiles) (hhigh : threshold ≤ dot p.centroid vector) :
    threshold = -1 ∧ ∀ q ∈ profiles, dot q.centroid vector = -1 := by
  have hscore : threshold ≤ score := hhigh.trans (h.upper p hp)
  have hlowest : score = -1 := hlow.resolve_right (not_lt.mpr hscore)
  constructor
  · exact le_antisymm (hlowest ▸ hscore) hthreshold
  · intro q hq
    exact le_antisymm (hlowest ▸ h.upper q hq) (hbounds q hq)

namespace SpeakerSession
variable {d : ℕ} {ids : List SpeakerId} {session : SpeakerSession ℝ} {vector : List ℝ}
  {threshold quality : ℝ} {speakerId : SpeakerId}

/-- The profiles are numbered below the next number and cover the ids given out so far. -/
structure Sound (d : ℕ) (ids : List SpeakerId) (session : SpeakerSession ℝ) : Prop where
  sized : session.Sized d
  below : ∀ speakerId ∈ session.profiles.keys,
    ∃ n < session.nextSpeakerNumber, speakerId = speakerName n
  given : ∀ speakerId ∈ ids, speakerId ∈ session.profiles.keys

theorem sound_fresh : (fresh : SpeakerSession ℝ).Sound 0 [] where
  sized := (kept_fresh 0).sized
  below speakerId hmem := by cases hmem
  given speakerId hmem := by cases hmem

theorem Sound.next_not_mem (h : session.Sound d ids) :
    speakerName session.nextSpeakerNumber ∉ session.profiles.keys := by
  intro hmem
  obtain ⟨n,hn,hname⟩ := h.below _ hmem
  exact hn.ne (speakerName_injective hname).symm

theorem Sound.next_free (h : session.Sound d ids) :
    session.profiles.get? (speakerName session.nextSpeakerNumber) = none := by
  by_contra hsome
  obtain ⟨p,hget⟩ := Option.ne_none_iff_exists'.mp hsome
  exact h.next_not_mem ((session.profiles.mem_keys_iff _).mpr ⟨p,hget⟩)

theorem Sound.opened (h : session.Sound d ids) (hvector : vector.length = d)
    (hround : Round vector) (quality : ℝ) :
    (addProfile vector quality session).Sound d (ids ++ [speakerName session.nextSpeakerNumber]) := by
  have hkeys : (addProfile vector quality session).profiles.keys =
      session.profiles.keys ++ [speakerName session.nextSpeakerNumber] :=
    Dict.keys_set_of_none h.next_free _
  constructor
  · exact h.sized.addProfile hvector hround
  · intro speakerId hmem
    rw [hkeys] at hmem
    rcases List.mem_append.mp hmem with hmem | hmem
    · obtain ⟨n,hn,hname⟩ := h.below speakerId hmem
      exact ⟨n,Nat.lt_succ_of_lt hn,hname⟩
    · exact ⟨_,Nat.lt_succ_self _,List.mem_singleton.mp hmem⟩
  · intro speakerId hmem
    rw [hkeys]
    rcases List.mem_append.mp hmem with hmem | hmem
    · exact List.mem_append_left _ (h.given speakerId hmem)
    · exact List.mem_append_right _ hmem

/-- A profile of the session may change under its id. -/
theorem Sound.set (h : session.Sound d ids) {p : SpeakerProfile ℝ}
    (hget : session.profiles.get? speakerId = some p) (q : SpeakerProfile ℝ)
    (hsized : Sized d { session with profiles := session.profiles.set speakerId q }) :
    Sound d ids { session with profiles := session.profiles.set speakerId q } := by
  have hkeys := Dict.keys_set_of_some hget q
  constructor
  · exact hsized
  · intro other hmem
    rw [hkeys] at hmem
    exact h.below other hmem
  · intro other hmem
    rw [hkeys]
    exact h.given other hmem

theorem Sound.answered_again (h : session.Sound d ids) (hmem : speakerId ∈ session.profiles.keys) :
    session.Sound d (ids ++ [speakerId]) := by
  refine ⟨h.sized,h.below,fun other hother => ?_⟩
  rcases List.mem_append.mp hother with hother | hother
  · exact h.given other hother
  · exact List.mem_singleton.mp hother ▸ hmem

theorem Sound.of_empty (h : session.Sound d ids) (hempty : session.profiles.values = []) (d' : ℕ) :
    session.Sound d' ids := ⟨sized_of_empty hempty d',h.below,h.given⟩

theorem Sized.mem_keys (h : session.Sized d) {p : SpeakerProfile ℝ}
    (hp : p ∈ session.profiles.values) : p.speakerId ∈ session.profiles.keys :=
  (session.profiles.mem_keys_iff _).mpr ⟨p,(h.mem_values hp).1⟩

/-- The ids after an answer. -/
def idsAfter (ids : List SpeakerId) : Except StoreError (SpeakerId × ℝ) → List SpeakerId
  | .ok (speakerId,_) => ids ++ [speakerId]
  | .error _ => ids

theorem Sound.answered (h : session.Sound d ids) (hvector : vector.length = d)
    (hround : Round vector) (threshold quality : ℝ) :
    (session.answer threshold vector quality).2.Sound d
      (idsAfter ids (session.answer threshold vector quality).1) := by
  have hanswered := h.sized.answered hvector threshold quality
  generalize session.answer threshold vector quality = result at hanswered
  cases hanswered with
  | opened score hscore hlow => exact h.opened hvector hround quality
  | matched best hbest hopposite hhigh =>
    have hget := (h.sized.mem_values hbest.mem).1
    have hset := h.set hget _ (h.sized.matched hvector hround hbest.mem hopposite quality)
    apply hset.answered_again
    rw [Dict.keys_set_of_some hget]
    exact h.sized.mem_keys hbest.mem

theorem Sound.answer (h : session.Sound d ids) (embedding : List ℝ) (threshold quality : ℝ) :
    ∃ d', (session.answer threshold (normalize embedding) quality).2.Sound d'
      (idsAfter ids (session.answer threshold (normalize embedding) quality).1) := by
  have hround := round_normalize embedding
  by_cases hlength : (normalize embedding).length = d
  · exact ⟨d,h.answered hlength hround threshold quality⟩
  · by_cases hempty : session.profiles.values = []
    · exact ⟨_,(h.of_empty hempty _).answered rfl hround threshold quality⟩
    · rw [h.sized.refuses hempty hlength]
      exact ⟨d,h⟩

theorem Sound.restored (h : session.Sound d ids) : session.payload.restore.Sound d ids := by
  have hkeys : (sortedItems session.profiles).keys.Perm session.profiles.keys :=
    (sortedItems_perm session.profiles).map Prod.fst
  rw [h.sized.restore_payload]
  constructor
  · intro speakerId p hget
    exact h.sized speakerId p ((get?_sortedItems session.profiles speakerId).symm.trans hget)
  · intro speakerId hmem
    exact h.below speakerId (hkeys.mem_iff.mp hmem)
  · intro speakerId hmem
    exact hkeys.mem_iff.mpr (h.given speakerId hmem)

/-- What an assignment decides: whom it returns, with which similarity. -/
structure Decided (threshold : ℝ) (vector : List ℝ) (ids : List SpeakerId)
    (session after : SpeakerSession ℝ) (speakerId : SpeakerId) (score : ℝ) : Prop where
  existing_iff : speakerId ∈ session.profiles.keys ↔ ∃ p ∈ session.profiles.values,
    ∃ similarity, cosineSimilarity p.centroid vector = some similarity ∧ threshold ≤ similarity
  matched : speakerId ∈ session.profiles.keys → ∃ best,
    FirstBest vector session.profiles.values best ∧ best.speakerId = speakerId ∧
      cosineSimilarity best.centroid vector = some score
  created : speakerId ∉ session.profiles.keys →
    speakerId ∉ ids ∧ speakerId ∈ after.profiles.keys

/-- Every profile is opposite to the vector, and the threshold asks for no more. -/
structure AllOpposite (threshold : ℝ) (vector : List ℝ) (session : SpeakerSession ℝ) : Prop where
  lowest : threshold = -1
  some_profile : session.profiles.values ≠ []
  opposite : ∀ p ∈ session.profiles.values, cosineSimilarity p.centroid vector = some (-1)

theorem Sound.decided_iff (h : session.Sound d ids) (hvector : vector.length = d)
    (hround : Round vector) (hthreshold : -1 ≤ threshold) (quality : ℝ) :
    ∃ speakerId score after,
      session.answer threshold vector quality = (.ok (speakerId,score),after) ∧
      (Decided threshold vector ids session after speakerId score ↔
        ¬AllOpposite threshold vector session) := by
  have hsimilar : ∀ p ∈ session.profiles.values,
      cosineSimilarity p.centroid vector = some (dot p.centroid vector) := fun p hp =>
    cosineSimilarity_eq ((h.sized.mem_values hp).2.length.trans hvector.symm)
  have hanswered := h.sized.answered hvector threshold quality
  generalize session.answer threshold vector quality = result at hanswered
  cases hanswered with
  | opened score hscore hlow =>
    refine ⟨_,score,_,rfl,fun hdecided hopposite => ?_,fun hnot => ?_⟩
    · obtain ⟨p,hp⟩ := List.exists_mem_of_ne_nil _ hopposite.some_profile
      refine h.next_not_mem (hdecided.existing_iff.mpr ⟨p,hp,-1,hopposite.opposite p hp,?_⟩)
      exact hopposite.lowest.le
    · refine ⟨iff_of_false h.next_not_mem ?_,fun hmem => absurd hmem h.next_not_mem,fun _ => ?_⟩
      · rintro ⟨p,hp,similarity,hsimilarity,hhigh⟩
        obtain rfl := Option.some.inj ((hsimilar p hp).symm.trans hsimilarity)
        have hbounds : ∀ q ∈ session.profiles.values, -1 ≤ dot q.centroid vector := fun q hq =>
          ((h.sized.mem_values hq).2.round.dot_bounds hround
            ((h.sized.mem_values hq).2.length.trans hvector.symm)).1
        obtain ⟨hlowest,hall⟩ := hscore.opposite hlow hthreshold hbounds hp hhigh
        refine hnot ⟨hlowest,List.ne_nil_of_mem hp,fun q hq => ?_⟩
        rw [hsimilar q hq,hall q hq]
      · refine ⟨fun hmem => h.next_not_mem (h.given _ hmem),?_⟩
        exact (Dict.mem_keys_iff _ _).mpr ⟨_,Dict.get?_set_self _ _ _⟩
  | matched best hbest hopposite hhigh =>
    have hmem := h.sized.mem_keys hbest.mem
    refine ⟨_,_,_,rfl,fun hdecided hall => ?_,fun hnot => ?_⟩
    · have hdot := Option.some.inj ((hsimilar best hbest.mem).symm.trans (hall.opposite best hbest.mem))
      exact hopposite.ne hdot.symm
    · refine ⟨iff_of_true hmem ?_,fun _ => ⟨best,hbest,rfl,hsimilar best hbest.mem⟩,?_⟩
      · exact ⟨best,hbest.mem,_,hsimilar best hbest.mem,hhigh⟩
      · exact fun hnone => absurd hmem hnone

end SpeakerSession

namespace SpeakerSessionStore
open SpeakerSession

/-- The stores that calls reach, with the ids that each session has given out so far. A
restored session has given out those of the exported one. -/
inductive Reached : SpeakerSessionStore ℝ → (SessionId → List SpeakerId) → Prop
  | start (threshold : ℝ) (h : FloatOps.between (-1) 1 threshold = true) :
      Reached (init threshold h) (fun _ => [])
  | assigned {store : SpeakerSessionStore ℝ} {ids : SessionId → List SpeakerId}
      (h : Reached store ids) (s : SessionId) (embedding : List ℝ) (quality : ℝ) :
      Reached (after (assign s embedding quality) store)
        (Function.update ids s (idsAfter (ids s) (outcome (assign s embedding quality) store)))
  | renamed {store : SpeakerSessionStore ℝ} {ids : SessionId → List SpeakerId}
      (h : Reached store ids) (s : SessionId) (speakerId : SpeakerId) (displayName : PyStr) :
      Reached (after (rename s speakerId displayName) store) ids
  | restored {store source : SpeakerSessionStore ℝ} {ids ids' : SessionId → List SpeakerId}
      (h : Reached store ids) (h' : Reached source ids') (s t : SessionId) :
      Reached (store.restoreSession s (source.exportSession t)) (Function.update ids s (ids' t))

variable {store next : SpeakerSessionStore ℝ} {ids : SessionId → List SpeakerId} {s : SessionId}

/-- Every session is sound, with a dimension of its own. -/
def Sound (store : SpeakerSessionStore ℝ) (ids : SessionId → List SpeakerId) : Prop :=
  ∀ s, ∃ d, (store.session s).Sound d (ids s)

theorem Installed.sound {after : SpeakerSession ℝ} {given : List SpeakerId}
    (h : Installed store next s after) (hsound : Sound store ids)
    (hafter : ∃ d, after.Sound d given) : Sound next (Function.update ids s given) := by
  intro t
  by_cases ht : t = s
  · subst ht
    rw [h.session_self,Function.update_self]
    exact hafter
  · rw [h.session_ne ht,Function.update_of_ne ht]
    exact hsound t

theorem Reached.sound (h : Reached store ids) : Sound store ids := by
  induction h with
  | start threshold h => exact fun _ => ⟨0,sound_fresh⟩
  | @assigned store ids h s embedding quality ih =>
    cases hquality : FloatOps.between 0 1 quality with
    | false =>
      have hrun := assign_refused s embedding hquality store
      rw [after_error hrun,outcome_error hrun]
      intro t
      have hsame : Function.update ids s (idsAfter (ids s) (.error StoreError.quality)) = ids :=
        Function.update_eq_self s ids
      rw [hsame]
      exact ih t
    | true =>
      obtain ⟨houtcome,hinst⟩ := assign_answers s embedding hquality store
      obtain ⟨d,hsound⟩ := ih s
      rw [houtcome]
      exact hinst.sound ih (hsound.answer embedding store.assignmentThreshold quality)
  | @renamed store ids h s speakerId displayName ih =>
    rcases rename_cases s speakerId displayName store with hsame | ⟨session,p,hsession,hget,hinst⟩
    · rw [hsame]
      exact ih
    · obtain ⟨d,hsound⟩ := ih s
      rw [SpeakerSessionStore.session,hsession,Option.getD_some] at hsound
      have hset := hinst.sound ih ⟨d,hsound.set hget _ (hsound.sized.renamed hget displayName)⟩
      rw [Function.update_eq_self] at hset
      exact hset
  | @restored store ids source ids' h h' s t ih ih' =>
    obtain ⟨d,hsound⟩ := ih' t
    exact (installed_put store s _).sound ih ⟨d,hsound.restored⟩

/-- An embedding of the session's dimension: any one while there are no profiles. -/
def Fits (embedding : List ℝ) (session : SpeakerSession ℝ) : Prop :=
  ∀ p ∈ session.profiles.values, p.centroid.length = embedding.length

theorem Sound.fits {embedding : List ℝ} (h : Sound store ids)
    (hfits : Fits embedding (store.session s)) :
    (store.session s).Sound embedding.length (ids s) := by
  obtain ⟨d,hsound⟩ := h s
  by_cases hempty : (store.session s).profiles.values = []
  · exact hsound.of_empty hempty _
  · obtain ⟨p,hp⟩ := List.exists_mem_of_ne_nil _ hempty
    have hd : d = embedding.length :=
      (hsound.sized.mem_values hp).2.length.symm.trans (hfits p hp)
    exact hd ▸ hsound

theorem lowest_admitted : FloatOps.between (-1) 1 (-1 : ℝ) = true := by
  rw [exact_between]
  norm_num

/-- The first voice of a session at the threshold -1. -/
theorem first_voice : ∃ store,
    assign (lit "s") [1,0] 1 (init (-1 : ℝ) lowest_admitted) = .ok (lit "spk_001",-1) store ∧
      store.assignmentThreshold = -1 ∧
      Reached store (Function.update (fun _ => []) (lit "s") [lit "spk_001"]) ∧
      (store.session (lit "s")).nextSpeakerNumber = 2 ∧
      (store.session (lit "s")).profiles.values =
        [⟨lit "spk_001",[1,0],FloatOps.max (FloatOps.ofRat (1 / 10)) 1,none⟩] := by
  have hround : normalize ([1,0] : List ℝ) = [1,0] := normalize_round (.inl (by simp))
  have hquality : FloatOps.between 0 1 (1 : ℝ) = true := by
    rw [exact_between]
    norm_num
  have hfresh : fresh.answer (-1 : ℝ) [1,0] 1 =
      (.ok (speakerName 1,FloatOps.ofRat (-1)),addProfile [1,0] 1 fresh) := rfl
  have hanswer : fresh.answer (-1 : ℝ) (normalize [1,0]) 1 =
      (.ok (lit "spk_001",-1),addProfile [1,0] 1 fresh) := by
    have hstart : FloatOps.ofRat (-1) = (-1 : ℝ) := by simp
    rw [hround,hfresh,hstart]
    rfl
  let start := init (-1 : ℝ) lowest_admitted
  obtain ⟨store,hrun,hinst⟩ := assign_ok hquality (show (start.session (lit "s")).answer
    start.assignmentThreshold (normalize [1,0]) 1 = _ from hanswer)
  have hreached := (Reached.start (-1) lowest_admitted).assigned (lit "s") [1,0] 1
  rw [after_ok hrun,outcome_ok hrun] at hreached
  have hsession : store.session (lit "s") = addProfile [1,0] 1 fresh := hinst.session_self
  refine ⟨store,hrun,hinst.assignmentThreshold,hreached,?_,?_⟩ <;> rw [hsession] <;> rfl

/-- A session decides as it should, unless a profile at the threshold -1 is opposite. -/
theorem assign_decides_iff {store : SpeakerSessionStore ℝ} {ids : SessionId → List SpeakerId}
    (h : Reached store ids) (s : SessionId) {embedding : List ℝ} {quality : ℝ}
    (hfits : Fits embedding (store.session s)) (hlower : 0 ≤ quality) (hupper : quality ≤ 1) :
    ∃ speakerId score next, assign s embedding quality store = .ok (speakerId,score) next ∧
      (Decided store.assignmentThreshold (normalize embedding) (ids s) (store.session s)
        (next.session s) speakerId score ↔
      ¬AllOpposite store.assignmentThreshold (normalize embedding) (store.session s)) := by
  have hquality : FloatOps.between 0 1 quality = true := by
    rw [exact_between]
    exact ⟨by simpa using hlower,by simpa using hupper⟩
  have hthreshold : -1 ≤ store.assignmentThreshold := by
    have hok := ((exact_between _ _ _).mp store.threshold_ok).1
    simpa using hok
  obtain ⟨speakerId,score,after,hanswer,hiff⟩ := (h.sound.fits hfits).decided_iff
    (length_normalize embedding) (round_normalize embedding) hthreshold quality
  obtain ⟨next,hrun,hinst⟩ := assign_ok hquality hanswer
  refine ⟨speakerId,score,next,hrun,?_⟩
  rw [hinst.session_self]
  exact hiff

/-- At the threshold -1 a second voice matches the first one. -/
theorem assign_decides_iff_across :
    ∃ h store, assign (lit "s") [1,0] 1 (init (-1 : ℝ) h) = .ok (lit "spk_001",-1) store ∧
      ∃ speakerId score next, assign (lit "s") [0,1] 1 store = .ok (speakerId,score) next ∧
        Decided (-1) (normalize [0,1]) [lit "spk_001"] (store.session (lit "s"))
          (next.session (lit "s")) speakerId score := by
  obtain ⟨store,hfirst,hthreshold,hreached,-,hvalues⟩ := first_voice
  have hround : normalize ([0,1] : List ℝ) = [0,1] := normalize_round (.inl (by simp))
  obtain ⟨speakerId,score,next,hrun,hiff⟩ := assign_decides_iff hreached (lit "s")
    (show Fits [0,1] (store.session (lit "s")) by simp [Fits,hvalues]) zero_le_one le_rfl
  rw [hthreshold] at hiff
  refine ⟨_,store,hfirst,speakerId,score,next,hrun,hiff.mpr fun hall => ?_⟩
  have hopposite := hall.opposite _ (hvalues ▸ List.mem_singleton_self _)
  rw [cosineSimilarity_eq (by rw [length_normalize]; rfl),hround] at hopposite
  norm_num at hopposite

/-- At the threshold -1 the opposite voice has the similarity -1 with the first one, and yet
it becomes a second speaker. -/
theorem opposite_voice_not_matched :
    ∃ h store, assign (lit "s") [1,0] 1 (init (-1 : ℝ) h) = .ok (lit "spk_001",-1) store ∧
      ∃ next, assign (lit "s") [-1,0] 1 store = .ok (lit "spk_002",-1) next ∧
        (∃ p ∈ (store.session (lit "s")).profiles.values,
          cosineSimilarity p.centroid (normalize [-1,0]) = some (-1)) ∧
        ¬Decided (-1) (normalize [-1,0]) [lit "spk_001"] (store.session (lit "s"))
          (next.session (lit "s")) (lit "spk_002") (-1) := by
  obtain ⟨store,hfirst,-,hreached,hnumber,hvalues⟩ := first_voice
  have hround : normalize ([-1,0] : List ℝ) = [-1,0] := normalize_round (.inl (by simp))
  have hquality : FloatOps.between 0 1 (1 : ℝ) = true := by
    rw [exact_between]
    norm_num
  have hopposite : cosineSimilarity ([1,0] : List ℝ) [-1,0] = some (-1) := by
    rw [cosineSimilarity_eq (by simp)]
    norm_num
  have hall : AllOpposite (-1) (normalize [-1,0]) (store.session (lit "s")) := by
    refine ⟨rfl,by simp [hvalues],fun p hp => ?_⟩
    rw [hvalues,List.mem_singleton] at hp
    rw [hp,hround,hopposite]
  have hanswer : ∀ threshold, (store.session (lit "s")).answer threshold (normalize [-1,0]) 1 =
      (.ok (lit "spk_002",-1),addProfile [-1,0] 1 (store.session (lit "s"))) := by
    intro threshold
    have hstart : FloatOps.ofRat (-1) = (-1 : ℝ) := by simp
    have hbest : bestMatch [-1,0] (store.session (lit "s")).profiles.values
        (none,(-1 : ℝ)) = some (none,-1) := by
      simp [hvalues,bestMatch,hopposite]
    have hname : speakerName (store.session (lit "s")).nextSpeakerNumber = lit "spk_002" := by
      rw [hnumber]
      rfl
    rw [hround]
    simp only [answer,hstart,hbest,hname]
  obtain ⟨next,hrun,hinst⟩ := assign_ok hquality (hanswer store.assignmentThreshold)
  have hsound := hreached.sound.fits (show Fits [-1,0] (store.session (lit "s")) by
    simp [Fits,hvalues])
  obtain ⟨speakerId,score,after,hdecision,hiff⟩ :=
    hsound.decided_iff (length_normalize _) (round_normalize _) (le_refl (-1)) 1
  rw [hanswer,Prod.mk.injEq,Except.ok.injEq,Prod.mk.injEq] at hdecision
  obtain ⟨⟨rfl,rfl⟩,rfl⟩ := hdecision
  refine ⟨_,store,hfirst,next,hrun,⟨_,hvalues ▸ List.mem_singleton_self _,?_⟩,fun hdecided => ?_⟩
  · rw [hround,hopposite]
  · rw [hinst.session_self] at hdecided
    rw [Function.update_self] at hiff
    exact hiff.mp hdecided hall

end SpeakerSessionStore
end CueBee.Speaker
