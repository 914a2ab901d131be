import CueBee.Speaker.ProfileOrder

/-! # Sessions that are exported and restored

A restored session holds the same profiles as the exported one, in the order of their ids.
That is the order of their creation up to number 999, but `spk_1000` comes before `spk_101`.
-/
namespace CueBee.Speaker
open Cache Raising PyStr VectorGeometry SpeakerSessionStore

namespace SpeakerSession
variable {d : ℕ} {session : SpeakerSession ℝ} {vector : List ℝ} {quality threshold : ℝ}

/-- A session without profiles is of every dimension. -/
theorem sized_of_empty (hempty : session.profiles.values = []) (d : ℕ) : session.Sized d := by
  intro speakerId p hget
  have hmem := (session.profiles.mem_values_iff p).mpr ⟨speakerId,hget⟩
  rw [hempty] at hmem
  cases hmem

theorem Kept.of_empty (h : session.Kept d) (hempty : session.profiles.values = []) (d' : ℕ) :
    session.Kept d' := ⟨h.positive,h.numbered,sized_of_empty hempty d'⟩

/-- A vector of another dimension than that of the profiles is refused. -/
theorem Sized.refuses (h : session.Sized d) (hsome : session.profiles.values ≠ [])
    (hvector : vector.length ≠ d) (threshold quality : ℝ) :
    session.answer threshold vector quality = (.error .dimensions,session) := by
  have hnone : bestMatch vector session.profiles.values (none,FloatOps.ofRat (-1)) = none := by
    cases hvalues : session.profiles.values with
    | nil => exact absurd hvalues hsome
    | cons p rest =>
      have hp := (h.mem_values (hvalues ▸ List.mem_cons_self)).2.length
      have hlength : p.centroid.length ≠ vector.length := fun heq => hvector (heq.symm.trans hp)
      simp only [bestMatch,cosineSimilarity,if_pos hlength]
  simp only [answer,hnone]

theorem Kept.answer_kept (h : session.Kept d) (embedding : List ℝ) (threshold quality : ℝ) :
    ∃ d', (session.answer threshold (normalize embedding) quality).2.Kept d' := by
  have hround := round_normalize embedding
  by_cases hlength : (normalize embedding).length = d
  · obtain ⟨speakerId,score,after,hanswer,-,-,hone⟩ := h.answer hlength hround threshold quality
    exact ⟨d,by rw [hanswer]; exact hone.kept⟩
  · by_cases hempty : session.profiles.values = []
    · obtain ⟨speakerId,score,after,hanswer,-,-,hone⟩ :=
        (h.of_empty hempty _).answer rfl hround threshold quality
      exact ⟨_,by rw [hanswer]; exact hone.kept⟩
    · exact ⟨d,by rw [h.sized.refuses hempty hlength]; exact h⟩

/-- Normalizing again changes nothing, so that only the order is new. -/
theorem Sized.restore_payload (h : session.Sized d) : session.payload.restore =
    ⟨sortedItems session.profiles,session.nextSpeakerNumber⟩ := by
  have hprofiles : session.payload.restore.profiles = sortedItems session.profiles := by
    apply Dict.ext_entries
    show ((sortedItems session.profiles).entries.map _).map _ = _
    rw [List.map_map]
    refine (List.map_congr_left (fun e he => ?_)).trans (List.map_id _)
    obtain ⟨speakerId,p⟩ := e
    have hget := (session.profiles.mem_entries_iff speakerId p).mp
      ((sortedItems_perm _).mem_iff.mp he)
    have hp := h speakerId p hget
    obtain rfl := hp.speakerId
    show (p.speakerId,(⟨p.speakerId,normalize p.centroid,p.effectiveSamples,p.displayName⟩ :
      SpeakerProfile ℝ)) = (p.speakerId,p)
    rw [normalize_round hp.round]
  rw [← hprofiles]
  rfl

theorem Kept.reordered (h : session.Kept d) :
    Reordered session.profiles.keys session session.payload.restore := by
  rw [h.sized.restore_payload]
  constructor
  · rfl
  · exact get?_sortedItems session.profiles
  · refine ⟨(sortedItems session.profiles).keys,[],?_,sortedItems_keys _,?_,?_⟩
    · exact (sortedItems_perm session.profiles).map Prod.fst
    · rw [List.append_nil]
    · rw [List.append_nil]

/-- Numbers of three digits keep their order as texts. -/
theorem speakerName_lt {m n : ℕ} (h : m < n) (hn : n < 1000) : speakerName m < speakerName n := by
  apply List.append_left_lt
  have hlength : ∀ k < 1000, (zfill 3 (decimal k)).length = 3 :=
    fun k hk => length_zfill_decimal (by omega) hk
  rcases lt_trichotomy (zfill 3 (decimal m)) (zfill 3 (decimal n)) with hlt | heq | hgt
  · exact hlt
  · have hsame := congrArg number heq
    rw [number_zfill_decimal,number_zfill_decimal] at hsame
    omega
  · have hless := number_lt_number ((hlength n hn).trans (hlength m (by omega)).symm)
      (digits_zfill_decimal 3 n) (digits_zfill_decimal 3 m) hgt
    rw [number_zfill_decimal,number_zfill_decimal] at hless
    omega

/-- Up to number 999 the profiles are created in the order of their ids. -/
theorem Kept.keys_sorted (h : session.Kept d) (hfew : session.nextSpeakerNumber ≤ 1000) :
    session.profiles.keys.Pairwise (· ≤ ·) := by
  rw [h.numbered]
  refine List.pairwise_map.mpr (List.Pairwise.imp_of_mem ?_ (List.pairwise_lt_range' 1))
  intro m n _ hn hlt
  rw [List.mem_range'_1] at hn
  apply le_of_lt
  apply speakerName_lt hlt
  omega

end SpeakerSession

namespace SpeakerSessionStore
variable {d : ℕ} {store next : SpeakerSessionStore ℝ} {s : SessionId}

/-- Every session has a dimension of its own. -/
def Shaped (store : SpeakerSessionStore ℝ) : Prop := ∀ s, ∃ d, (store.session s).Kept d

theorem shaped_init (threshold : ℝ) (h : FloatOps.between (-1) 1 threshold = true) :
    Shaped (init threshold h) := fun _ => ⟨0,SpeakerSession.kept_fresh 0⟩

theorem Installed.shaped {after : SpeakerSession ℝ} (h : Installed store next s after)
    (hshaped : Shaped store) (hafter : ∃ d, after.Kept d) : Shaped next := by
  intro t
  by_cases ht : t = s
  · rw [ht,h.session_self]
    exact hafter
  · rw [h.session_ne ht]
    exact hshaped t

theorem Shaped.step (h : Shaped store) (call : Call ℝ) : Shaped (store.step call) := by
  cases call with
  | assign s embedding quality =>
    cases hquality : FloatOps.between 0 1 quality with
    | false =>
      rw [SpeakerSessionStore.step,after_error (assign_refused s embedding hquality store)]
      exact h
    | true =>
      obtain ⟨d,hkept⟩ := h s
      exact (assign_answers s embedding hquality store).installed.shaped h
        (hkept.answer_kept embedding store.assignmentThreshold quality)
  | rename s speakerId displayName =>
    rcases rename_cases s speakerId displayName store with hsame | ⟨session,p,hsession,hget,hinst⟩
    · rw [SpeakerSessionStore.step,hsame]
      exact h
    · obtain ⟨d,hkept⟩ := h s
      rw [SpeakerSessionStore.session,hsession,Option.getD_some] at hkept
      exact hinst.shaped h ⟨d,hkept.renamed hget displayName⟩

theorem Shaped.run (h : Shaped store) (calls : List (Call ℝ)) : Shaped (run calls store) := by
  induction calls generalizing store with
  | nil => exact h
  | cons call calls ih => exact ih (h.step call)

/-- What the session answers to an embedding with its quality. -/
def hear {K : Type} [SampleOps K] (s : SessionId) (sample : List K × K) :
    EStateM StoreError (SpeakerSessionStore K) (SpeakerId × K) := assign s sample.1 sample.2

/-- A sample that matches a profile under `ids` matches the one with the least id of those that
are as good. -/
def MatchesLeast (s : SessionId) (ids : List SpeakerId) (sample : List ℝ × ℝ)
    (store : SpeakerSessionStore ℝ) : Prop :=
  FloatOps.between 0 1 sample.2 = true →
  (∀ p ∈ (store.session s).profiles.values, p.centroid.length = sample.1.length) →
  SpeakerSession.LeastFirst ids store.assignmentThreshold (normalize sample.1) (store.session s)

/-- The session in the two stores, the exported one and the restored one. -/
structure Parallel (s : SessionId) (ids : List SpeakerId) (store restored : SpeakerSessionStore ℝ) :
    Prop where
  threshold : restored.assignmentThreshold = store.assignmentThreshold
  kept : ∃ d, (store.session s).Kept d
  reordered : SpeakerSession.Reordered ids (store.session s) (restored.session s)

section Parallel
variable {ids : List SpeakerId} {restored : SpeakerSessionStore ℝ}

theorem Parallel.of_answers (h : Parallel s ids store restored) {sample : List ℝ × ℝ}
    {result result' : Except StoreError (SpeakerId × ℝ) × SpeakerSession ℝ}
    (hanswers : Answers s store (hear s sample) store result)
    (hanswers' : Answers s restored (hear s sample) restored result')
    (hsame : result.1 = result'.1) (hkept : ∃ d, result.2.Kept d)
    (hreordered : SpeakerSession.Reordered ids result.2 result'.2) :
    Lockstep (Parallel s ids) (hear s sample) store (hear s sample) restored := by
  obtain ⟨houtcome,hinst⟩ := hanswers
  obtain ⟨houtcome',hinst'⟩ := hanswers'
  refine ⟨houtcome.trans (hsame.trans houtcome'.symm),?_,?_,?_⟩
  · exact hinst'.assignmentThreshold.trans (h.threshold.trans hinst.assignmentThreshold.symm)
  · rw [hinst.session_self]
    exact hkept
  · rw [hinst.session_self,hinst'.session_self]
    exact hreordered

/-- The profiles have the dimension of the sample, unless there is a profile of another one. -/
theorem Parallel.fits (h : Parallel s ids store restored) (embedding : List ℝ) :
    (store.session s).Kept embedding.length ∨
    ∃ d ≠ embedding.length, (store.session s).Kept d ∧ (store.session s).profiles.values ≠ [] := by
  obtain ⟨d,hkept⟩ := h.kept
  by_cases hempty : (store.session s).profiles.values = []
  · exact .inl (hkept.of_empty hempty _)
  · by_cases hlength : d = embedding.length
    · exact .inl (hlength ▸ hkept)
    · exact .inr ⟨d,hlength,hkept,hempty⟩

/-- One sample: the stores answer alike, and stay alike, exactly if the match is the least. -/
theorem Parallel.step (h : Parallel s ids store restored) (sample : List ℝ × ℝ) :
    (MatchesLeast s ids sample store →
      Lockstep (Parallel s ids) (hear s sample) store (hear s sample) restored) ∧
    (¬MatchesLeast s ids sample store →
      outcome (hear s sample) store ≠ outcome (hear s sample) restored) := by
  obtain ⟨embedding,quality⟩ := sample
  cases hquality : FloatOps.between 0 1 quality with
  | false =>
    constructor
    · intro _
      exact .of_error (assign_refused s embedding hquality store)
        (assign_refused s embedding hquality restored) h
    · intro hleast
      refine absurd (fun hvalid => ?_) hleast
      rw [hquality] at hvalid
      cases hvalid
  | true =>
    have hanswers := assign_answers s embedding hquality store
    have hanswers' := assign_answers s embedding hquality restored
    rw [h.threshold] at hanswers'
    rcases h.fits embedding with hkept | ⟨d,hlength,hkept,hsome⟩
    · have hnormal := length_normalize embedding
      have hleast : MatchesLeast s ids (embedding,quality) store ↔ SpeakerSession.LeastFirst ids
          store.assignmentThreshold (normalize embedding) (store.session s) :=
        ⟨fun hleast => hleast hquality (fun p hp => (hkept.sized.mem_values hp).2.length),
          fun hleast _ _ => hleast⟩
      obtain ⟨hsame,hreordered⟩ := h.reordered.answer hkept.sized hkept.next_free hnormal
        store.assignmentThreshold quality
      rw [hleast]
      constructor
      · intro hfirst
        exact h.of_answers hanswers hanswers' (hsame.mpr hfirst)
          (hkept.answer_kept embedding _ quality) (hreordered hfirst)
      · intro hfirst heq
        exact hfirst (hsame.mp (hanswers.outcome.symm.trans (heq.trans hanswers'.outcome)))
    · have hnormal : (normalize embedding).length ≠ d := by
        rw [length_normalize]
        exact hlength.symm
      have hsome' : (restored.session s).profiles.values ≠ [] := by
        obtain ⟨p,hp⟩ := List.exists_mem_of_ne_nil _ hsome
        exact List.ne_nil_of_mem ((h.reordered.mem p).mp hp)
      have hsized' := h.reordered.sized hkept.sized
      rw [hkept.sized.refuses hsome hnormal] at hanswers
      rw [hsized'.refuses hsome' hnormal] at hanswers'
      constructor
      · intro _
        exact h.of_answers hanswers hanswers' rfl ⟨d,hkept⟩ h.reordered
      · intro hleast
        refine absurd (fun _ hall => ?_) hleast
        obtain ⟨p,hp⟩ := List.exists_mem_of_ne_nil _ hsome
        exact absurd ((hkept.sized.mem_values hp).2.length.symm.trans (hall p hp)) hlength

theorem Parallel.replies_iff (h : Parallel s ids store restored) (later : List (List ℝ × ℝ)) :
    replies (hear s) later store = replies (hear s) later restored ↔
      RunMeets (hear s) (MatchesLeast s ids) later store :=
  replies_eq_iff (fun sample _ _ h => (h.step sample).1) (fun sample _ _ h => (h.step sample).2)
    later h

end Parallel

/-- The fresh store that the session is restored into. -/
noncomputable def restored (threshold : ℝ) (h : FloatOps.between (-1) 1 threshold = true) (s : SessionId)
    (store : SpeakerSessionStore ℝ) : SpeakerSessionStore ℝ :=
  restoreSession s (exportSession s store) (init threshold h)

theorem assignmentThreshold_step (store : SpeakerSessionStore ℝ) (call : Call ℝ) :
    (store.step call).assignmentThreshold = store.assignmentThreshold := by
  cases call with
  | assign s embedding quality =>
    cases hquality : FloatOps.between 0 1 quality with
    | false =>
      rw [SpeakerSessionStore.step,after_error (assign_refused s embedding hquality store)]
    | true => exact (assign_answers s embedding hquality store).installed.assignmentThreshold
  | rename s speakerId displayName =>
    rcases rename_cases s speakerId displayName store with hsame | ⟨session,p,-,-,hinst⟩
    · rw [SpeakerSessionStore.step,hsame]
    · exact hinst.assignmentThreshold

theorem assignmentThreshold_run (calls : List (Call ℝ)) (store : SpeakerSessionStore ℝ) :
    (run calls store).assignmentThreshold = store.assignmentThreshold := by
  induction calls generalizing store with
  | nil => rfl
  | cons call calls ih => exact (ih _).trans (assignmentThreshold_step store call)

theorem parallel_restored (threshold : ℝ) (h : FloatOps.between (-1) 1 threshold = true)
    (before : List (Call ℝ)) (s : SessionId) :
    let store := run before (init threshold h)
    Parallel s (store.session s).profiles.keys store (restored threshold h s store) := by
  intro store
  obtain ⟨d,hkept⟩ := (shaped_init threshold h).run before s
  have hsession : (restored threshold h s store).session s = (store.session s).payload.restore :=
    (installed_put _ s _).session_self
  constructor
  · exact (assignmentThreshold_run before (init threshold h)).symm
  · exact ⟨d,hkept⟩
  · rw [hsession]
    exact hkept.reordered

/-- A session with fewer than a thousand speakers meets the condition in every later run: it is
its own reordering. -/
theorem meets_of_few {s : SessionId} {store : SpeakerSessionStore ℝ} (h : ∃ d, (store.session s).Kept d)
    (hfew : (store.session s).nextSpeakerNumber ≤ 1000) (later : List (List ℝ × ℝ)) :
    RunMeets (hear s) (MatchesLeast s (store.session s).profiles.keys) later store := by
  obtain ⟨d,hkept⟩ := h
  have hself : Parallel s (store.session s).profiles.keys store store := by
    refine ⟨rfl,⟨d,hkept⟩,rfl,fun _ => rfl,_,[],List.Perm.refl _,hkept.keys_sorted hfew,?_,?_⟩
    · rw [List.append_nil]
    · rw [List.append_nil]
  exact (hself.replies_iff later).mp rfl

/-- After any calls, a session that is exported and restored into a fresh store answers the
samples of every later sequence as the original does, exactly if each of them matches the
profile with the least id among the exported ones that are as good. -/
theorem replies_restored_iff (threshold : ℝ) (h : FloatOps.between (-1) 1 threshold = true)
    (before : List (Call ℝ)) (s : SessionId) (later : List (List ℝ × ℝ)) :
    let store := run before (init threshold h)
    replies (hear s) later store = replies (hear s) later (restored threshold h s store) ↔
      RunMeets (hear s) (MatchesLeast s (store.session s).profiles.keys) later store :=
  (parallel_restored threshold h before s).replies_iff later

/-- The export of a session with fewer than a thousand speakers restores it. -/
theorem replies_restored_of_few (threshold : ℝ) (h : FloatOps.between (-1) 1 threshold = true)
    (before : List (Call ℝ)) (s : SessionId) (later : List (List ℝ × ℝ))
    (hfew : ((run before (init threshold h)).session s).nextSpeakerNumber ≤ 1000) :
    let store := run before (init threshold h)
    replies (hear s) later store = replies (hear s) later (restored threshold h s store) :=
  ((parallel_restored threshold h before s).replies_iff later).mpr
    (meets_of_few ((shaped_init threshold h).run before s) hfew later)

/-- An assignment that opened a profile behind the others. -/
structure Opened (s : SessionId) (vector : List ℝ) (store next : SpeakerSessionStore ℝ) : Prop where
  threshold : next.assignmentThreshold = store.assignmentThreshold
  kept : (next.session s).Kept vector.length
  number : (next.session s).nextSpeakerNumber = (store.session s).nextSpeakerNumber + 1
  values : ∃ p : SpeakerProfile ℝ, p.centroid = vector ∧
    p.speakerId = speakerName (store.session s).nextSpeakerNumber ∧
    (next.session s).profiles.values = (store.session s).profiles.values ++ [p]

/-- A vector that is close to no profile opens one. -/
theorem opened_of_far {embedding : List ℝ} {quality : ℝ}
    (hkept : (store.session s).Kept embedding.length) (hquality : 0 ≤ quality ∧ quality ≤ 1)
    (hround : Round embedding) (hfar : ∀ p ∈ (store.session s).profiles.values,
      dot p.centroid embedding < store.assignmentThreshold) :
    Opened s embedding store (store.step (.assign s embedding quality)) := by
  have hvalid : FloatOps.between 0 1 quality = true := by
    rw [exact_between]
    simpa using hquality
  obtain ⟨-,hinst⟩ := assign_answers s embedding hvalid store
  have hanswered := hkept.sized.answered rfl store.assignmentThreshold quality
  rw [normalize_round hround] at hinst
  generalize (store.session s).answer store.assignmentThreshold embedding quality = result
    at hinst hanswered
  cases hanswered with
  | opened score hscore hlow =>
    have hsession : (store.step (.assign s embedding quality)).session s = _ := hinst.session_self
    constructor
    · exact hinst.assignmentThreshold
    · rw [hsession]
      exact hkept.addProfile rfl hround
    · rw [hsession]
      rfl
    · rw [hsession]
      refine ⟨⟨speakerName (store.session s).nextSpeakerNumber,embedding,
        FloatOps.max (FloatOps.ofRat (1 / 10)) quality,none⟩,rfl,rfl,?_⟩
      show (Dict.set _ _ _).entries.map Prod.snd = _
      rw [Dict.set_entries_of_none hkept.next_free,List.map_append]
      rfl
  | matched best hbest hopposite hhigh =>
    exact absurd (hfar best hbest.mem) (not_lt.mpr hhigh)

/-- A speaker without a voice. -/
def silence (s : SessionId) : Call ℝ := .assign s [0,0] 0

/-- Silence is close to nobody: each of `n` silent samples opens a profile. -/
theorem silences_run (hkept : (store.session s).Kept 2) (hthreshold : 0 < store.assignmentThreshold)
    (n : ℕ) :
    (run (List.replicate n (silence s)) store).assignmentThreshold = store.assignmentThreshold ∧
    ((run (List.replicate n (silence s)) store).session s).Kept 2 ∧
    ((run (List.replicate n (silence s)) store).session s).nextSpeakerNumber =
      (store.session s).nextSpeakerNumber + n ∧
    ∃ silent, ((run (List.replicate n (silence s)) store).session s).profiles.values =
        (store.session s).profiles.values ++ silent ∧
      ∀ p ∈ silent, ∀ vector, dot p.centroid vector = 0 := by
  induction n generalizing store with
  | zero => exact ⟨rfl,hkept,rfl,[],(List.append_nil _).symm,by simp⟩
  | succ n ih =>
    have hsilent : ∀ vector : List ℝ, dot [0,0] vector = 0 := fun vector =>
      dot_eq_zero_of_left (by simp) vector
    have hopened : Opened s [0,0] store (store.step (silence s)) := by
      apply opened_of_far (show (store.session s).Kept ([0,0] : List ℝ).length from hkept)
        ⟨le_rfl,zero_le_one⟩ (.inr (hsilent _))
      intro p hp
      rw [dot_comm,hsilent]
      exact hthreshold
    obtain ⟨p,hcentroid,-,hvalues⟩ := hopened.values
    obtain ⟨hsame,hlast,hnumber,silent,hmore,hzero⟩ :=
      ih hopened.kept (hopened.threshold ▸ hthreshold)
    refine ⟨hsame.trans hopened.threshold,hlast,?_,p :: silent,?_,?_⟩
    · rw [List.replicate_succ]
      show ((run (List.replicate n (silence s)) (store.step (silence s))).session s).nextSpeakerNumber = _
      rw [hnumber,hopened.number]
      omega
    · rw [List.replicate_succ]
      show ((run (List.replicate n (silence s)) (store.step (silence s))).session s).profiles.values = _
      rw [hmore,hvalues,List.append_assoc]
      rfl
    · intro q hq vector
      rcases List.mem_cons.mp hq with rfl | hq
      · rw [hcentroid,hsilent]
      · exact hzero q hq vector

/-- `n` speakers without a voice and one with a voice. -/
def voiceAfter (s : SessionId) (n : ℕ) (voice : List ℝ) : List (Call ℝ) :=
  List.replicate n (silence s) ++ [.assign s voice 1]

theorem voiceAfter_run (hkept : (store.session s).Kept 2)
    (hthreshold : store.assignmentThreshold = 1 / 2) (n : ℕ) (voice : List ℝ)
    (hlength : voice.length = 2) (hunit : dot voice voice = 1)
    (hfar : ∀ p ∈ (store.session s).profiles.values, dot p.centroid voice < 1 / 2) :
    (run (voiceAfter s n voice) store).assignmentThreshold = 1 / 2 ∧
    ((run (voiceAfter s n voice) store).session s).Kept 2 ∧
    ((run (voiceAfter s n voice) store).session s).nextSpeakerNumber =
      (store.session s).nextSpeakerNumber + n + 1 ∧
    ∃ silent p, ((run (voiceAfter s n voice) store).session s).profiles.values =
        (store.session s).profiles.values ++ silent ++ [p] ∧
      (∀ q ∈ silent, ∀ vector, dot q.centroid vector = 0) ∧ p.centroid = voice ∧
      p.speakerId = speakerName ((store.session s).nextSpeakerNumber + n) := by
  have hpositive : (0 : ℝ) < 1 / 2 := by norm_num
  obtain ⟨hsame,hquiet,hnumber,silent,hvalues,hsilent⟩ :=
    silences_run hkept (hthreshold ▸ hpositive) n
  have hopened : Opened s voice (run (List.replicate n (silence s)) store)
      (run (voiceAfter s n voice) store) := by
    rw [voiceAfter,run_append]
    apply opened_of_far (hlength ▸ hquiet) ⟨zero_le_one,le_rfl⟩ (.inl hunit)
    intro q hq
    rw [hsame,hthreshold]
    rw [hvalues] at hq
    rcases List.mem_append.mp hq with hq | hq
    · exact hfar q hq
    · rw [hsilent q hq]
      exact hpositive
  obtain ⟨p,hp,hid,hmore⟩ := hopened.values
  refine ⟨?_,hlength ▸ hopened.kept,?_,silent,p,?_,hsilent,hp,?_⟩
  · rw [hopened.threshold,hsame,hthreshold]
  · rw [hopened.number,hnumber]
  · rw [hmore,hvalues]
  · rw [hid,hnumber]

/-- A second voice is close neither to the first one nor to speakers without one. -/
theorem second_voice_far {silent : List (SpeakerProfile ℝ)} {p : SpeakerProfile ℝ}
    (hsilent : ∀ q ∈ silent, ∀ vector, dot q.centroid vector = 0) (hp : p.centroid = [3 / 5,4 / 5]) :
    ∀ q ∈ silent ++ [p], dot q.centroid [3 / 5,-(4 / 5)] < 1 / 2 := by
  intro q hq
  rcases List.mem_append.mp hq with hq | hq
  · rw [hsilent q hq]
    norm_num
  · rw [List.mem_singleton.mp hq,hp]
    simp only [dot_cons,dot_nil_left]
    norm_num

/-- Speakers 101 and 1000 have a voice, and the two are as close to `[1,0]`. -/
noncomputable def thousandSpeakers (s : SessionId) : List (Call ℝ) :=
  voiceAfter s 100 [3 / 5,4 / 5] ++ voiceAfter s 898 [3 / 5,-(4 / 5)]

theorem thousandSpeakers_run (s : SessionId) (store : SpeakerSessionStore ℝ)
    (hfresh : store.session s = .fresh) (hthreshold : store.assignmentThreshold = 1 / 2) :
    ∃ silent p more q,
      (run (thousandSpeakers s) store).assignmentThreshold = 1 / 2 ∧
      ((run (thousandSpeakers s) store).session s).Kept 2 ∧
      ((run (thousandSpeakers s) store).session s).profiles.values =
        silent ++ p :: (more ++ [q]) ∧
      (∀ r ∈ silent ++ more, ∀ vector, dot r.centroid vector = 0) ∧
      p.centroid = [3 / 5,4 / 5] ∧ p.speakerId = speakerName 101 ∧
      q.centroid = [3 / 5,-(4 / 5)] ∧ q.speakerId = speakerName 1000 := by
  have hempty : (store.session s).profiles.values = [] := by
    rw [hfresh]
    rfl
  obtain ⟨hsame,hkept,hnumber,silent,p,hvalues,hsilent,hp,hpid⟩ := voiceAfter_run
    (hfresh ▸ SpeakerSession.kept_fresh 2) hthreshold 100 [3 / 5,4 / 5] rfl
    (by simp only [dot_cons,dot_nil_left]; norm_num) (by simp [hempty])
  rw [hempty,List.nil_append] at hvalues
  rw [hfresh] at hpid hnumber
  obtain ⟨hsame',hkept',-,more,q,hvalues',hmore,hq,hqid⟩ := voiceAfter_run hkept hsame 898
    [3 / 5,-(4 / 5)] rfl (by simp only [dot_cons,dot_nil_left]; norm_num)
    (hvalues ▸ second_voice_far hsilent hp)
  rw [hnumber] at hqid
  refine ⟨silent,p,more,q,?_,?_,?_,fun r hr => ?_,hp,hpid,hq,hqid⟩
  · rw [thousandSpeakers,run_append,hsame']
  · rw [thousandSpeakers,run_append]
    exact hkept'
  · rw [thousandSpeakers,run_append,hvalues',hvalues]
    simp only [List.append_assoc,List.cons_append,List.nil_append]
  · exact (List.mem_append.mp hr).elim (hsilent r) (hmore r)

/-- Three speakers, restored, of whom the first and the last are as close to `[1,0]`. -/
theorem replies_restored_iff_three : ∃ h : FloatOps.between (-1) 1 (1 / 2 : ℝ) = true,
    let store := run (voiceAfter (lit "s") 0 [3 / 5,4 / 5] ++ voiceAfter (lit "s") 1 [3 / 5,-(4 / 5)])
      (init (1 / 2) h)
    (store.session (lit "s")).nextSpeakerNumber = 4 ∧
    replies (hear (lit "s")) [([1,0],1),([0,1],1)] store =
      replies (hear (lit "s")) [([1,0],1),([0,1],1)] (restored (1 / 2) h (lit "s") store) := by
  have h : FloatOps.between (-1) 1 (1 / 2 : ℝ) = true := by
    rw [exact_between]
    norm_num
  obtain ⟨hsame,hkept,hnumber,silent,p,hvalues,hsilent,hp,-⟩ := voiceAfter_run (s := lit "s")
    (show ((init (1 / 2) h).session (lit "s")).Kept 2 from SpeakerSession.kept_fresh 2) rfl 0
    [3 / 5,4 / 5] rfl
    (by simp only [dot_cons,dot_nil_left]; norm_num) (fun p hp => nomatch hp)
  obtain ⟨-,hkept',hnumber',-⟩ := voiceAfter_run hkept hsame 1 [3 / 5,-(4 / 5)] rfl
    (by simp only [dot_cons,dot_nil_left]; norm_num) (hvalues ▸ second_voice_far hsilent hp)
  rw [← run_append] at hkept' hnumber'
  have hfour : ((run (voiceAfter (lit "s") 0 [3 / 5,4 / 5] ++
      voiceAfter (lit "s") 1 [3 / 5,-(4 / 5)]) (init (1 / 2) h)).session (lit "s")).nextSpeakerNumber =
        4 := by
    rw [hnumber',hnumber]
    rfl
  refine ⟨h,hfour,(replies_restored_iff (1 / 2) h _ (lit "s") _).mpr (meets_of_few ⟨2,hkept'⟩ ?_ _)⟩
  rw [hfour]
  omega

/-- A voice between speakers 101 and 1000 is speaker 101 for the original session, which knows
her longer, and speaker 1000 for the restored one. -/
theorem thousandth_speaker_differs : ∃ h : FloatOps.between (-1) 1 (1 / 2 : ℝ) = true,
    let store := run (thousandSpeakers (lit "s")) (init (1 / 2) h)
    replies (hear (lit "s")) [([1,0],1)] store ≠
      replies (hear (lit "s")) [([1,0],1)] (restored (1 / 2) h (lit "s") store) := by
  have h : FloatOps.between (-1) 1 (1 / 2 : ℝ) = true := by
    rw [exact_between]
    norm_num
  refine ⟨h,fun hsame => ?_⟩
  obtain ⟨hleast,-⟩ :=
    ((parallel_restored (1 / 2) h (thousandSpeakers (lit "s")) (lit "s")).replies_iff _).mp hsame
  obtain ⟨silent,p,more,q,hthreshold,hkept,hvalues,hsilent,hp,hpid,hq,hqid⟩ :=
    thousandSpeakers_run (lit "s") (init (1 / 2) h) rfl rfl
  have hround : Round ([1,0] : List ℝ) := .inl (by simp)
  have hdotp : dot p.centroid [1,0] = 3 / 5 := by simp [hp]
  have hdotq : dot q.centroid [1,0] = 3 / 5 := by simp [hq]
  have hfirst : FirstBest [1,0] (silent ++ p :: (more ++ [q])) p := by
    refine ⟨silent,more ++ [q],rfl,fun r hr => ?_,fun r hr => ?_⟩
    · rw [hsilent r (List.mem_append_left _ hr),hdotp]
      norm_num
    · rcases List.mem_append.mp hr with hr | hr
      · rw [hsilent r (List.mem_append_right _ hr),hdotp]
        norm_num
      · rw [List.mem_singleton.mp hr,hdotq,hdotp]
  have hexported := hkept.sized.map_speakerId
  have hmemp : p ∈ silent ++ p :: (more ++ [q]) := hfirst.mem
  have hmemq : q ∈ silent ++ p :: (more ++ [q]) := by simp
  rw [← hvalues] at hfirst hmemp hmemq
  have hle : p.speakerId ≤ q.speakerId := by
    apply hleast
    · rw [exact_between]
      norm_num
    · exact fun r hr => (hkept.sized.mem_values hr).2.length
    · rw [normalize_round hround]
      exact hfirst
    · rw [normalize_round hround,hdotp]
      norm_num
    · rw [normalize_round hround,hdotp,hthreshold]
      norm_num
    · exact hexported ▸ List.mem_map_of_mem hmemp
    · exact hmemq
    · exact hexported ▸ List.mem_map_of_mem hmemq
    · rw [normalize_round hround,hdotp,hdotq]
  rw [hpid,hqid] at hle
  exact absurd hle (by decide +kernel)

end SpeakerSessionStore
end CueBee.Speaker
