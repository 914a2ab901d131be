import CueBee.Speaker.ProfileRuns

/-! # The same profiles in another order

Two sessions with the same profiles, of which some are stored in another order. They answer
an embedding alike unless the greatest similarity is reached by several of those profiles.
-/
namespace CueBee.Speaker
open Cache Raising PyStr VectorGeometry SpeakerSessionStore

section FirstBest
variable {vector : List ℝ} {profiles more : List (SpeakerProfile ℝ)} {best other : SpeakerProfile ℝ}

theorem FirstBest.dot_eq {others : List (SpeakerProfile ℝ)} (h : FirstBest vector profiles best)
    (h' : FirstBest vector others other) (hsame : ∀ p, p ∈ profiles ↔ p ∈ others) :
    dot best.centroid vector = dot other.centroid vector :=
  (firstBest_iff.mp h).key_eq (firstBest_iff.mp h') hsame

theorem FirstBest.unique (h : FirstBest vector profiles best)
    (h' : FirstBest vector profiles other) : best = other :=
  (firstBest_iff.mp h).unique (firstBest_iff.mp h')

theorem FirstBest.append (h : FirstBest vector (profiles ++ more) best) :
    FirstBest vector profiles best ∨
    FirstBest vector more best ∧ ∀ p ∈ profiles, dot p.centroid vector < dot best.centroid vector :=
  (firstBest_iff.mp h).append

/-- In a list in the order of the ids the first of the best has the least id. -/
theorem FirstBest.least (h : FirstBest vector profiles best)
    (hsorted : profiles.Pairwise (fun p q => p.speakerId ≤ q.speakerId)) :
    ∀ p ∈ profiles, dot p.centroid vector = dot best.centroid vector →
      best.speakerId ≤ p.speakerId := by
  obtain ⟨pre,post,rfl,hpre,-⟩ := h
  intro p hp hdot
  rcases List.mem_append.mp hp with hp | hp
  · exact absurd hdot (hpre p hp).ne
  · rcases List.mem_cons.mp hp with rfl | hp
    · exact le_rfl
    · exact (List.pairwise_cons.mp (List.pairwise_append.mp hsorted).2.1).1 p hp

end FirstBest

section BestScore
variable {vector : List ℝ} {profiles others : List (SpeakerProfile ℝ)} {score score' threshold : ℝ}

theorem BestScore.unique (h : BestScore vector profiles score) (h' : BestScore vector others score')
    (hsame : ∀ p, p ∈ profiles ↔ p ∈ others) : score = score' := by
  apply le_antisymm
  · rcases h.attained with hlow | ⟨p,hp,hdot⟩
    · exact hlow ▸ h'.lower
    · exact hdot ▸ h'.upper p ((hsame p).mp hp)
  · rcases h'.attained with hlow | ⟨p,hp,hdot⟩
    · exact hlow ▸ h.lower
    · exact hdot ▸ h.upper p ((hsame p).mpr hp)

/-- A score that opens a new profile excludes a match. -/
theorem BestScore.not_matched (h : BestScore vector profiles score)
    (hlow : score = -1 ∨ score < threshold) {best : SpeakerProfile ℝ}
    (hopposite : -1 < dot best.centroid vector) (hhigh : threshold ≤ dot best.centroid vector) :
    best ∉ profiles := by
  intro hmem
  have hle := h.upper best hmem
  rcases hlow with hlow | hlow
  · exact absurd (hopposite.trans_le hle) (hlow ▸ lt_irrefl _)
  · exact absurd (hlow.trans_le (hhigh.trans hle)) (lt_irrefl _)

end BestScore

namespace SpeakerSession

/-- The first session holds the profiles under `ids` in that order, the second one in the
order of the ids; behind them both hold the same profiles in the same order. -/
structure Reordered (ids : List SpeakerId) (session sorted : SpeakerSession ℝ) : Prop where
  next : sorted.nextSpeakerNumber = session.nextSpeakerNumber
  get : ∀ speakerId, sorted.profiles.get? speakerId = session.profiles.get? speakerId
  order : ∃ first added, first.Perm ids ∧ first.Pairwise (· ≤ ·) ∧
    session.profiles.keys = ids ++ added ∧ sorted.profiles.keys = first ++ added

/-- Where a vector matches, the first of the best profiles under `ids` has the least id of
those that are as good. -/
def LeastFirst (ids : List SpeakerId) (threshold : ℝ) (vector : List ℝ)
    (session : SpeakerSession ℝ) : Prop :=
  ∀ best, FirstBest vector session.profiles.values best →
    -1 < dot best.centroid vector → threshold ≤ dot best.centroid vector →
    best.speakerId ∈ ids → ∀ p ∈ session.profiles.values, p.speakerId ∈ ids →
      dot p.centroid vector = dot best.centroid vector → best.speakerId ≤ p.speakerId

section Order
variable {d : ℕ} {ids : List SpeakerId} {session sorted : SpeakerSession ℝ} {vector : List ℝ}
  {threshold quality : ℝ}

theorem Reordered.sized (h : Reordered ids session sorted) (hsized : session.Sized d) :
    sorted.Sized d := by
  intro speakerId p hget
  rw [h.get] at hget
  exact hsized speakerId p hget

theorem Reordered.mem (h : Reordered ids session sorted) (p : SpeakerProfile ℝ) :
    p ∈ session.profiles.values ↔ p ∈ sorted.profiles.values := by
  rw [Dict.mem_values_iff,Dict.mem_values_iff]
  simp only [h.get]

theorem Sized.map_speakerId (h : session.Sized d) :
    session.profiles.values.map SpeakerProfile.speakerId = session.profiles.keys :=
  Dict.map_values_eq_keys fun id p hget => (h id p hget).speakerId

theorem Sized.eq_of_id (h : session.Sized d) {p q : SpeakerProfile ℝ}
    (hp : p ∈ session.profiles.values) (hq : q ∈ session.profiles.values)
    (hid : p.speakerId = q.speakerId) : p = q := by
  have hget := (h.mem_values hp).1
  rw [hid,(h.mem_values hq).1] at hget
  exact (Option.some.inj hget).symm

/-- The profiles of the two sessions, those under `ids` apart from the later ones. -/
theorem Reordered.split (h : Reordered ids session sorted) (hsized : session.Sized d) :
    ∃ early early' late, session.profiles.values = early ++ late ∧
      sorted.profiles.values = early' ++ late ∧ early.map SpeakerProfile.speakerId = ids ∧
      (∀ p, p ∈ early ↔ p ∈ early') ∧
      early'.Pairwise (fun p q => p.speakerId ≤ q.speakerId) ∧
      ∀ p ∈ late, p.speakerId ∉ ids := by
  obtain ⟨first,added,hperm,hfirst,hkeys,hkeys'⟩ := h.order
  have hids := hsized.map_speakerId
  have hids' := (h.sized hsized).map_speakerId
  rw [hkeys] at hids
  rw [hkeys'] at hids'
  obtain ⟨early,late,hvalues,hearly,hlate⟩ := List.map_eq_append_iff.mp hids
  obtain ⟨early',late',hvalues',hearly',hlate'⟩ := List.map_eq_append_iff.mp hids'
  have hdistinct : ∀ speakerId ∈ ids, speakerId ∉ added := by
    have hnodup : (ids ++ added).Nodup := hkeys ▸ session.profiles.nodup_keys
    exact fun speakerId hmem hadded => (List.nodup_append.mp hnodup).2.2 _ hmem _ hadded rfl
  have hnew : ∀ p ∈ late, p.speakerId ∉ ids := fun p hp hmem =>
    hdistinct _ hmem (hlate ▸ List.mem_map_of_mem hp)
  have hnew' : ∀ p ∈ late', p.speakerId ∉ ids := fun p hp hmem =>
    hdistinct _ hmem (hlate' ▸ List.mem_map_of_mem hp)
  have hsame : late = late' := by
    have hget : sorted.profiles.get? = session.profiles.get? := funext h.get
    have hall := Dict.values_map_some session.profiles
    have hall' := Dict.values_map_some sorted.profiles
    rw [hvalues,hkeys,List.map_append,List.map_append] at hall
    rw [hvalues',hkeys',hget,List.map_append,List.map_append] at hall'
    have hlength : early.length = ids.length := by rw [← hearly,List.length_map]
    have hlength' : early'.length = first.length := by rw [← hearly',List.length_map]
    have htail := (List.append_inj hall (by simpa using hlength)).2
    have htail' := (List.append_inj hall' (by simpa using hlength')).2
    exact List.map_injective_iff.mpr (Option.some_injective _) (htail.trans htail'.symm)
  subst hsame
  refine ⟨early,early',late,hvalues,hvalues',hearly,fun p => ?_,?_,hnew⟩
  · have hmem := h.mem p
    rw [hvalues,hvalues',List.mem_append,List.mem_append] at hmem
    constructor
    · intro hp
      rcases hmem.mp (.inl hp) with hp' | hp'
      · exact hp'
      · exact absurd (hearly ▸ List.mem_map_of_mem hp) (hnew p hp')
    · intro hp
      rcases hmem.mpr (.inl hp) with hp' | hp'
      · exact hp'
      · exact absurd (hperm.mem_iff.mp (hearly' ▸ List.mem_map_of_mem hp)) (hnew p hp')
  · rw [← hearly',List.pairwise_map] at hfirst
    exact hfirst

/-- The two sessions match a vector with the same profile exactly if `LeastFirst` holds. -/
theorem Reordered.same_best (h : Reordered ids session sorted) (hsized : session.Sized d)
    {best best' : SpeakerProfile ℝ} (hbest : FirstBest vector session.profiles.values best)
    (hbest' : FirstBest vector sorted.profiles.values best')
    (hopposite : -1 < dot best.centroid vector) (hhigh : threshold ≤ dot best.centroid vector) :
    best.speakerId = best'.speakerId ↔ LeastFirst ids threshold vector session := by
  have hdot := hbest.dot_eq hbest' h.mem
  obtain ⟨early,early',late,hvalues,hvalues',hids,hsame,hsorted,hnew⟩ := h.split hsized
  have hfirst := hbest
  have hfirst' := hbest'
  rw [hvalues] at hfirst
  rw [hvalues'] at hfirst'
  rcases hfirst.append with hfirst | ⟨hfirst,hworse⟩
  · -- one of the reordered profiles is best, so the other session matches one of them too
    have hmem := (hsame best).mp hfirst.mem
    rcases hfirst'.append with hfirst' | ⟨-,hworse'⟩
    · have hleast' := hfirst'.least hsorted
      constructor
      · intro hid other hother _ _ _ p hp hpid hpdot
        obtain rfl := hbest.unique hother
        rw [hvalues] at hp
        have hearly : p ∈ early := (List.mem_append.mp hp).resolve_right (fun hp => hnew p hp hpid)
        rw [hid]
        exact hleast' p ((hsame p).mp hearly) (hpdot.trans hdot)
      · intro hleast
        have hearly' := (hsame best').mpr hfirst'.mem
        apply le_antisymm
        · apply hleast best hbest hopposite hhigh
          · exact hids ▸ List.mem_map_of_mem hfirst.mem
          · exact hvalues ▸ List.mem_append_left _ hearly'
          · exact hids ▸ List.mem_map_of_mem hearly'
          · exact hdot.symm
        · exact hleast' best hmem hdot
    · exact absurd hdot (hworse' best hmem).ne
  · -- a later profile is best in both sessions
    rcases hfirst'.append with hfirst' | ⟨hfirst',-⟩
    · exact absurd hdot.symm (hworse best' ((hsame best').mpr hfirst'.mem)).ne
    · constructor
      · intro _ other hother _ _ hid
        obtain rfl := hbest.unique hother
        exact absurd hid (hnew best hfirst.mem)
      · exact fun _ => congrArg _ (hfirst.unique hfirst')

theorem Reordered.set (h : Reordered ids session sorted) {speakerId : SpeakerId}
    {p : SpeakerProfile ℝ} (hget : session.profiles.get? speakerId = some p)
    (q : SpeakerProfile ℝ) : Reordered ids
      { session with profiles := session.profiles.set speakerId q }
      { sorted with profiles := sorted.profiles.set speakerId q } where
  next := h.next
  get other := by
    show (sorted.profiles.set speakerId q).get? other = (session.profiles.set speakerId q).get? other
    rw [Dict.get?_set,Dict.get?_set,h.get]
  order := by
    obtain ⟨first,added,hperm,hfirst,hkeys,hkeys'⟩ := h.order
    refine ⟨first,added,hperm,hfirst,?_,?_⟩
    · exact (Dict.keys_set_of_some hget q).trans hkeys
    · exact (Dict.keys_set_of_some ((h.get speakerId).trans hget) q).trans hkeys'

theorem Reordered.addProfile (h : Reordered ids session sorted)
    (hfree : session.profiles.get? (speakerName session.nextSpeakerNumber) = none)
    (vector : List ℝ) (quality : ℝ) : Reordered ids (addProfile vector quality session)
      (addProfile vector quality sorted) where
  next := congrArg (· + 1) h.next
  get other := by
    show (sorted.profiles.set _ _).get? other = (session.profiles.set _ _).get? other
    rw [Dict.get?_set,Dict.get?_set,h.get,h.next]
  order := by
    obtain ⟨first,added,hperm,hfirst,hkeys,hkeys'⟩ := h.order
    refine ⟨first,added ++ [speakerName session.nextSpeakerNumber],hperm,hfirst,?_,?_⟩
    · show (session.profiles.set _ _).keys = _
      rw [Dict.keys_set_of_none hfree,hkeys,List.append_assoc]
    · show (sorted.profiles.set _ _).keys = _
      rw [h.next,Dict.keys_set_of_none ((h.get _).trans hfree),hkeys',List.append_assoc]

/-- Both sessions answer a vector alike, and stay alike, if `LeastFirst` holds. -/
theorem Reordered.answer (h : Reordered ids session sorted) (hsized : session.Sized d)
    (hfree : session.profiles.get? (speakerName session.nextSpeakerNumber) = none)
    (hvector : vector.length = d) (threshold quality : ℝ) :
    ((session.answer threshold vector quality).1 = (sorted.answer threshold vector quality).1 ↔
      LeastFirst ids threshold vector session) ∧
    (LeastFirst ids threshold vector session →
      Reordered ids (session.answer threshold vector quality).2
        (sorted.answer threshold vector quality).2) := by
  have hanswered := hsized.answered hvector threshold quality
  have hanswered' := (h.sized hsized).answered hvector threshold quality
  generalize session.answer threshold vector quality = result at hanswered
  generalize sorted.answer threshold vector quality = result' at hanswered'
  cases hanswered with
  | opened score hscore hlow =>
    have hleast : LeastFirst ids threshold vector session := by
      intro best hbest hopposite hhigh
      exact absurd hbest.mem (hscore.not_matched hlow hopposite hhigh)
    cases hanswered' with
    | opened score' hscore' hlow' =>
      obtain rfl := hscore.unique hscore' h.mem
      constructor
      · rw [h.next]
        exact iff_of_true rfl hleast
      · exact fun _ => h.addProfile hfree vector quality
    | matched best' hbest' hopposite' hhigh' =>
      have hmem := (h.mem best').mpr hbest'.mem
      exact absurd hmem (hscore.not_matched hlow hopposite' hhigh')
  | matched best hbest hopposite hhigh =>
    cases hanswered' with
    | opened score' hscore' hlow' =>
      have hmem := (h.mem best).mp hbest.mem
      exact absurd hmem (hscore'.not_matched hlow' hopposite hhigh)
    | matched best' hbest' hopposite' hhigh' =>
      have hsame := h.same_best hsized hbest hbest' hopposite hhigh
      constructor
      · rw [← hsame,← hbest.dot_eq hbest' h.mem,Except.ok.injEq,Prod.mk.injEq]
        exact and_iff_left rfl
      · intro hleast
        have hid := hsame.mpr hleast
        obtain rfl := hsized.eq_of_id hbest.mem ((h.mem best').mpr hbest'.mem) hid
        exact h.set (hsized.mem_values hbest.mem).1 _

end Order

end SpeakerSession

end CueBee.Speaker
