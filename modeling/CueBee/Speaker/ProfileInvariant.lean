import CueBee.Support.FirstGreatest
import CueBee.Speaker.ExactArithmetic

/-! # What holds of the profiles of a session

In exact arithmetic the profiles of a session are numbered without gaps, their centroids are
unit vectors or zero, and their weights grow. A match is never with an opposite vector, so
that the mean does not vanish.
-/
namespace CueBee.Speaker
open Cache Raising PyStr VectorGeometry SpeakerSessionStore

theorem speakerName_injective : Function.Injective speakerName := by
  intro m n h
  have hdigits := List.append_cancel_left h
  rw [← number_zfill_decimal 3 m,hdigits,number_zfill_decimal]

section BestMatch
variable {vector : List ℝ} {profiles : List (SpeakerProfile ℝ)} {d : ℕ}

/-- The greatest similarity, or -1. -/
structure BestScore (vector : List ℝ) (profiles : List (SpeakerProfile ℝ)) (score : ℝ) : Prop where
  lower : -1 ≤ score
  upper : ∀ p ∈ profiles, dot p.centroid vector ≤ score
  attained : score = -1 ∨ ∃ p ∈ profiles, dot p.centroid vector = score

theorem BestScore.le_one {score : ℝ}
    (h : BestScore vector profiles score) (hvector : Round vector)
    (hprofiles : ∀ p ∈ profiles, Round p.centroid ∧ p.centroid.length = vector.length) :
    score ≤ 1 := by
  rcases h.attained with h | ⟨p,hp,h⟩
  · rw [h]
    norm_num
  · obtain ⟨hround,hlength⟩ := hprofiles p hp
    exact h ▸ (hround.dot_bounds hvector hlength).2

/-- The first of the profiles with the greatest similarity. -/
def FirstBest (vector : List ℝ) (profiles : List (SpeakerProfile ℝ)) (best : SpeakerProfile ℝ) :
    Prop :=
  ∃ pre post, profiles = pre ++ best :: post ∧
    (∀ p ∈ pre, dot p.centroid vector < dot best.centroid vector) ∧
    ∀ p ∈ post, dot p.centroid vector ≤ dot best.centroid vector

theorem firstBest_iff {best : SpeakerProfile ℝ} : FirstBest vector profiles best ↔
    FirstGreatest (fun p => dot p.centroid vector) profiles best := Iff.rfl

theorem FirstBest.mem {best : SpeakerProfile ℝ} (h : FirstBest vector profiles best) :
    best ∈ profiles := FirstGreatest.mem h

theorem FirstBest.le {best : SpeakerProfile ℝ} (h : FirstBest vector profiles best) :
    ∀ p ∈ profiles, dot p.centroid vector ≤ dot best.centroid vector :=
  (firstBest_iff.mp h).le

/-- The loop keeps what it has found unless a profile is strictly better. -/
theorem bestMatch_exact (hprofiles : ∀ p ∈ profiles, p.centroid.length = vector.length)
    (start : Option (SpeakerProfile ℝ)) (score : ℝ) :
    (bestMatch vector profiles (start,score) = some (start,score) ∧
      ∀ p ∈ profiles, dot p.centroid vector ≤ score) ∨
    ∃ best, FirstBest vector profiles best ∧ score < dot best.centroid vector ∧
      bestMatch vector profiles (start,score) = some (some best,dot best.centroid vector) := by
  induction profiles generalizing start score with
  | nil => exact .inl ⟨rfl,by simp⟩
  | cons p rest ih =>
    have hrest := fun q hq => hprofiles q (List.mem_cons_of_mem p hq)
    have hp := cosineSimilarity_eq (hprofiles p List.mem_cons_self)
    by_cases hlt : score < dot p.centroid vector
    · have hstep : bestMatch vector (p :: rest) (start,score) =
          bestMatch vector rest (some p,dot p.centroid vector) := by
        simp only [bestMatch,hp,exact_lt,decide_eq_true_eq,if_pos hlt]
      rw [hstep]
      rcases ih hrest (some p) (dot p.centroid vector) with ⟨hrun,hall⟩ | ⟨best,hbest,hbetter,hrun⟩
      · exact .inr ⟨p,firstBest_iff.mpr (.head hall),hlt,hrun⟩
      · exact .inr ⟨best,firstBest_iff.mpr (.cons hbest hbetter),hlt.trans hbetter,hrun⟩
    · have hstep : bestMatch vector (p :: rest) (start,score) =
          bestMatch vector rest (start,score) := by
        simp only [bestMatch,hp,exact_lt,decide_eq_true_eq,if_neg hlt]
      rw [hstep]
      rcases ih hrest start score with ⟨hrun,hall⟩ | ⟨best,hbest,hbetter,hrun⟩
      · refine .inl ⟨hrun,fun q hq => ?_⟩
        rcases List.mem_cons.mp hq with rfl | hq
        · exact not_lt.mp hlt
        · exact hall q hq
      · have hskip := FirstGreatest.cons hbest ((not_lt.mp hlt).trans_lt hbetter)
        exact .inr ⟨best,firstBest_iff.mpr hskip,hbetter,hrun⟩

end BestMatch

/-- What holds of the profile stored under `speakerId`. -/
structure SpeakerProfile.Kept (d : ℕ) (speakerId : SpeakerId) (p : SpeakerProfile ℝ) : Prop where
  speakerId : p.speakerId = speakerId
  length : p.centroid.length = d
  round : Round p.centroid
  samples : 1 / 10 ≤ p.effectiveSamples

/-- The ids are those of the numbers below the next one, in the order of their creation. -/
structure SpeakerSession.Kept (d : ℕ) (session : SpeakerSession ℝ) : Prop where
  positive : 1 ≤ session.nextSpeakerNumber
  numbered : session.profiles.keys =
    (List.range' 1 (session.nextSpeakerNumber - 1)).map speakerName
  profile : ∀ speakerId p, session.profiles.get? speakerId = some p → p.Kept d speakerId

namespace SpeakerSession
variable {d : ℕ} {session : SpeakerSession ℝ} {vector : List ℝ} {quality threshold : ℝ}

theorem kept_fresh (d : ℕ) : (fresh : SpeakerSession ℝ).Kept d :=
  ⟨le_rfl,rfl,fun _ _ h => nomatch h⟩

/-- The part of `Kept` that does not speak of the order of the profiles. -/
def Sized (d : ℕ) (session : SpeakerSession ℝ) : Prop :=
  ∀ speakerId p, session.profiles.get? speakerId = some p → p.Kept d speakerId

theorem Kept.sized (h : session.Kept d) : session.Sized d := h.profile

theorem Sized.mem_values (h : session.Sized d) {p : SpeakerProfile ℝ}
    (hp : p ∈ session.profiles.values) :
    session.profiles.get? p.speakerId = some p ∧ p.Kept d p.speakerId := by
  obtain ⟨speakerId,hget⟩ := (session.profiles.mem_values_iff p).mp hp
  have hkept := h speakerId p hget
  obtain rfl := hkept.speakerId
  exact ⟨hget,hkept⟩

/-- The next name is new. -/
theorem Kept.next_free (h : session.Kept d) :
    session.profiles.get? (speakerName session.nextSpeakerNumber) = none := by
  by_contra hsome
  obtain ⟨p,hget⟩ := Option.ne_none_iff_exists'.mp hsome
  have hmem := (session.profiles.mem_keys_iff _).mpr ⟨p,hget⟩
  rw [h.numbered] at hmem
  obtain ⟨n,hn,hname⟩ := List.mem_map.mp hmem
  rw [speakerName_injective hname,List.mem_range'_1] at hn
  omega

theorem Sized.addProfile (h : session.Sized d) (hvector : vector.length = d)
    (hround : Round vector) : (addProfile vector quality session).Sized d := by
  intro speakerId p hget
  rw [SpeakerSessionStore.addProfile,Dict.get?_set] at hget
  by_cases hid : speakerId = speakerName session.nextSpeakerNumber
  · rw [if_pos hid,Option.some.injEq] at hget
    subst hget
    refine ⟨hid.symm,hvector,hround,?_⟩
    show (1 : ℝ) / 10 ≤ FloatOps.max (((1 / 10 : ℚ)) : ℝ) quality
    rw [exact_max]
    refine le_trans (le_of_eq ?_) (le_max_left _ _)
    norm_num
  · rw [if_neg hid] at hget
    exact h speakerId p hget

theorem Kept.addProfile (h : session.Kept d) (hvector : vector.length = d) (hround : Round vector) :
    (addProfile vector quality session).Kept d := by
  have hpositive := h.positive
  constructor
  · exact Nat.le_succ_of_le h.positive
  · show (session.profiles.set _ _).keys = _
    rw [Dict.keys,Dict.set_entries_of_none h.next_free,List.map_append]
    rw [show session.profiles.entries.map Prod.fst = session.profiles.keys from rfl,h.numbered]
    have hcount : session.nextSpeakerNumber + 1 - 1 = session.nextSpeakerNumber - 1 + 1 := by omega
    show _ = (List.range' 1 (session.nextSpeakerNumber + 1 - 1)).map speakerName
    rw [hcount,List.range'_concat,List.map_append]
    have hlast : 1 + 1 * (session.nextSpeakerNumber - 1) = session.nextSpeakerNumber := by omega
    rw [hlast]
    rfl
  · exact h.sized.addProfile hvector hround

end SpeakerSession

section Blend
variable {d : ℕ} {speakerId : SpeakerId} {p : SpeakerProfile ℝ} {vector : List ℝ} {weight : ℝ}

theorem blend_centroid (vector : List ℝ) (weight total : ℝ) (p : SpeakerProfile ℝ) :
    (blend vector weight total p).centroid =
      normalize ((mix p.effectiveSamples weight p.centroid vector).map (· / total)) := by
  rw [mix,List.map_zipWith]
  show normalize (List.zipWith (fun old new : ℝ => (old * p.effectiveSamples + new * weight) / total)
    p.centroid vector) = _
  congr 2
  funext old new
  rw [mul_comm old,mul_comm new]

/-- How a profile may change: its weight grows, and a centroid that is not zero stays so. -/
structure Grown (p after : SpeakerProfile ℝ) : Prop where
  samples : p.effectiveSamples ≤ after.effectiveSamples
  centroid : dot p.centroid p.centroid = 1 → dot after.centroid after.centroid = 1

theorem Grown.refl (p : SpeakerProfile ℝ) : Grown p p := ⟨le_rfl,id⟩

theorem Grown.trans {p q r : SpeakerProfile ℝ} (h : Grown p q) (h' : Grown q r) : Grown p r :=
  ⟨h.samples.trans h'.samples,fun hp => h'.centroid (h.centroid hp)⟩

theorem SpeakerProfile.Kept.blend (h : p.Kept d speakerId) (hvector : vector.length = d)
    (hround : Round vector) (hdot : -1 < dot p.centroid vector) (hweight : 0 < weight) :
    (blend vector weight (p.effectiveSamples + weight) p).Kept d speakerId ∧
      Grown p (blend vector weight (p.effectiveSamples + weight) p) := by
  have hsamples : 0 < p.effectiveSamples := lt_of_lt_of_le (by norm_num) h.samples
  have htotal : 0 < p.effectiveSamples + weight := add_pos hsamples hweight
  have hlength : p.centroid.length = vector.length := h.length.trans hvector.symm
  constructor
  · refine ⟨h.speakerId,?_,?_,?_⟩
    · rw [blend_centroid,length_normalize,List.length_map,mix,List.length_zipWith,← hlength,h.length,
        min_self]
    · rw [blend_centroid]
      exact round_normalize _
    · exact h.samples.trans (le_add_of_nonneg_right hweight.le)
  · refine ⟨le_add_of_nonneg_right hweight.le,fun hunit => ?_⟩
    have hmix := Round.mix_ne_zero hunit hround hlength hdot hsamples hweight
    rw [blend_centroid]
    refine dot_normalize ?_
    rw [dot_map_div]
    exact div_ne_zero hmix (mul_ne_zero htotal.ne' htotal.ne')

end Blend

/-- The weight of an embedding. -/
noncomputable def weightOf (quality : ℝ) : ℝ := FloatOps.max (FloatOps.ofRat (1 / 20)) quality

theorem weightOf_pos (quality : ℝ) : 0 < weightOf quality := by
  rw [weightOf,exact_max,exact_ofRat]
  exact lt_max_of_lt_left (by norm_num)

namespace SpeakerSession
variable {d : ℕ} {session : SpeakerSession ℝ} {vector : List ℝ} {quality threshold : ℝ}

/-- What an assignment answers and what it makes of the session. -/
inductive Answered (threshold : ℝ) (vector : List ℝ) (quality : ℝ) (session : SpeakerSession ℝ) :
    Except StoreError (SpeakerId × ℝ) × SpeakerSession ℝ → Prop
  | opened (score : ℝ) (hscore : BestScore vector session.profiles.values score)
      (hlow : score = -1 ∨ score < threshold) :
      Answered threshold vector quality session
        (.ok (speakerName session.nextSpeakerNumber,score),addProfile vector quality session)
  | matched (best : SpeakerProfile ℝ) (hbest : FirstBest vector session.profiles.values best)
      (hopposite : -1 < dot best.centroid vector) (hhigh : threshold ≤ dot best.centroid vector) :
      Answered threshold vector quality session
        (.ok (best.speakerId,dot best.centroid vector),{ session with
          profiles := session.profiles.set best.speakerId (blend vector (weightOf quality)
            (best.effectiveSamples + weightOf quality) best) })

theorem Sized.answered (h : session.Sized d) (hvector : vector.length = d) (threshold quality : ℝ) :
    Answered threshold vector quality session (session.answer threshold vector quality) := by
  have hlengths : ∀ p ∈ session.profiles.values, p.centroid.length = vector.length :=
    fun p hp => (h.mem_values hp).2.length.trans hvector.symm
  have hstart : FloatOps.ofRat (-1) = (-1 : ℝ) := by simp
  unfold answer
  rw [hstart]
  rcases bestMatch_exact hlengths none (-1) with ⟨hrun,hall⟩ | ⟨best,hbest,hopposite,hrun⟩
  · rw [hrun]
    exact .opened (-1) ⟨le_rfl,hall,.inl rfl⟩ (.inl rfl)
  · rw [hrun]
    dsimp only
    by_cases hlow : dot best.centroid vector < threshold
    · rw [if_pos (by simpa using hlow)]
      exact .opened _ ⟨hopposite.le,hbest.le,.inr ⟨best,hbest.mem,rfl⟩⟩ (.inr hlow)
    · rw [if_neg (by simpa using hlow)]
      have hkept := (h.mem_values hbest.mem).2
      have htotal : best.effectiveSamples + weightOf quality ≠ 0 := by
        have hsamples := hkept.samples
        have hweight := weightOf_pos quality
        linarith
      have hdivides : ¬(best.centroid ≠ [] ∧
          FloatOps.eq (best.effectiveSamples + weightOf quality) (FloatOps.ofRat 0) = true) := by
        rintro ⟨-,hzero⟩
        rw [exact_eq,exact_ofRat,Rat.cast_zero] at hzero
        exact htotal hzero
      split
      · next hzero => exact (hdivides hzero).elim
      · exact .matched best hbest hopposite (not_lt.mp hlow)

/-- The session after an assignment: one profile is new or has moved, under the id returned. -/
structure OneProfile (d : ℕ) (session : SpeakerSession ℝ) (speakerId : SpeakerId)
    (after : SpeakerSession ℝ) : Prop where
  kept : after.Kept d
  next : session.nextSpeakerNumber ≤ after.nextSpeakerNumber
  others : ∀ other ≠ speakerId, after.profiles.get? other = session.profiles.get? other
  changed : ∃ p, after.profiles.get? speakerId = some p ∧
    session.profiles.get? speakerId ≠ some p
  grown : ∀ p, session.profiles.get? speakerId = some p →
    ∃ p', after.profiles.get? speakerId = some p' ∧ Grown p p'

theorem Kept.opened (h : session.Kept d) (hvector : vector.length = d) (hround : Round vector) :
    OneProfile d session (speakerName session.nextSpeakerNumber)
      (SpeakerSessionStore.addProfile vector quality session) where
  kept := h.addProfile hvector hround
  next := Nat.le_succ _
  others other hother := Dict.get?_set_ne _ _ hother
  changed := by
    refine ⟨_,Dict.get?_set_self _ _ _,?_⟩
    rw [h.next_free]
    exact fun hnone => nomatch hnone
  grown p hget := by
    rw [h.next_free] at hget
    cases hget

theorem Sized.matched (h : session.Sized d) (hvector : vector.length = d) (hround : Round vector)
    {best : SpeakerProfile ℝ} (hbest : best ∈ session.profiles.values)
    (hopposite : -1 < dot best.centroid vector) (quality : ℝ) :
    Sized d { session with
      profiles := session.profiles.set best.speakerId (blend vector (weightOf quality)
        (best.effectiveSamples + weightOf quality) best) } := by
  obtain ⟨hmoved,-⟩ := (h.mem_values hbest).2.blend hvector hround hopposite (weightOf_pos quality)
  intro speakerId p hp
  rw [Dict.get?_set] at hp
  by_cases hid : speakerId = best.speakerId
  · rw [if_pos hid,Option.some.injEq] at hp
    subst hp
    exact hid ▸ hmoved
  · rw [if_neg hid] at hp
    exact h speakerId p hp

theorem Kept.matched (h : session.Kept d) (hvector : vector.length = d) (hround : Round vector)
    {best : SpeakerProfile ℝ} (hbest : best ∈ session.profiles.values)
    (hopposite : -1 < dot best.centroid vector) (quality : ℝ) :
    OneProfile d session best.speakerId { session with
      profiles := session.profiles.set best.speakerId (blend vector (weightOf quality)
        (best.effectiveSamples + weightOf quality) best) } := by
  obtain ⟨hget,hkept⟩ := h.sized.mem_values hbest
  obtain ⟨-,hgrown⟩ := hkept.blend hvector hround hopposite (weightOf_pos quality)
  have hsized := h.sized.matched hvector hround hbest hopposite quality
  refine ⟨⟨h.positive,(Dict.keys_set_of_some hget _).trans h.numbered,hsized⟩,le_rfl,?_,?_,?_⟩
  · intro other hother
    exact Dict.get?_set_ne _ _ hother
  · refine ⟨_,Dict.get?_set_self _ _ _,fun hsame => ?_⟩
    have hsamples := congrArg SpeakerProfile.effectiveSamples
      (Option.some.inj (hget.symm.trans hsame))
    have hweight := weightOf_pos quality
    have hmore : (blend vector (weightOf quality) (best.effectiveSamples + weightOf quality)
      best).effectiveSamples = best.effectiveSamples + weightOf quality := rfl
    rw [hmore] at hsamples
    linarith
  · intro p hp
    rw [hget,Option.some.injEq] at hp
    subst hp
    exact ⟨_,Dict.get?_set_self _ _ _,hgrown⟩

/-- Every assignment returns, with a similarity between -1 and 1. -/
theorem Kept.answer (h : session.Kept d) (hvector : vector.length = d) (hround : Round vector)
    (threshold quality : ℝ) : ∃ speakerId score after,
      session.answer threshold vector quality = (.ok (speakerId,score),after) ∧
      -1 ≤ score ∧ score ≤ 1 ∧ OneProfile d session speakerId after := by
  have hprofiles : ∀ p ∈ session.profiles.values,
      Round p.centroid ∧ p.centroid.length = vector.length := fun p hp =>
    ⟨(h.sized.mem_values hp).2.round,(h.sized.mem_values hp).2.length.trans hvector.symm⟩
  have hanswered := h.sized.answered hvector threshold quality
  generalize session.answer threshold vector quality = result at hanswered
  cases hanswered with
  | opened score hscore hlow =>
    exact ⟨_,score,_,rfl,hscore.lower,hscore.le_one hround hprofiles,h.opened hvector hround⟩
  | matched best hbest hopposite hhigh =>
    obtain ⟨hcentroid,hlength⟩ := hprofiles best hbest.mem
    have hbounds := hcentroid.dot_bounds hround hlength
    exact ⟨_,_,_,rfl,hbounds.1,hbounds.2,h.matched hvector hround hbest.mem hopposite quality⟩

end SpeakerSession

end CueBee.Speaker
