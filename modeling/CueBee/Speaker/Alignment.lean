import Mathlib.Data.Int.ConditionallyCompleteOrder
import Mathlib.Data.Int.Interval
import Mathlib.Order.ConditionallyCompleteLattice.Basic
import CueBee.Support.FirstGreatest
import CueBee.Transcript.EventSchema
import CueBee.Speaker.AudioChunks

/-! # Speakers of a transcript interval

`align_speaker` attributes an interval to the speaker segment that shares most milliseconds
with it, and among equal shares to the more similar one. Similarities are compared and nothing
else, so any linear order will do; `assign` returns no similarity that is not a number.
-/
namespace CueBee.Speaker
open Cache Transcript PyStr

structure AttributedTranscript where
  segmentId : SegmentId
  text : PyStr
  startMs : ℤ
  endMs : ℤ
  speakerId : Option PyStr
  overlapMs : ℤ
deriving DecidableEq

section Alignment
variable {K : Type} [LinearOrder K]

def overlap (startMs endMs : ℤ) (speaker : SpeakerSegment K) : ℤ :=
  max 0 (min endMs speaker.endMs - max startMs speaker.startMs)

/-- The loop of `align_speaker` on one segment: the best segment so far and its overlap. -/
def keepBetter (startMs endMs : ℤ) (found : Option (SpeakerSegment K) × ℤ)
    (speaker : SpeakerSegment K) : Option (SpeakerSegment K) × ℤ :=
  let overlap := overlap startMs endMs speaker
  if found.2 < overlap ∨ (overlap = found.2 ∧
      found.1.any (fun best => best.similarity < speaker.similarity) = true)
  then (some speaker,overlap) else found

/-- The segment that `align_speaker` settles on, and its overlap. -/
def winner (startMs endMs : ℤ) (speakers : List (SpeakerSegment K)) :
    Option (SpeakerSegment K) × ℤ :=
  speakers.foldl (keepBetter startMs endMs) (none,0)

def alignSpeaker (segmentId : SegmentId) (text : PyStr) (startMs endMs : ℤ)
    (speakers : List (SpeakerSegment K)) : AttributedTranscript :=
  let (best,bestOverlap) := winner startMs endMs speakers
  ⟨segmentId,text,startMs,endMs,best.map SpeakerSegment.speakerId,bestOverlap⟩

/-- How many milliseconds lie in the interval and in the segment. -/
noncomputable def sharedMs (startMs endMs : ℤ) (speaker : SpeakerSegment K) : ℕ :=
  (Finset.Ico startMs endMs ∩ Finset.Ico speaker.startMs speaker.endMs).card

omit [LinearOrder K] in
theorem overlap_eq (startMs endMs : ℤ) (speaker : SpeakerSegment K) :
    overlap startMs endMs speaker = sharedMs startMs endMs speaker := by
  rw [sharedMs,Finset.Ico_inter_Ico,Int.card_Ico]
  unfold overlap
  omega

/-- What `align_speaker` compares: the overlap, then the similarity. -/
noncomputable def rank (startMs endMs : ℤ) (speaker : SpeakerSegment K) : ℕ ×ₗ K :=
  toLex (sharedMs startMs endMs speaker,speaker.similarity)

/-- What the loop has found in the segments it has seen. -/
inductive Found (startMs endMs : ℤ) (seen : List (SpeakerSegment K)) :
    Option (SpeakerSegment K) × ℤ → Prop
  | nobody (h : ∀ speaker ∈ seen, sharedMs startMs endMs speaker = 0) :
      Found startMs endMs seen (none,0)
  | somebody (best : SpeakerSegment K) (h : FirstGreatest (rank startMs endMs) seen best)
      (hpos : 0 < sharedMs startMs endMs best) :
      Found startMs endMs seen (some best,sharedMs startMs endMs best)

variable {startMs endMs : ℤ}

theorem keepBetter_none (speaker : SpeakerSegment K) : keepBetter startMs endMs (none,0) speaker =
    if 0 < sharedMs startMs endMs speaker then (some speaker,(sharedMs startMs endMs speaker : ℤ))
    else (none,0) := by
  simp [keepBetter,overlap_eq]

theorem keepBetter_some (best speaker : SpeakerSegment K) :
    keepBetter startMs endMs (some best,sharedMs startMs endMs best) speaker =
      if rank startMs endMs best < rank startMs endMs speaker then
        (some speaker,(sharedMs startMs endMs speaker : ℤ))
      else (some best,(sharedMs startMs endMs best : ℤ)) := by
  simp [keepBetter,overlap_eq,rank,Prod.Lex.toLex_lt_toLex,eq_comm]

theorem Found.step {seen : List (SpeakerSegment K)} {found : Option (SpeakerSegment K) × ℤ}
    (h : Found startMs endMs seen found) (speaker : SpeakerSegment K) :
    Found startMs endMs (seen ++ [speaker]) (keepBetter startMs endMs found speaker) := by
  cases h with
  | nobody h =>
    rw [keepBetter_none]
    split
    · rename_i hpos
      refine .somebody speaker (.last fun earlier hearlier => ?_) hpos
      exact Prod.Lex.toLex_lt_toLex.mpr (.inl ((h earlier hearlier).trans_lt hpos))
    · rename_i hzero
      constructor
      intro other hother
      rcases List.mem_append.mp hother with hother | hother
      · exact h other hother
      · rw [List.mem_singleton.mp hother]
        omega
  | somebody best h hpos =>
    rw [keepBetter_some]
    split
    · rename_i hlt
      have hmore : sharedMs startMs endMs best ≤ sharedMs startMs endMs speaker := by
        rcases Prod.Lex.toLex_lt_toLex.mp hlt with hless | ⟨heq,-⟩
        · exact hless.le
        · exact heq.le
      have hlast := fun earlier hearlier => (h.le earlier hearlier).trans_lt hlt
      exact .somebody speaker (.last hlast) (hpos.trans_le hmore)
    · rename_i hle
      exact .somebody best (h.concat (not_lt.mp hle)) hpos

theorem found_winner (startMs endMs : ℤ) (speakers : List (SpeakerSegment K)) :
    Found startMs endMs speakers (winner startMs endMs speakers) := by
  induction speakers using List.reverseRecOn with
  | nil => exact .nobody (by simp)
  | append_singleton seen speaker ih =>
    rw [winner,List.foldl_append]
    exact ih.step speaker

/-- The overlap and the similarity found are those of the best rank in the list. -/
theorem winner_perm {speakers others : List (SpeakerSegment K)} (h : others.Perm speakers) :
    (winner startMs endMs others).2 = (winner startMs endMs speakers).2 ∧
    (winner startMs endMs others).1.map SpeakerSegment.similarity =
      (winner startMs endMs speakers).1.map SpeakerSegment.similarity := by
  have hothers := found_winner startMs endMs others
  have hspeakers := found_winner startMs endMs speakers
  generalize winner startMs endMs others = found at hothers ⊢
  generalize winner startMs endMs speakers = found' at hspeakers ⊢
  cases hothers with
  | nobody hnone =>
    cases hspeakers with
    | nobody => exact ⟨rfl,rfl⟩
    | somebody best hbest hpos => exact absurd (hnone best (h.mem_iff.mpr hbest.mem)) hpos.ne'
  | somebody best hbest hpos =>
    cases hspeakers with
    | nobody hnone => exact absurd (hnone best (h.mem_iff.mp hbest.mem)) hpos.ne'
    | somebody other hother =>
      have hrank := hbest.key_eq hother (fun _ => h.mem_iff)
      simp only [rank,EmbeddingLike.apply_eq_iff_eq,Prod.mk.injEq] at hrank
      simp [hrank]

/-- The result of `align_speaker` is the lexicographic maximum of overlap and similarity, the
earliest segment if several reach it. -/
theorem align_speaker_maximum (segmentId : SegmentId) (text : PyStr) (startMs endMs : ℤ)
    (speakers : List (SpeakerSegment K)) :
    let attributed := alignSpeaker segmentId text startMs endMs speakers
    ((attributed.overlapMs = 0 ∧ attributed.speakerId = none) ↔
      ∀ speaker ∈ speakers, sharedMs startMs endMs speaker = 0) ∧
    ((∃ speaker ∈ speakers, 0 < sharedMs startMs endMs speaker) → ∃ best ∈ speakers,
      (winner startMs endMs speakers).1 = some best ∧
      attributed.overlapMs = sharedMs startMs endMs best ∧
      attributed.speakerId = some best.speakerId ∧
      (∀ speaker ∈ speakers, sharedMs startMs endMs speaker ≤ sharedMs startMs endMs best) ∧
      FirstGreatest SpeakerSegment.similarity (speakers.filter (fun speaker =>
        sharedMs startMs endMs speaker = sharedMs startMs endMs best)) best) ∧
    ∀ others : List (SpeakerSegment K), others.Perm speakers →
      (alignSpeaker segmentId text startMs endMs others).overlapMs = attributed.overlapMs ∧
      (winner startMs endMs others).1.map SpeakerSegment.similarity =
        (winner startMs endMs speakers).1.map SpeakerSegment.similarity := by
  intro attributed
  have hfound := found_winner startMs endMs speakers
  have hattributed : attributed.overlapMs = (winner startMs endMs speakers).2 ∧
      attributed.speakerId = (winner startMs endMs speakers).1.map SpeakerSegment.speakerId :=
    ⟨rfl,rfl⟩
  refine ⟨?_,?_,fun others hothers => winner_perm hothers⟩
  · rw [hattributed.1,hattributed.2]
    generalize winner startMs endMs speakers = found at hfound ⊢
    cases hfound with
    | nobody hnone => simpa using hnone
    | somebody best hbest hpos =>
      constructor
      · rintro ⟨-,hnobody⟩
        cases hnobody
      · intro hnone
        exact absurd (hnone best hbest.mem) hpos.ne'
  · rintro ⟨speaker,hspeaker,hshared⟩
    rw [hattributed.1,hattributed.2]
    generalize winner startMs endMs speakers = found at hfound ⊢
    cases hfound with
    | nobody hnone => exact absurd (hnone speaker hspeaker) hshared.ne'
    | somebody best hbest hpos =>
      obtain ⟨hgreatest,hearliest⟩ := hbest.of_lex
      exact ⟨best,hbest.mem,rfl,rfl,rfl,hgreatest,hearliest⟩

end Alignment
end CueBee.Speaker
