import Mathlib.Analysis.Real.Sqrt
import CueBee.Support.VectorGeometry
import CueBee.Speaker.SoloSpeakers

/-! # Speaker profiles in exact real arithmetic

The operations of the speaker code on real numbers, and what `normalize`, `cosine_similarity`
and the weighted mean are there.
-/
namespace CueBee.Speaker
open Cache Raising PyStr VectorGeometry

noncomputable instance exactOps : SampleOps ℝ where
  ofInt n := some n
  ofRat q := q
  sum values := values.sum
  sqrt := Real.sqrt
  abs x := |x|
  le x y := decide (x ≤ y)
  lt x y := decide (x < y)

section Operations
variable (x y : ℝ)

@[simp] theorem exact_ofInt (n : ℤ) : FloatOps.ofInt n = some (n : ℝ) := rfl
@[simp] theorem exact_ofRat (q : ℚ) : FloatOps.ofRat q = (q : ℝ) := rfl
@[simp] theorem exact_le : FloatOps.le x y = decide (x ≤ y) := rfl
@[simp] theorem exact_lt : FloatOps.lt x y = decide (x < y) := rfl

theorem exact_eq : FloatOps.eq x y = true ↔ x = y := by
  rw [FloatOps.eq,Bool.and_eq_true,exact_le,exact_le,decide_eq_true_eq,decide_eq_true_eq]
  exact le_antisymm_iff.symm

theorem exact_max : FloatOps.max x y = max x y := by
  unfold FloatOps.max
  by_cases h : x < y
  · simp [h,h.le]
  · simp [h,not_lt.mp h]

theorem exact_between (low high : ℚ) : FloatOps.between low high x = true ↔
    (low : ℝ) ≤ x ∧ x ≤ (high : ℝ) := by
  simp [FloatOps.between]

end Operations

theorem normalize_eq (v : List ℝ) : normalize v =
    if dot v v = 0 then v.map (fun _ => 0) else v.map (· / Real.sqrt (dot v v)) := by
  have hsum : (v.map (fun value => value * value)).sum = dot v v := by
    rw [dot,List.zipWith_self]
  have hzero : FloatOps.eq (Real.sqrt (dot v v)) ((0 : ℚ) : ℝ) = true ↔ dot v v = 0 := by
    rw [exact_eq,Rat.cast_zero,Real.sqrt_eq_zero (dot_self_nonneg v)]
  show (if FloatOps.eq (Real.sqrt (v.map (fun value => value * value)).sum) ((0 : ℚ) : ℝ) = true
    then v.map (fun _ => ((0 : ℚ) : ℝ))
    else v.map (fun value => value / Real.sqrt (v.map (fun value => value * value)).sum)) = _
  rw [hsum]
  simp only [Rat.cast_zero] at hzero ⊢
  simp only [hzero]

theorem length_normalize (v : List ℝ) : (normalize v).length = v.length := by
  rw [normalize_eq]
  split <;> rw [List.length_map]

theorem dot_normalize {v : List ℝ} (h : dot v v ≠ 0) : dot (normalize v) (normalize v) = 1 := by
  rw [normalize_eq,if_neg h,dot_map_div,Real.mul_self_sqrt (dot_self_nonneg v),div_self h]

theorem dot_normalize_zero {v : List ℝ} (h : dot v v = 0) : dot (normalize v) (normalize v) = 0 := by
  rw [normalize_eq,if_pos h]
  exact dot_self_eq_zero.mpr (by simp)

theorem round_normalize (v : List ℝ) : Round (normalize v) := by
  by_cases h : dot v v = 0
  · exact .inr (dot_normalize_zero h)
  · exact .inl (dot_normalize h)

/-- Unit vectors and zero are normalized already. -/
theorem normalize_round {v : List ℝ} (h : Round v) : normalize v = v := by
  rw [normalize_eq]
  rcases h with h | h
  · simp [h]
  · rw [if_pos h]
    refine (List.map_congr_left (fun p hp => ?_)).trans (List.map_id v)
    exact (dot_self_eq_zero.mp h p hp).symm

theorem cosineSimilarity_eq {a b : List ℝ} (h : a.length = b.length) :
    cosineSimilarity a b = some (dot a b) := by
  rw [cosineSimilarity,if_neg (not_not.mpr h)]
  rfl

end CueBee.Speaker
