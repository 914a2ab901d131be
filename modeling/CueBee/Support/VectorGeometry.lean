import Mathlib.Algebra.BigOperators.Group.List.Basic
import Mathlib.Algebra.Order.Field.Basic
import Mathlib.Data.List.Zip
import Mathlib.Tactic.FieldSimp
import Mathlib.Tactic.Linarith
import Mathlib.Tactic.Ring

/-! # Vectors as lists of coordinates

Inner products of lists over an ordered field. A vector is `Round` if it is a unit vector or
zero; two of them have an inner product between -1 and 1, and a weighted sum of two that are
not opposite does not vanish.
-/
namespace CueBee.VectorGeometry

variable {K : Type*} [Field K]

def dot (a b : List K) : K := (List.zipWith (· * ·) a b).sum

/-- `x` times the first vector plus `y` times the second. -/
def mix (x y : K) (a b : List K) : List K := List.zipWith (fun p q => x * p + y * q) a b

@[simp] theorem dot_nil_left (b : List K) : dot [] b = 0 := by simp [dot]
@[simp] theorem dot_nil_right (a : List K) : dot a [] = 0 := by simp [dot]
@[simp] theorem dot_cons (p q : K) (a b : List K) : dot (p :: a) (q :: b) = p * q + dot a b := by
  simp [dot]

theorem dot_comm (a b : List K) : dot a b = dot b a := by
  induction a generalizing b with
  | nil => simp
  | cons p a ih =>
    cases b with
    | nil => simp
    | cons q b => rw [dot_cons,dot_cons,ih,mul_comm]

theorem dot_map_div (n : K) (a : List K) :
    dot (a.map (· / n)) (a.map (· / n)) = dot a a / (n * n) := by
  induction a with
  | nil => simp
  | cons p a ih =>
    rw [List.map_cons,dot_cons,dot_cons,ih,add_div,div_mul_div_comm]

/-- The binomial formula. -/
theorem dot_mix (x y : K) {a b : List K} (h : a.length = b.length) :
    dot (mix x y a b) (mix x y a b) = x * x * dot a a + 2 * x * y * dot a b + y * y * dot b b := by
  induction a generalizing b with
  | nil =>
    cases b with
    | nil => simp [mix]
    | cons q b => cases h
  | cons p a ih =>
    cases b with
    | nil => cases h
    | cons q b =>
      have hrest := ih (Nat.succ.inj h)
      rw [show mix x y (p :: a) (q :: b) = (x * p + y * q) :: mix x y a b from rfl]
      rw [dot_cons,hrest,dot_cons,dot_cons,dot_cons]
      ring

theorem dot_eq_zero_of_left {a : List K} (h : ∀ p ∈ a, p = 0) (b : List K) : dot a b = 0 := by
  induction a generalizing b with
  | nil => simp
  | cons p a ih =>
    cases b with
    | nil => simp
    | cons q b =>
      rw [dot_cons,h p List.mem_cons_self,zero_mul,zero_add]
      exact ih (fun r hr => h r (List.mem_cons_of_mem _ hr)) b

section Ordered
variable [LinearOrder K] [IsStrictOrderedRing K]

theorem dot_self_nonneg (a : List K) : 0 ≤ dot a a := by
  induction a with
  | nil => simp
  | cons p a ih =>
    rw [dot_cons]
    exact add_nonneg (mul_self_nonneg p) ih

theorem dot_self_eq_zero {a : List K} : dot a a = 0 ↔ ∀ p ∈ a, p = 0 := by
  induction a with
  | nil => simp
  | cons p a ih =>
    rw [dot_cons,add_eq_zero_iff_of_nonneg (mul_self_nonneg p) (dot_self_nonneg a),ih,
      mul_self_eq_zero]
    simp

/-- Cauchy and Schwarz. -/
theorem dot_mul_self_le {a b : List K} (h : a.length = b.length) :
    dot a b * dot a b ≤ dot a a * dot b b := by
  -- the vector (b·b) a - (a·b) b has a square that is not negative
  have hsquare := dot_self_nonneg (mix (dot b b) (-dot a b) a b)
  rw [dot_mix _ _ h] at hsquare
  have hfactor : 0 ≤ dot b b * (dot a a * dot b b - dot a b * dot a b) := by
    refine le_of_le_of_eq hsquare ?_
    ring
  rcases (dot_self_nonneg b).eq_or_lt with hzero | hpos
  · have hb := dot_self_eq_zero.mp hzero.symm
    rw [dot_comm a b,dot_eq_zero_of_left hb,← hzero]
    simp
  · have hle := nonneg_of_mul_nonneg_right hfactor hpos
    linarith

/-- A unit vector or the zero vector. -/
def Round (a : List K) : Prop := dot a a = 1 ∨ dot a a = 0

theorem Round.dot_bounds {a b : List K} (ha : Round a) (hb : Round b) (h : a.length = b.length) :
    -1 ≤ dot a b ∧ dot a b ≤ 1 := by
  have hle : dot a b * dot a b ≤ 1 := by
    refine (dot_mul_self_le h).trans ?_
    rcases ha with ha | ha <;> rcases hb with hb | hb <;> rw [ha,hb] <;> simp
  constructor <;> nlinarith

/-- A unit vector is not cancelled by a round vector that is not its opposite. -/
theorem Round.mix_ne_zero {a b : List K} (ha : dot a a = 1) (hb : Round b)
    (h : a.length = b.length) (hdot : -1 < dot a b) {x y : K} (hx : 0 < x) (hy : 0 < y) :
    dot (mix x y a b) (mix x y a b) ≠ 0 := by
  rw [dot_mix x y h,ha]
  have hxy := mul_pos hx hy
  rcases hb with hb | hb
  · -- (x - y)² + 2 x y (1 + a·b)
    have hopen : 0 < x * y * (1 + dot a b) := mul_pos hxy (by linarith)
    rw [hb]
    nlinarith [mul_self_nonneg (x - y)]
  · have hzero : dot a b = 0 := by
      rw [dot_comm]
      exact dot_eq_zero_of_left (dot_self_eq_zero.mp hb) a
    rw [hb,hzero]
    nlinarith [mul_pos hx hx]

end Ordered
end CueBee.VectorGeometry
