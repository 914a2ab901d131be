import Mathlib.Data.Rat.Defs
import Mathlib.Algebra.Order.Ring.Rat
import Mathlib.Order.WithBot

/-! # Floats

`FloatOps` lists the operations on floats that sources use, with no laws: a definition over it
can be read with rational or real numbers and with the binary floats of Python. An integer
becomes a float in one operation only, which may fail: Python raises `OverflowError` there.
-/
namespace CueBee

class FloatOps (K : Type) extends Add K, Sub K, Mul K, Div K where
  /-- `float(n)`, also where an operator has one integer operand; `none` is `OverflowError`. -/
  ofInt : ℤ → Option K
  /-- A literal, or the quotient of two integers. -/
  ofRat : ℚ → K
  le : K → K → Bool
  lt : K → K → Bool

namespace FloatOps
variable {K : Type} [FloatOps K]

def eq (x y : K) : Bool := le x y && le y x

/-- `max(x, y)`, which is `x` unless `y` is greater. -/
def max (x y : K) : K := if lt x y = true then y else x

/-- `min(x, y)`, which is `x` unless `y` is smaller. -/
def min (x y : K) : K := if lt y x = true then y else x

/-- `low <= x <= high`. -/
def between (low high : ℚ) (x : K) : Bool := le (ofRat low) x && le x (ofRat high)

end FloatOps

/-- Exact arithmetic: no integer is too large. -/
instance exactRational : FloatOps ℚ where
  ofInt n := some n
  ofRat q := q
  le x y := x ≤ y
  lt x y := x < y

theorem FloatOps.max_exact (x y : ℚ) : FloatOps.max x y = Max.max x y := by
  unfold FloatOps.max
  split
  · next h => exact (max_eq_right (of_decide_eq_true h).le).symm
  · next h => exact (max_eq_left (not_lt.mp (mt decide_eq_true h))).symm

/-- The values of Python's `float`: finite ones are rational numbers. -/
inductive PyFloat
  | nan
  | negInf
  | fin (q : ℚ)
  | posInf
deriving DecidableEq

namespace PyFloat

/-- The quotient of two natural numbers, rounded to the nearest one, and to an even one from the
middle between two. -/
def nearest (m n : ℕ) : ℕ :=
  if 2 * (m % n) < n ∨ (2 * (m % n) = n ∧ (m / n) % 2 = 0) then m / n else m / n + 1

/-- The greatest `e` with `2 ^ e` at most the positive number `m / n`. -/
def binaryExponent (m n : ℕ) : ℤ :=
  let e : ℤ := (m.log2 : ℤ) - n.log2
  if m * 2 ^ (-e).toNat < n * 2 ^ e.toNat then e - 1 else e

/-- The magnitude `m / n` as a multiple of a unit in the last place: 53 binary digits, fewer below
`2 ^ -1022`. -/
def roundMagnitude (m n : ℕ) : ℚ :=
  let unit : ℤ := max (binaryExponent m n - 52) (-1074)
  mkRat (nearest (m * 2 ^ (-unit).toNat) (n * 2 ^ unit.toNat) * 2 ^ unit.toNat) (2 ^ (-unit).toNat)

/-- The binary float nearest to a number. -/
@[irreducible] def round (q : ℚ) : PyFloat :=
  let magnitude := roundMagnitude q.num.natAbs q.den
  if magnitude < 2 ^ 1024 then .fin (if q < 0 then -magnitude else magnitude)
  else if q < 0 then .negInf else .posInf

/-- `x <= y` on floats; every comparison with a NaN is false. -/
def le : PyFloat → PyFloat → Bool
  | .nan, _ | _, .nan => false
  | .negInf, _ | _, .posInf => true
  | _, .negInf | .posInf, _ => false
  | .fin q, .fin r => q ≤ r

def lt : PyFloat → PyFloat → Bool
  | .nan, _ | _, .nan => false
  | .posInf, _ | _, .negInf => false
  | .negInf, _ | _, .posInf => true
  | .fin q, .fin r => q < r

def neg : PyFloat → PyFloat
  | .nan => .nan
  | .negInf => .posInf
  | .fin q => .fin (-q)
  | .posInf => .negInf

def add : PyFloat → PyFloat → PyFloat
  | .nan, _ | _, .nan => .nan
  | .negInf, .posInf | .posInf, .negInf => .nan
  | .negInf, _ | _, .negInf => .negInf
  | .posInf, _ | _, .posInf => .posInf
  | .fin q, .fin r => round (q + r)

/-- An infinity times a number of this sign. -/
def scaledInfinity (x : PyFloat) (r : ℚ) : PyFloat :=
  if r = 0 then .nan else if r < 0 then neg x else x

def mul : PyFloat → PyFloat → PyFloat
  | .nan, _ | _, .nan => .nan
  | .fin q, .fin r => round (q * r)
  | x, .fin r => scaledInfinity x r
  | .fin q, x => scaledInfinity x q
  | x, .negInf => neg x
  | x, .posInf => x

/-- The divisors of the sources are never zero. -/
def div : PyFloat → PyFloat → PyFloat
  | .nan, _ | _, .nan => .nan
  | .fin q, .fin r => round (q / r)
  | .fin _, _ => .fin 0
  | x, .fin r => if r < 0 then neg x else x
  | _, _ => .nan

/-- The integers from half a unit above the greatest finite float on round to infinity. -/
def intLimit : ℕ := 2 ^ 1024 - 2 ^ 970

@[irreducible] def ofInt (n : ℤ) : Option PyFloat := if n.natAbs < intLimit then some (round n) else none

instance : FloatOps PyFloat where
  add := add
  sub x y := add x (neg y)
  mul := mul
  div := div
  ofInt := ofInt
  ofRat := round
  le := le
  lt := lt

@[simp] theorem ofInt_eq_none {n : ℤ} :
    (FloatOps.ofInt n : Option PyFloat) = none ↔ intLimit ≤ n.natAbs := by
  show ofInt n = none ↔ _
  unfold ofInt
  split
  · next h => simp [h]
  · next h => simpa using h

/-- The place of a float among the others, which a NaN has not. -/
def rank : PyFloat → WithBot (WithTop ℚ)
  | .nan | .negInf => ⊥
  | .fin q => (q : WithTop ℚ)
  | .posInf => (⊤ : WithTop ℚ)

theorem lt_iff {x y : PyFloat} :
    FloatOps.lt x y = true ↔ x ≠ .nan ∧ y ≠ .nan ∧ rank x < rank y := by
  show lt x y = true ↔ _
  cases x <;> cases y <;> simp [lt,rank,lt_top_iff_ne_top]

example : (FloatOps.ofInt (2 ^ 53 + 1) : Option PyFloat) = some (.fin (2 ^ 53)) := by decide +kernel

end PyFloat
end CueBee
