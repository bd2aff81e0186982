import SimplexBasis.Word

/-!
# Scalars

The arithmetic of the library. Every algorithm is written once over `Scalar α` and fixes the order
of its operations, so that it has one reading in double precision (`Float`) and one without
rounding (`Rat`).
-/

namespace SimplexBasis

/-- An ordered arithmetic with the conversions to natural numbers that storage estimates need. -/
class Scalar (α : Type) extends Zero α, One α, Add α, Sub α, Mul α, Div α, Neg α, BEq α, LT α,
    LE α, OfScientific α where
  decidableLT : DecidableLT α
  decidableLE : DecidableLE α
  abs : α → α
  /-- The scalar nearest to a natural number. -/
  ofNat : Nat → α
  /-- The smallest normal positive scalar, the least tolerance that is accepted. -/
  minPositive : α
  emptySum : α
  /-- Neither infinite nor undefined. -/
  isFinite : α → Bool
  /-- The scalar without its fraction as a word count: nothing below zero, at most the largest
  word. -/
  truncNat : α → Nat
  /-- The scalar rounded up as a word count, in the same range. -/
  ceilNat : α → Nat

namespace Scalar

variable {α : Type} [Scalar α]

instance : DecidableLT α := decidableLT

instance : DecidableLE α := decidableLE

/-- The larger of two scalars, the second one if they are equal; a scalar that is not equal to
itself never wins. -/
@[specialize] def max (x y : α) : α :=
  if y < x || y != y then x else y

/-- The smaller of two scalars, the second one if they are equal; a scalar that is not equal to
itself never wins. -/
@[specialize] def min (x y : α) : α :=
  if x < y || y != y then x else y

/-- The scalar of the interval nearest to `x`; a scalar that is not equal to itself stays. -/
@[specialize] def clamp (x low high : α) : α :=
  if x < low then low else if high < x then high else x

/-- The terms added from left to right. -/
@[specialize] def sum (terms : List α) : α :=
  terms.foldl (· + ·) emptySum

end Scalar

/-- Double precision. An empty sum is the negative zero, which leaves every first term as it is. -/
instance : Scalar Float where
  decidableLT := inferInstance
  decidableLE := inferInstance
  abs := Float.abs
  ofNat := Float.ofNat
  minPositive := Float.ofBits 0x0010000000000000
  emptySum := -0.0
  isFinite := Float.isFinite
  truncNat x := x.toUInt64.toNat
  ceilNat x := x.ceil.toUInt64.toNat

instance : Scalar Rat where
  zero := 0
  one := 1
  decidableLT := inferInstance
  decidableLE := inferInstance
  abs := Rat.abs
  ofNat n := n
  minPositive := mkRat 1 (1 <<< 1022)
  emptySum := 0
  isFinite _ := true
  truncNat x := min x.floor.toNat Word.last
  ceilNat x := min x.ceil.toNat Word.last

end SimplexBasis
