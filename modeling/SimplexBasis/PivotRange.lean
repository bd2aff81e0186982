import SimplexBasis.Scalar

/-!
# Pivot magnitudes

The smallest and the largest magnitude among the pivots of a factorization.
-/

namespace SimplexBasis

/-- The range of the pivot magnitudes seen so far. -/
structure PivotRange (α : Type) where
  least : Option α
  largest : α

namespace PivotRange

variable {α : Type} [Scalar α]

def empty : PivotRange α := ⟨none, 0⟩

/-- The range with one more magnitude. One that is not equal to itself changes nothing. -/
def extend (r : PivotRange α) (magnitude : α) : PivotRange α where
  least :=
    match r.least with
    | none => if magnitude == magnitude then some magnitude else none
    | some x => some (Scalar.min x magnitude)
  largest := Scalar.max r.largest magnitude

/-- The smallest over the largest magnitude; zero if no pivot is positive. -/
def ratio (r : PivotRange α) : α :=
  match r.least with
  | some x => if 0 < r.largest then x / r.largest else 0
  | none => 0

end PivotRange

end SimplexBasis
