import SimplexBasis.Scalar

/-!
# Options

Tuning parameters of the factorizations and of the policy that chooses between them.
-/

namespace SimplexBasis

/-- Tuning parameters. -/
structure Options (α : Type) where
  /-- A pivot has at least this share of the largest magnitude in its column. -/
  pivotTolerance : α
  /-- Replaces `pivotTolerance` in the one repetition of a search that found no pivot. -/
  relaxedPivotTolerance : α
  /-- Entries that are not larger are dropped during elimination, and a column replacement with a
  smaller pivot is refused. -/
  zeroTolerance : α
  /-- A pivot has at least this magnitude unless the search is repeated. -/
  absolutePivotTolerance : α
  /-- Factor by which areas grow after a factorization ran out of space. -/
  areaGrowthFactor : α
  /-- Scale of the area estimates at the start. -/
  initialAreaFactor : α
  /-- A remaining block that is dense enough is factorized densely when its dimension exceeds this
  value; never, if there is none. -/
  denseBreakoverThreshold : Option Nat
  /-- The breakover is considered after every so many pivots. -/
  denseCheckInterval : Nat
  /-- Bases up to this dimension are factorized densely throughout. -/
  denseDimensionLimit : Nat
  /-- Number of column replacements that fill the update region. -/
  maxPivotsBeforeRefactor : Nat
  /-- The entry of a slack column. -/
  slackValue : α
  /-- The pivot search ends after so many rows and columns once it has a candidate. -/
  maxSearch : Nat
  /-- Whether the pivot search looks at rows besides columns. -/
  searchRows : Bool
  /-- Column singletons come before row singletons unless it is negative. -/
  singletonBias : Int
  /-- Spare entries given to a line that is moved, besides its stretch. -/
  pad : Nat
  /-- Spare entries given to a line that is moved, as a share of its length. -/
  stretch : α
  /-- Number of lines from which an update may be shared between workers. It never changes a
  result. -/
  parallelThreshold : Nat
  /-- Right-hand sides with at most so many nonzeros are solved on their reach; chosen from the
  dimension if there is none. -/
  sparseThreshold : Option Nat
  /-- Number of factorizations tried for one basis. -/
  maxRetries : Nat
  deriving BEq

namespace Options

variable {α : Type} [Scalar α]

def standard : Options α where
  pivotTolerance := 0.1
  relaxedPivotTolerance := 0.01
  zeroTolerance := 1e-13
  absolutePivotTolerance := 1e-11
  areaGrowthFactor := 2.0
  initialAreaFactor := 1.0
  denseBreakoverThreshold := some 71
  denseCheckInterval := 4
  denseDimensionLimit := 16
  maxPivotsBeforeRefactor := 200
  slackValue := 1.0
  maxSearch := 4
  searchRows := true
  singletonBias := 1
  pad := 4
  stretch := 0.3
  parallelThreshold := 64
  sparseThreshold := none
  maxRetries := 8

/-- The factor by which areas grow, between 1.1 and 2.5. -/
def growthFactor (o : Options α) : α := Scalar.clamp o.areaGrowthFactor 1.1 2.5

/-- The pivot tolerance as a positive share. -/
def pivotShare (o : Options α) : α := Scalar.clamp o.pivotTolerance Scalar.minPositive 1

def checkInterval (o : Options α) : Nat := max o.denseCheckInterval 1

/-- Spare entries that a line of `length` entries gets behind it when it is moved. -/
def spare (o : Options α) (length : Nat) : Nat :=
  Word.add (Scalar.truncNat (o.stretch * Scalar.ofNat length)) o.pad

end Options

end SimplexBasis
