import SimplexBasis.Sparse.State

/-!
# Basis positions

After a factorization each pivoted column has a position, its pivot row. Columns and rows without a
pivot are paired for a repair by slacks.
-/

namespace SimplexBasis.SparseFactorization

variable {α : Type} [Scalar α]

/-- The number of nonzeros up to which right-hand sides are solved on their reach: what the options
say, or a value chosen by the dimension and the fill of the factors. -/
def tunedThreshold (s : SparseFactorization α) : Nat :=
  match s.options.sparseThreshold with
  | some threshold => threshold
  | none =>
    let m := s.dimension
    let fill : α := Scalar.ofNat (s.counters.lowerCount + s.counters.upperCount)
    if Scalar.ofNat m * Scalar.ofNat m / 4.0 < fill then 0
    else if 10000 ≤ m then 1000
    else if 300 < m then min (m / 6) 500
    else 0

/-- Build the transposed factors, unless there are none to build or they are built already. -/
def buildTransposes : Action (SparseFactorization α) Unit := do
  let s ← get
  if s.phase ≠ .factorized ∨ s.factors.transposes.isSome then return
  let factors ← s.factors.withTransposes s.dimension
  let threshold := s.tunedThreshold
  updateFactors fun _ => factors
  modify fun s => { s with sparseThreshold := threshold }
  log .trace s!"sparse solves for right-hand sides up to {threshold} nonzeros"

/-- Write the variable of each pivoted column to the position of the column. Also prepares the
solves. -/
def assign (sequence heading : Array Nat) : Action (SparseFactorization α) (Array Nat) := do
  let f := (← get).factors
  let heading ← (List.range f.rank).foldlM (fun vs k => do
    (withEntry vs (← entry f.pivotRows k) (← entry sequence (← entry f.pivotCols k)) :
      Checked (Array Nat))) heading
  buildTransposes
  return heading

/-- Pairs of a column without a pivot and a row without one, both ascending. -/
def slackPairs (s : SparseFactorization α) : List (Nat × Nat) :=
  (Factors.unpivoted s.factors.stageOfCol).zip (Factors.unpivoted s.factors.stageOfRow)

/-- Change the scale of the areas, from the next basis on. -/
def setAreaFactor (x : α) : Action (SparseFactorization α) Unit := do
  Action.require (0 < x) .invalidAreaFactor
  modify fun s => { s with areaFactor := x }

end SimplexBasis.SparseFactorization
