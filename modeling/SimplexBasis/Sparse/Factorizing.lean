import SimplexBasis.Sparse.DenseBlock
import SimplexBasis.Sparse.Elimination
import SimplexBasis.Sparse.PivotSearch

/-!
# Factorizing

The loaded basis is factorized by singletons first and then by searched pivots, until no row is
left, the rest is factorized densely, or no acceptable pivot remains. A search without result is
repeated once with relaxed tolerances before the remaining columns are given up.
-/

namespace SimplexBasis.SparseFactorization

variable {α : Type} [Scalar α]

/-- Log compressions of the files since `seen` of them; answers their number. -/
def logCompressions (seen : Nat) : Action (SparseFactorization α) Nat := do
  let s ← get
  if seen < s.compressions then
    let stage := s.rank
    let free ← s.active.cols.freeSpace
    log .trace s!"compressed row and column files at stage {stage}, {free} entries free"
    return s.compressions
  else return seen

/-- Search for a pivot, with relaxed tolerances if need be. -/
def findPivot : Action (SparseFactorization α) (Option (Nat × Nat)) := do
  match ← searchPivot with
  | .ok found => return found
  | .error _ => relaxedSearch

/-- Pivot until nothing is left to do. Every step but the last one adds a pivot. -/
def pivotLoop : Nat → Nat → Action (SparseFactorization α) Unit
  | 0, _ => pure ()
  | remaining + 1, seen => do
    if ← (← get).denseBlockDue then factorizeBlock
    else
      match ← findPivot with
      | none => pure ()
      | some (i, j) =>
        pivotOn i j
        let seen ← logCompressions seen
        pivotLoop remaining seen

/-- Count the entries of the factors and, if all rows are pivoted, put stages in place of rows and
columns. -/
def finishFactors : Action (SparseFactorization α) Unit := do
  let s ← get
  let lower := s.factors.lower.count
  let upper := s.factors.upper.count
  updateCounters fun c => { c with lowerCount := lower, upperCount := upper }
  if s.dimension ≤ s.rank then
    let factors ← s.factors.toStages
    updateFactors fun _ => factors
  else Action.fail .singular

def factorizeLoaded : Action (SparseFactorization α) Unit := do
  let seen := (← get).compressions
  singletons
  let seen ← logCompressions seen
  let s ← get
  pivotLoop (s.dimension - s.rank) seen
  finishFactors

def summary (s : SparseFactorization α) : String :=
  let c := s.counters
  s!"factor m={s.dimension} nnz(B)={c.basisCount} nnz(L)={c.lowerCount} nnz(U)={c.upperCount} " ++
    s!"slacks={c.slacks} singletons={c.singletons} dense={c.denseSize} " ++
    s!"compressions={s.compressions} relaxed={c.relaxed} flops={c.factorFlops}"

def factor (context : Context α) : Action (SparseFactorization α) Unit := do
  modify fun s => { s with logTarget := context.target }
  if let some status := (← get).pending then
    modify fun s => { s with pending := none, phase := .idle }
    let reason := status.message
    log .warn s!"factorization needs larger areas: {reason}"
    Action.fail status
  if (← get).phase ≠ .loaded then Action.fail .invalidCall
  modify fun s => { s with
    absoluteTolerance := s.options.absolutePivotTolerance
    relativeTolerance :=
      Scalar.clamp (context.pivotTolerance s.options.pivotShare) Scalar.minPositive 1
    phase := .idle }
  let outcome ← Action.attempt factorizeLoaded
  modify fun s => { s with factorCount := s.factorCount + 1 }
  let stage := (← get).rank
  match outcome with
  | .ok () =>
    log .debug (← get).summary
    modify fun s => { s with phase := .factorized }
  | .error (.status .singular) =>
    let m := (← get).dimension
    log .warn s!"basis singular, rank {stage} of {m}"
    Action.fail .singular
  | .error (.status status) =>
    let reason := status.message
    log .warn s!"factorization failed at stage {stage}: {reason}"
    Action.fail status
  | .error e => throw e

end SimplexBasis.SparseFactorization
