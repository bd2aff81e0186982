import SimplexBasis.BasisMatrix
import SimplexBasis.Sparse.Singletons

/-!
# Loading

A basis is loaded into the active submatrix by columns and by rows, and its slack columns are
pivoted. The areas are sized by hints or, without hints, by the size of the basis. When the files
cannot hold the basis, the factorization that follows will fail for want of space.
-/

namespace SimplexBasis.SparseFactorization

variable {α : Type} [Scalar α]

/-- Adapt what depends on the dimension. The pivots found so far are kept. -/
def resize (m : Nat) : Action (SparseFactorization α) Unit := do
  checkCapacity (2 * m + 2)
  modify fun s => { s with
    dimension := m
    active := { s.active with
      colCounts := .blank m (m + 2)
      rowCounts := .blank m (m + 2)
      colMax := Array.replicate m 0 }
    factors := { s.factors with
      stageOfRow := Array.replicate m none
      stageOfCol := Array.replicate m none }
    workspace := .blank m }

/-- Announce a basis of dimension `n` whose factors have about the given numbers of entries; zero
leaves a size open. -/
def allocate (n lowerHint upperHint : Nat) : Action (SparseFactorization α) Unit := do
  resize n
  modify fun s => { s with lowerHint := lowerHint, upperHint := upperHint, phase := .idle }

/-- The number of entries of an area, by hint or estimate, scaled by the area factor. -/
def areaOf (s : SparseFactorization α) (hint estimate : Nat) : Nat :=
  Scalar.ceilNat (Scalar.ofNat (if 0 < hint then hint else estimate) * s.areaFactor)

def capacityFor (s : SparseFactorization α) (m count : Nat) : Capacity :=
  let base := 3 * m + 3 * count + 64
  let lower := s.areaOf s.lowerHint base
  let upper := s.areaOf s.upperHint (2 * base)
  { lower := lower, upper := upper, files := upper, etas := max lower m }

/-- Forget the previous basis and size the areas for a new one. -/
def prepare (m count : Nat) : Action (SparseFactorization α) Unit := do
  if m ≠ (← get).dimension then resize m
  let capacity := (← get).capacityFor m count
  checkCapacity capacity.lower
  checkCapacity (2 * capacity.files)
  modify fun s => { s with
    capacity := capacity
    active := { s.active with
      cols := .blank m capacity.files (0, 0)
      rows := .blank m capacity.files 0
      colCounts := .blank m (m + 2)
      rowCounts := .blank m (m + 2) }
    factors := .blank m
    etas := .empty
    phase := .loaded
    pending := none
    sparseThreshold := 0
    counters := { Counters.zero with basisCount := count } }

/-- Spare entries behind the lines of a basis with `count` entries: those of the options if they fit
into the files, and none otherwise. -/
def loadingSpare (s : SparseFactorization α) (count : Nat) : Nat → Nat :=
  let o := s.options
  let padding := Word.mul s.dimension o.pad
  if Word.add (Scalar.truncNat (Scalar.ofNat count * (1 + o.stretch))) padding
      ≤ s.capacity.files then o.spare
  else fun _ => 0

def loadColumn (b : BasisMatrix α) (spare : Nat → Nat) (j : Nat) : Action (Active α) Unit := do
  let entries ← b.column j
  Active.onCols (LineFile.setLine j entries spare)
  Action.require (entries.all fun (i, _) => i < b.dimension) .indexOutOfRange
  Active.setColMax j (← (← get).columnMax j)
  Active.onColCounts (CountLists.add j entries.length)

/-- Load row `i`, which line `i` of the transpose describes. -/
def loadRow (transpose : Compressed α) (spare : Nat → Nat) (i : Nat) : Action (Active α) Unit := do
  let pattern := (← transpose.line i).map Prod.fst
  Active.onRows (LineFile.setLine i pattern spare)
  Active.onRowCounts (CountLists.add i pattern.length)

/-- Load the columns, and from their transpose the rows. -/
def fillFiles (b : BasisMatrix α) : Action (SparseFactorization α) Unit := do
  let m := b.dimension
  let spare := (← get).loadingSpare b.count
  onActive do
    (List.range m).forM (loadColumn b spare)
    let transpose ← b.columns.transpose m
    (List.range m).forM (loadRow transpose spare)
    modify fun a => { a with nonzeros := b.count }

/-- Pivot column `j` if its only entry is plus or minus the slack value and its row is free. -/
def pivotSlack (slack : α) (j : Nat) : Action (SparseFactorization α) Unit := do
  let s ← get
  match ← s.active.cols.line j with
  | [(i, x)] =>
    if Scalar.abs x == slack && !(← isPivoted s.factors.stageOfRow i) then
      let _ ← pivotColumnSingleton i j
      updateCounters fun c => { c with slacks := c.slacks + 1 }
  | _ => pure ()

def pivotSlacks : Action (SparseFactorization α) Unit := do
  let slack := Scalar.abs (← get).options.slackValue
  if slack == 0 then return
  (List.range (← get).dimension).forM (pivotSlack slack)

/-- Run one step of loading; what it fails with is left pending. Answers whether it succeeded. -/
def orPending (act : Action (SparseFactorization α) Unit) :
    Action (SparseFactorization α) Bool := do
  match ← Action.attempt act with
  | .ok () => return true
  | .error (.status status) =>
    modify fun s => { s with pending := some status }
    return false
  | .error e => throw e

/-- Load a basis. The previous one is discarded with its column replacements. -/
def load (b : BasisMatrix α) : Action (SparseFactorization α) Unit := do
  prepare b.dimension b.count
  let capacity := (← get).capacity.files
  if capacity < b.count then
    let count := b.count
    log .trace s!"basis with {count} entries exceeds area of {capacity}"
    modify fun s => { s with pending := some .outOfMemory }
  else if ← orPending (fillFiles b) then
    let _ ← orPending pivotSlacks

end SimplexBasis.SparseFactorization
