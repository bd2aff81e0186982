import SimplexBasis.Sparse.State
import SimplexBasis.SparseVector

/-!
# Column replacement

A column of the factorized basis is replaced by storing an eta: the solution of the entering column,
divided by its entry at the leaving position.
-/

namespace SimplexBasis.SparseFactorization

variable {α : Type} [Scalar α]

/-- The entries of a column that an eta at `row` stores: those at other rows that are not tiny. -/
def etaEntries (column : SparseVector α) (row : Nat) : List (Nat × α) :=
  column.entries.filter fun (i, x) => i != row && decide (SparseVector.tiny ≤ Scalar.abs x)

/-- Replace the column at position `row` by the one whose solution with the basis is `column`, with
the entry `pivot` at that position. Nothing changes when the replacement is refused. -/
def replaceColumn (column : SparseVector α) (row : Nat) (pivot : α) :
    Action (SparseFactorization α) Unit := do
  let s ← get
  if s.phase ≠ .factorized then Action.fail .invalidCall
  Action.require (row < s.dimension) .indexOutOfRange
  let stored := etaEntries column row
  let pivots := s.pivots
  let count := s.etas.lines.count
  if s.options.maxPivotsBeforeRefactor ≤ pivots ∨ s.capacity.etas < count + stored.length then
    log .warn s!"update region full after {pivots} replacements ({count} eta entries)"
    Action.fail .updateRegionFull
  if Scalar.abs pivot < s.options.zeroTolerance then
    log .warn "column replacement rejected"
    Action.fail .singularUpdate
  let inverse := 1 / pivot
  modify fun s => { s with etas := {
    lines := s.etas.lines.pushLine (stored.map fun (i, x) => (i, x * inverse))
    rows := s.etas.rows.push row
    inverses := s.etas.inverses.push inverse } }

end SimplexBasis.SparseFactorization
