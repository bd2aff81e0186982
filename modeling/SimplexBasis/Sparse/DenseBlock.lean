import SimplexBasis.Dense.Kernel
import SimplexBasis.Sparse.State

/-!
# The dense block

When the active submatrix is large and full enough, what is left of it is factorized densely in one
piece. Columns in which the dense elimination finds no pivot stay without one.
-/

namespace SimplexBasis.SparseFactorization

variable {α : Type} [Scalar α]

/-- How many times the entries of a block of dimension `left` must exceed its area to call it full.
-/
def fullness (left : Nat) : α :=
  if 2000 < left then 4.0 else if 800 < left then 3.0 else if 256 < left then 2.0 else 1.5

/-- Whether to factorize the rest densely: its dimension exceeds the threshold, it is full enough
and none of its columns is empty. This is considered after every so many pivots only. -/
def denseBlockDue (s : SparseFactorization α) : Checked Bool := do
  let some threshold := s.options.denseBreakoverThreshold | return false
  if s.rank % s.options.checkInterval ≠ 0 then return false
  let left := s.dimension - s.rank
  if left = 0 ∨ left ≤ threshold then return false
  if fullness left * Scalar.ofNat s.active.nonzeros ≤ (Scalar.ofNat (left * left) : α) then
    return false
  let cols := Factors.unpivoted s.factors.stageOfCol
  let nonempty ← cols.filterM fun j => return 0 < (← s.active.cols.length j)
  return nonempty.length == left

/-- The active columns written one behind the other, with the rows in the places of `slot`. The
place of a row that has none is the largest word. -/
def gatherBlock (s : SparseFactorization α) (cols : List Nat) (d : Nat) : Checked (Array α) :=
  cols.zipIdx.foldlM (fun block (j, k) => do
    (← s.active.cols.line j).foldlM (fun block (i, x) => do
      let place := (← entry s.workspace.slot i).getD Word.last
      withEntry block (Word.add (k * d) place) x) block) (Array.replicate (d * d) 0)

/-- Append stage `q` of an eliminated block of dimension `d`, whose rows and columns are those of
the active submatrix. -/
def appendStage (e : Dense.Elimination α) (rows cols : Array Nat) (d q : Nat) :
    Action (SparseFactorization α) Unit := do
  let behind := List.range' (q + 1) (d - (q + 1))
  let row (t : Nat) := rows.getD (e.rows.getD t 0) 0
  let col (t : Nat) := cols.getD (e.cols.getD t 0) 0
  updateFactors fun f => behind.foldl (fun f t =>
    let x := e.block.getD (q * d + t) 0
    if x != 0 then f.pushLower (row t) x else f) f
  updateFactors fun f => behind.foldl (fun f t =>
    let x := e.block.getD (t * d + q) 0
    if x != 0 then f.pushUpper (col t) x else f) f
  closeStage (row q) (col q) (e.block.getD (q * d + q) 0)

def factorizeBlock : Action (SparseFactorization α) Unit := do
  let rows := Factors.unpivoted (← get).factors.stageOfRow
  let cols := Factors.unpivoted (← get).factors.stageOfCol
  let d := rows.length
  Action.require (d == cols.length) .inconsistent
  checkLower (d * (d - 1) / 2)
  checkUpper (d * (d - 1) / 2)
  rows.zipIdx.forM fun (i, k) => setSlot i (some k)
  let block ← (← get).gatherBlock cols d
  rows.forM fun i => setSlot i none
  let e := Dense.eliminate block d d (← get).options.zeroTolerance
  let stage := (← get).rank
  let rank := e.rank
  log .trace s!"dense block of dimension {d} at stage {stage}, rank {rank}"
  (List.range rank).forM (appendStage e rows.toArray cols.toArray d)
  onActive do
    cols.forM fun j => do
      Active.onCols (LineFile.clearLine j)
      Active.onColCounts (CountLists.remove j)
    rows.forM fun i => do
      Active.onRows (LineFile.clearLine i)
      Active.onRowCounts (CountLists.remove i)
    modify fun a => { a with nonzeros := 0 }
  updateCounters fun c => { c with denseSize := d, factorFlops := c.factorFlops + e.flops }

end SimplexBasis.SparseFactorization
