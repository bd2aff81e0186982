import SimplexBasis.Scalar

/-!
# Dense elimination

Gaussian elimination with partial pivoting on a square block that is stored column by column in an
array, `lead` elements per column. On return rows and columns stand in the order of elimination:
before the rank, column `k` holds the multipliers of stage `k` below the diagonal, and the entries
of the upper factor are on and above the diagonal of all columns. A column without an acceptable
pivot is moved behind the others and takes no part as a pivot column.
-/

namespace SimplexBasis.Dense

/-- A block under elimination. -/
structure Elimination (α : Type) where
  /-- The block, column by column. -/
  block : Array α
  /-- The row of the original block that stands at each place. -/
  rows : Array Nat
  cols : Array Nat
  rank : Nat
  flops : Nat

variable {α : Type} [Scalar α]

/-- The place of the entry of largest magnitude in column `k` from the diagonal down, the first one
if there are several, and that magnitude. -/
@[specialize] def largestBelow (block : Array α) (m lead k : Nat) : Nat × α :=
  (List.range' k (m - k)).foldl (fun best i =>
    let x := Scalar.abs (block.getD (k * lead + i) 0)
    if best.2 < x then (i, x) else best) (k, 0)

@[specialize] def swapColumns (block : Array α) (m lead j k : Nat) : Array α :=
  (List.range m).foldl (fun a i => a.swapIfInBounds (j * lead + i) (k * lead + i)) block

@[specialize] def swapRows (block : Array α) (m lead i k : Nat) : Array α :=
  (List.range m).foldl (fun a j => a.swapIfInBounds (j * lead + i) (j * lead + k)) block

/-- Column `k` below the diagonal divided by the pivot. -/
@[specialize] def scaleColumn (block : Array α) (m lead k : Nat) : Array α :=
  let inverse := 1 / block.getD (k * lead + k) 0
  (List.range' (k + 1) (m - (k + 1))).foldl (fun a i =>
    a.setIfInBounds (k * lead + i) (a.getD (k * lead + i) 0 * inverse)) block

/-- The multipliers of column `k`, times the entry of column `j` in the pivot row, subtracted from
column `j`. -/
@[specialize] def reduceColumn (m lead k : Nat) (block : Array α) (j : Nat) : Array α :=
  let u := block.getD (j * lead + k) 0
  if u != 0 then
    (List.range' (k + 1) (m - (k + 1))).foldl (fun a i =>
      a.setIfInBounds (j * lead + i)
        (a.getD (j * lead + i) 0 - a.getD (k * lead + i) 0 * u)) block
  else block

namespace Elimination

def start (block : Array α) (m : Nat) : Elimination α :=
  ⟨block, Array.range m, Array.range m, 0, 0⟩

/-- The column of the next stage moved to place `last`. -/
@[specialize] def postpone (m lead last : Nat) : Elimination α → Elimination α
  | ⟨block, rows, cols, k, flops⟩ =>
    if k = last then ⟨block, rows, cols, k, flops⟩
    else ⟨swapColumns block m lead k last, rows, cols.swapIfInBounds k last, k, flops⟩

@[specialize] def stage (m lead p : Nat) : Elimination α → Elimination α
  | ⟨block, rows, cols, k, flops⟩ =>
    let (block, rows) :=
      if p = k then (block, rows) else (swapRows block m lead p k, rows.swapIfInBounds p k)
    let block := scaleColumn block m lead k
    let block := (List.range' (k + 1) (m - (k + 1))).foldl (reduceColumn m lead k) block
    ⟨block, rows, cols, k + 1, flops + (m - k - 1) * (m - k - 1 + 1)⟩

/-- Elimination of a block of which `remaining` columns are still to be looked at. -/
@[specialize] def run (m lead : Nat) (tolerance : α) : Nat → Elimination α → Elimination α
  | 0, e => e
  | remaining + 1, e =>
    let (p, magnitude) := largestBelow e.block m lead e.rank
    if magnitude ≤ tolerance then
      run m lead tolerance remaining (e.postpone m lead (e.rank + remaining))
    else run m lead tolerance remaining (e.stage m lead p)

end Elimination

/-- Eliminate the `m` by `m` block at the front of an array, accepting pivots of magnitude above the
tolerance only. -/
@[specialize] def eliminate (block : Array α) (m lead : Nat) (tolerance : α) : Elimination α :=
  Elimination.run m lead tolerance m (.start block m)

end SimplexBasis.Dense
