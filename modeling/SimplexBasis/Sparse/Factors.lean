import SimplexBasis.Compressed
import SimplexBasis.PivotRange

/-!
# Triangular factors

The pivots of a factorization in the order in which they were found, with the columns of the lower
and the rows of the upper factor. While pivots are still being found, the lower factor names rows
and the upper factor names columns; `toStages` replaces both by the stages in which they became
pivots. The diagonal of the lower factor is one and not stored, that of the upper factor is held by
its reciprocals.
-/

namespace SimplexBasis

/-- The factors by rows and by columns of the other kind. -/
structure Transposes (α : Type) where
  lowerRows : Compressed α
  upperCols : Compressed α

/-- Pivots and triangular factors. -/
structure Factors (α : Type) where
  /-- The stage in which each row was pivoted. -/
  stageOfRow : Array (Option Nat)
  stageOfCol : Array (Option Nat)
  pivotRows : Array Nat
  pivotCols : Array Nat
  inverses : Array α
  /-- The columns of the lower factor without the diagonal. -/
  lower : Compressed α
  /-- The rows of the upper factor without the diagonal. -/
  upper : Compressed α
  transposes : Option (Transposes α)

namespace Factors

variable {α : Type} [Scalar α]

def blank (m : Nat) : Factors α where
  stageOfRow := Array.replicate m none
  stageOfCol := Array.replicate m none
  pivotRows := #[]
  pivotCols := #[]
  inverses := #[]
  lower := .empty
  upper := .empty
  transposes := none

def rank (f : Factors α) : Nat := f.pivotRows.size

def pushLower (f : Factors α) (i : Nat) (x : α) : Factors α :=
  { f with lower := f.lower.push i x }

def pushUpper (f : Factors α) (j : Nat) (x : α) : Factors α :=
  { f with upper := f.upper.push j x }

def closeStage (f : Factors α) (i j : Nat) (x : α) : Factors α :=
  let k := f.rank
  { f with
    stageOfRow := f.stageOfRow.setIfInBounds i (some k)
    stageOfCol := f.stageOfCol.setIfInBounds j (some k)
    pivotRows := f.pivotRows.push i
    pivotCols := f.pivotCols.push j
    inverses := f.inverses.push (1 / x)
    lower := f.lower.close
    upper := f.upper.close }

/-- The stages of rows or columns; the largest word where there is none. -/
def stagesOf (stages : Array (Option Nat)) (index : Array Nat) : Checked (Array Nat) :=
  index.mapM fun i => return (← entry stages i).getD Word.last

/-- The factors with stages instead of rows and columns. -/
def toStages (f : Factors α) : Checked (Factors α) := do
  let lower ← stagesOf f.stageOfRow f.lower.index
  let upper ← stagesOf f.stageOfCol f.upper.index
  return { f with
    lower := { f.lower with index := lower }
    upper := { f.upper with index := upper } }

def withTransposes (f : Factors α) (m : Nat) : Checked (Factors α) := do
  let lowerRows ← f.lower.transpose m
  let upperCols ← f.upper.transpose m
  return { f with transposes := some ⟨lowerRows, upperCols⟩ }

/-- The row pivoted with column `j`, its position in the basis. -/
def positionOf (f : Factors α) (j : Nat) : Checked (Option Nat) :=
  match f.stageOfCol.getD j none with
  | some k => return some (← entry f.pivotRows k)
  | none => .ok none

def unpivoted (stages : Array (Option Nat)) : List Nat :=
  (List.range stages.size).filter fun i => (stages.getD i none).isNone

end Factors

end SimplexBasis
