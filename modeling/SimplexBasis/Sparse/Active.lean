import SimplexBasis.Scalar
import SimplexBasis.Storage.CountLists
import SimplexBasis.Storage.LineFile

/-!
# The active submatrix

The part of the basis that is not yet factorized, held twice: by columns with values, and by rows as
a pattern. Rows and columns are listed by their counts, and the largest magnitude of each column is
known. Removing an entry keeps all of this in step.
-/

namespace SimplexBasis

/-- The rows and columns that have no pivot yet. -/
structure Active (α : Type) where
  /-- The columns: rows and values of their entries. -/
  cols : LineFile (Nat × α)
  /-- The rows: the columns of their entries. -/
  rows : LineFile Nat
  colCounts : CountLists
  /-- The rows listed by their number of entries. The last list holds rows set aside by the pivot
  search. -/
  rowCounts : CountLists
  colMax : Array α
  nonzeros : Nat
  deriving DecidableEq

namespace Active

variable {α β : Type} [Scalar α]

def void : Active α := ⟨.void, .void, .void, .void, #[], 0⟩

/-! ### Reading -/

def columnMax (a : Active α) (j : Nat) : Checked α :=
  return (← a.cols.line j).foldl (fun m (_, x) => Scalar.max m (Scalar.abs x)) 0

def offsetInColumn? (a : Active α) (j i : Nat) : Checked (Option Nat) :=
  return (← a.cols.line j).findIdx? (·.1 == i)

def offsetInRow? (a : Active α) (i j : Nat) : Checked (Option Nat) :=
  return (← a.rows.line i).findIdx? (· == j)

def value? (a : Active α) (i j : Nat) : Checked (Option α) :=
  return ((← a.cols.line j).find? (·.1 == i)).map Prod.snd

/-! ### Writing -/

def onCols (act : Action (LineFile (Nat × α)) β) : Action (Active α) β :=
  Part.run ⟨(·.cols), fun f a => { a with cols := f a.cols }⟩ .void act

def onRows (act : Action (LineFile Nat) β) : Action (Active α) β :=
  Part.run ⟨(·.rows), fun f a => { a with rows := f a.rows }⟩ .void act

def onColCounts (act : Action CountLists β) : Action (Active α) β :=
  Part.run ⟨(·.colCounts), fun f a => { a with colCounts := f a.colCounts }⟩ .void act

def onRowCounts (act : Action CountLists β) : Action (Active α) β :=
  Part.run ⟨(·.rowCounts), fun f a => { a with rowCounts := f a.rowCounts }⟩ .void act

def setColMax (j : Nat) (x : α) : Action (Active α) Unit :=
  Part.put ⟨(·.colMax), fun f a => { a with colMax := f a.colMax }⟩ j x

/-- Count a line of `old` entries as one of `new` entries. -/
def recount (old new : Nat) : Action (Active α) Unit :=
  modify fun a => { a with nonzeros := Word.sub (Word.add a.nonzeros new) old }

/-- Remove row `i` from column `j`, but not column `j` from row `i`. Answers the value and the
number of entries left in the column. -/
def removeFromColumn (i j : Nat) : Action (Active α) (α × Nat) := do
  let some offset := (← (← get).offsetInColumn? j i) | Action.breach .inconsistent
  let some x := (← (← get).value? i j) | Action.breach .inconsistent
  onCols (LineFile.swapRemove j offset)
  let length ← (← get).cols.length j
  onColCounts (CountLists.moveTo j length)
  if (← entry (← get).colMax j) ≤ Scalar.abs x then
    setColMax j (← (← get).columnMax j)
  recount 1 0
  return (x, length)

/-- Remove column `j` from row `i`, but not row `i` from column `j`. Answers the number of entries
left in the row. -/
def removeFromRow (i j : Nat) : Action (Active α) Nat := do
  let some offset := (← (← get).offsetInRow? i j) | Action.breach .inconsistent
  onRows (LineFile.swapRemove i offset)
  let length ← (← get).rows.length i
  onRowCounts (CountLists.moveTo i length)
  recount 1 0
  return length

/-- Drop row `i` and column `j`, which share the last entries of both. -/
def drop (i j : Nat) : Action (Active α) Unit := do
  onCols (LineFile.clearLine j)
  onRows (LineFile.clearLine i)
  onColCounts (CountLists.remove j)
  onRowCounts (CountLists.remove i)

end Active

end SimplexBasis
